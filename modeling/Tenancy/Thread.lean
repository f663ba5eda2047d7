import Tenancy.World

/-!
Threads of control.

A thread has a stack of values, a stack of call frames and a stack of domain contexts. The frames
own windows of the value stack: argument slots, then locals. A domain context begins where a call
has crossed into a domain. The bottom context is the thread's home.
-/

namespace Tenancy

structure Frame where
  object : ObjectKey
  program : Program
  function : Function
  component : Nat
  memberOffset : Nat
  memberCount : Nat
  isEfun : Bool
  argsBase : Nat
  argc : Nat
  /-- At least the declared parameters. -/
  argSlots : Nat
  localsBase : Nat
  localCount : Nat
  /-- The position of the domain context that the frame runs in. -/
  domainDepth : Nat

def Frame.width : Nat := 104

structure DomainContext where
  domain : DomainKey
  /-- Frames below the context. -/
  calls : Nat
  /-- Stack slots below the context. -/
  start : Nat
deriving DecidableEq, Inhabited

def DomainContext.width : Nat := 24

def Value.width : Nat := 16

/-- Whether each stack of a thread, as deep as it may become, fits into a block. -/
def Settings.stacksFit (s : Settings) : Bool :=
  Block.fits DomainContext.width s.domainDepth && Block.fits Value.width s.stackCapacity
    && Block.fits Frame.width s.callDepth

structure Thread where
  key : ThreadKey
  stack : Array Value := #[]
  /-- Top first. -/
  frames : List Frame := []
  /-- Top first. -/
  domains : List DomainContext
  /-- Owns the values handed to the host. -/
  scratch : ListId
  /-- Owns the values on their way between two domains. -/
  transfer : ListId
  home : DomainKey

structure TraceFrame where
  function : String
  program : String
  object : ObjectId
  args : List String
  locals : List String
deriving DecidableEq

abbrev Trace := List TraceFrame

def TraceFrame.text (f : TraceFrame) : String :=
  let args := ", ".intercalate f.args
  let call := s!"{f.program}::{f.function} in <object {f.object.text}> ({args})"
  if f.locals.isEmpty then call else call ++ " locals [" ++ ", ".intercalate f.locals ++ "]"

/-- The innermost frame stands first. -/
def Trace.text (t : Trace) : String :=
  "call stack:" ++ String.join (t.mapIdx fun depth f => s!"\n  #{depth} {f.text}")

namespace Thread

def current (t : Thread) : DomainContext := t.domains.headD ⟨t.home, 0, 0⟩

def savePoint (t : Thread) : Mark := ⟨t.frames.length, t.stack.size, t.domains.length⟩

def slots (t : Thread) (base count : Nat) : List Value :=
  if base + count ≤ t.stack.size then (t.stack.extract base (base + count)).toList else []

def traceFrame (w : World) (t : Thread) (f : Frame) : TraceFrame :=
  { function := f.function.name
    program := f.program.name
    object := (w.object f.object).id
    args := (t.slots f.argsBase f.argc).map w.heap.describe
    locals := (t.slots f.localsBase f.localCount).map w.heap.describe }

def trace (w : World) (t : Thread) : Trace := t.frames.map (traceFrame w t)

def window (t : Thread) : List Value := (t.stack.extract t.current.start t.stack.size).toList

def truncate (t : Thread) (size : Nat) : Thread := { t with stack := t.stack.take size }

def push (t : Thread) (v : Value) : Thread := { t with stack := t.stack.push v }

def held (t : Thread) : List DomainKey := t.home :: t.domains.map DomainContext.domain

def running (t : Thread) : List ObjectKey := t.frames.map Frame.object

def references (w : World) (t : Thread) : List Value :=
  t.stack.toList ++ t.frames.flatMap fun f => f.function.defaults ++ w.holdings f.object

/-- A new thread in a home domain of its own. The stacks are set aside at once. -/
def attach (w : World) : Except Breach (Thread × World) :=
  if w.settings.stacksFit then
    let (key, w) := w.newKey
    let (home, w) := w.createDomain s!"home of {key.text}"
    let (scratch, w) := w.newList
    let (transfer, w) := w.newList
    .ok ({ key, domains := [⟨home, 0, 0⟩], scratch, transfer, home }, w.hold home key)
  else .error .capacity

end Thread

/-- Ends the domains that have been given up and that neither a thread nor the host holds. -/
def World.forget (w : World) (threads : List Thread) (held : List DomainKey) : World :=
  w.endForgotten (held ++ threads.flatMap Thread.held) (threads.flatMap Thread.running)

def World.inUse (w : World) (threads : List Thread) : List Value :=
  w.references ++ threads.flatMap (Thread.references w)

end Tenancy
