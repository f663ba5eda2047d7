import Tenancy.Heap.Copy
import Tenancy.Operator.Typed
import Tenancy.Thread

/-!
States of a running thread.

A machine is a thread in its world with a focus, which says what comes next, and a stack of what
waits for the outcome of the focus. Frames, values and domain contexts are those of the thread; what
waits here is only control.
-/

namespace Tenancy

structure State where
  world : World
  thread : Thread

inductive Trouble where
  | fault (fault : Fault)
  | breach (breach : Breach)

/-- Steps of a thread that may fail. A failure keeps what was done before it. -/
abbrev Exec := EStateM Trouble State

inductive Errand where
  | call (name : String)
  | stay
deriving DecidableEq

inductive Outcome where
  | returned (value : Value)
  | faulted (fault : Fault)
  /-- A fault with the frames at the point where it was raised. -/
  | failed (fault : Fault) (trace : Trace)
  /-- In the domain of an object, with the arguments moved there. -/
  | switched (object : ObjectKey) (args : List Value)
  | stayed
  | restored

inductive Focus where
  | code (frame : Frame) (instructions : Array Instruction) (pc : Nat)
  | native (body : Native Value)
  | result (value : Value)
  | fault (fault : Fault)
  /-- Waits for the domain of an object. The thread holds no domain. -/
  | visiting (domain : DomainKey) (target : ObjectId) (args : List Value) (errand : Errand)
  /-- Waits for the domain that a visit in vain has left. -/
  | rollingBack (next : Focus)
  /-- Waits for the domain that a call returns to. -/
  | returning (value : Value)
  /-- Has to go back to a mark. -/
  | unwinding (mark : Mark) (next : Focus)
  /-- Waits for the domain below one that was unwound. -/
  | reentering (mark : Mark) (next : Focus)
  | done (outcome : Outcome)

inductive Pending where
  /-- A frame ends, and its window goes. -/
  | frame (argsBase : Nat)
  /-- Code stores the result of a call and goes on. -/
  | store (frame : Frame) (instructions : Array Instruction) (pc : Nat) (target : Operand)
  /-- A native body goes on; a result is kept for it. -/
  | resume (next : Except Fault Value → Native Value)
  /-- A native body goes on; a fault first unwinds to the mark. -/
  | attempt (mark : Mark) (next : Except Fault Value → Native Value)
  /-- The thread goes back across a domain boundary. -/
  | crossing
  /-- The host takes the result; a fault first unwinds to the mark. -/
  | host (mark : Mark)
  /-- The host takes what comes and leaves the frames as they are. -/
  | bare

structure Machine extends State where
  focus : Focus
  pending : List Pending

def State.owner (s : State) : ListId := (s.world.domain s.thread.current.domain).values

namespace Exec

def fail (f : Fault) : Exec α := throw (.fault f)

def breach (b : Breach) : Exec α := throw (.breach b)

def ofExcept (r : Except Fault α) : Exec α :=
  match r with
  | .ok a => pure a
  | .error f => fail f

/-- While the action runs, the world has no second hold on the heap. -/
def onHeap (act : HeapM α) : Exec α := fun ⟨world, thread⟩ =>
  let heap := world.heap
  let world := { world with heap := {} }
  match act heap with
  | .ok a heap => .ok a ⟨{ world with heap }, thread⟩
  | .error f heap => .error (.fault f) ⟨{ world with heap }, thread⟩

def inDomain (act : ListId → HeapM α) : Exec α := do onHeap (act (← get).owner)

def modifyWorld (f : World → World) : Exec Unit := modify fun s => { s with world := f s.world }

def modifyThread (f : Thread → Thread) : Exec Unit :=
  modify fun s => { s with thread := f s.thread }

def stackGet (index : Nat) : Exec Value := do
  let stack := (← get).thread.stack
  match stack[index]? with
  | some v => return v
  | none => breach (.stackIndex index stack.size)

def stackSet (index : Nat) (v : Value) : Exec Unit := do
  let size := (← get).thread.stack.size
  if index < size then modifyThread fun t => { t with stack := t.stack.setIfInBounds index v }
  else breach (.stackIndex index size)

def stackSlice (start stop : Nat) : Exec (List Value) := do
  let stack := (← get).thread.stack
  if stop ≤ stack.size then return (stack.extract start stop).toList
  else breach (.stackStop stop stack.size)

def checkParameters (frame : Frame) : Exec Unit := do
  let base := frame.argsBase
  ofExcept (frame.function.checkArguments (← stackSlice base (base + frame.argc)))
  let slots ← stackSlice base (base + frame.argSlots)
  (frame.function.padDefaults frame.argc slots).zipIdx.forM fun (v, i) => stackSet (base + i) v

end Exec

end Tenancy
