import Tenancy.Machine.Step

/-!
Running machines, and what a host does with a thread.
-/

namespace Tenancy

inductive RunResult where
  | finished (outcome : Outcome) (state : State)
  | blocked (machine : Machine)
  | broken (breach : Breach)
  | exhausted (machine : Machine)

/-- Takes at most `fuel` steps. Waiting ends when it has a limit and `patient` is false. -/
def Machine.run (patient : Bool) : Nat → Machine → RunResult
  | 0, m => .exhausted m
  | fuel + 1, m =>
    match m.step with
    | .next m => run patient fuel m
    | .done outcome s => .finished outcome s
    | .broken b => .broken b
    | .blocked m =>
      match patient, m.expire? with
      | false, some m => run patient fuel m
      | _, _ => .blocked m

def Machine.runFrom (patient : Bool) (fuel : Nat) : Except Breach Machine → RunResult
  | .ok m => m.run patient fuel
  | .error b => .broken b

namespace State

def idle (s : State) (pending : List Pending) : Machine :=
  { s with focus := .result .nil, pending }

/-- A call by the host. The arguments are copied in, the result is copied out. -/
def call (s : State) (target : ObjectId) (name : String) (args : List Value) :
    Except Breach Machine :=
  (s.idle [.host s.thread.savePoint]).after (Exec.inDomain fun owner => Heap.copyAll owner args)
    fun m args => m.callOther target name args

/-- A call as running code makes it. A fault leaves the frames in place. -/
def request (s : State) (r : Request) : Except Breach Machine := (s.idle [.bare]).request r

def callObject (s : State) (object : ObjectKey) (name : String) (args : List Value) :
    Except Breach Machine :=
  (s.idle [.bare]).callObject object name args

def visit (s : State) (target : ObjectId) (args : List Value) : Except Breach Machine :=
  (s.idle [.bare]).visit target args .stay

def restore (s : State) (mark : Mark) : Except Breach Machine :=
  (s.idle []).unwind mark (.done .restored)

/-- Whether a thread has to be unwound before it can end. -/
def unwound (s : State) : Bool := s.thread.domains.length ≤ 1 && s.thread.frames.isEmpty

/-- The world without the thread. An empty home goes with it. -/
def release (s : State) : World :=
  let t := s.thread
  let home := s.world.domain t.home
  let w := if home.holder = some t.key then
      s.world.modifyDomain t.home fun d => { d with holder := none }
    else s.world
  let w := w.modifyHeap (·.freeAll t.scratch)
  let w := match w.destroyDomain home.id with
    | .ok w => w
    | .error _ => w
  w.modifyHeap (·.freeAll t.transfer)

def detach (s : State) (fuel : Nat) : Except RunResult World :=
  if s.unwound then .ok s.release
  else
    match Machine.runFrom false fuel (s.restore ⟨0, 0, 1⟩) with
    | .finished _ s => .ok s.release
    | r => .error r

end State

end Tenancy
