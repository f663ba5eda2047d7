import Tenancy.Machine.Call
import Tenancy.Machine.Command

/-!
The steps of a machine.

A step runs one instruction or one command, hands a result or a fault to what waits for it, or
enters a domain. It is blocked while another thread holds the domain that it has to enter.
-/

namespace Tenancy

inductive Progress where
  | next (machine : Machine)
  | done (outcome : Outcome) (state : State)
  | blocked (machine : Machine)
  | broken (breach : Breach)

def Progress.ofExcept : Except Breach Machine → Progress
  | .ok m => .next m
  | .error b => .broken b

namespace Machine

def after (m : Machine) (act : Exec α) (next : Machine → α → Except Breach Machine) :
    Except Breach Machine :=
  match m with
  | ⟨s, focus, pending⟩ =>
    match act s with
    | .ok a s => next ⟨s, focus, pending⟩ a
    | .error (.fault f) s => .ok ⟨s, .fault f, pending⟩
    | .error (.breach b) _ => .error b

/-- Sets out to unwind to a mark, which may not lie above the stacks. -/
def unwind (m : Machine) (mark : Mark) (next : Focus) : Except Breach Machine :=
  let t := m.thread
  if 1 ≤ mark.domains ∧ mark.domains ≤ t.domains.length ∧ mark.calls ≤ t.frames.length
      ∧ mark.stack ≤ t.stack.size then
    .ok { m with focus := .unwinding mark next }
  else .error .corruptMark

def stepCode (m : Machine) (frame : Frame) (instructions : Array Instruction) (pc : Nat) :
    Except Breach Machine :=
  m.after (Exec.instruction frame instructions pc) fun m effect =>
    match effect with
    | .next pc => .ok { m with focus := .code frame instructions pc }
    | .ret v => .ok (m.answer v)
    | .call r target =>
      { m with pending := .store frame instructions (pc + 1) target :: m.pending }.request r

def stepCommand (m : Machine) (frame : Frame) (c : Command) (next : c.Reply → Native Value) :
    Except Breach Machine :=
  match c, next with
  | .call r, next => { m with pending := .resume next :: m.pending }.request r
  | .tryCall target name args, next =>
    { m with pending := .attempt m.thread.savePoint next :: m.pending }.callOther target name args
  | .restore mark, next => m.unwind mark (.native (next ()))
  | c, next =>
    match Exec.reply frame c with
    | some act => m.after act fun m reply => .ok { m with focus := .native (next reply) }
    | none => .ok m

def stepNative (m : Machine) : Native Value → Except Breach Machine
  | .done v => .ok (m.answer v)
  | .raise f => .ok (m.raise f)
  | .act c next =>
    match m.thread.frames with
    | frame :: _ => m.stepCommand frame c next
    | [] => .ok (m.raise noFrame)

/-- Collects the domain on top if that is due. The window of the domain and the result are roots. -/
def safepoint (m : Machine) (result : Value) : Machine :=
  let domain := m.thread.current.domain
  if m.world.needsCollection domain then
    { m with world := (m.world.collect domain (m.thread.window ++ [result])).2 }
  else m

def departBack (m : Machine) (v : Value) : Except Breach Machine :=
  if m.thread.domains.length ≤ 1 then .error .leavingHome
  else
    m.after (Exec.onHeap (Heap.copyValue m.thread.transfer v)) fun m v => do
      let context := m.thread.current
      let thread := { m.thread.truncate context.start with domains := m.thread.domains.tail }
      let world ← m.world.leave context.domain m.thread.key
      return { m with world, thread, focus := .returning v }

def collectHome (m : Machine) : Machine :=
  if m.thread.domains.length = 1 ∧ m.thread.frames = [] then
    { m with world := (m.world.collectIfDue m.thread.home m.thread.stack.toList).2 }
  else m

def stepResult (m : Machine) (v : Value) : Except Breach Machine :=
  match m.pending with
  | [] => .ok { m with focus := .done (.returned v) }
  | .frame base :: pending =>
    let thread := { m.thread.truncate base with frames := m.thread.frames.tail }
    .ok ({ m with thread, pending }.safepoint v)
  | .store frame instructions pc target :: pending =>
    { m with pending }.after (Exec.write frame target v) fun m () =>
      .ok { m with focus := .code frame instructions pc }
  | .resume next :: pending | .attempt _ next :: pending =>
    .ok { m with pending, thread := m.thread.push v, focus := .native (next (.ok v)) }
  | .crossing :: pending => { m with pending }.departBack v
  | .host _ :: _ =>
    m.after (Exec.onHeap (Heap.copyValue m.thread.scratch v)) fun m v =>
      .ok { m.collectHome with focus := .done (.returned v) }
  | .bare :: _ => .ok { m with focus := .done (.returned v) }

def stepFault (m : Machine) (f : Fault) : Except Breach Machine :=
  match m.pending with
  | [] => .ok { m with focus := .done (.faulted f) }
  | .frame _ :: pending | .store _ _ _ _ :: pending | .crossing :: pending => .ok { m with pending }
  | .resume next :: pending => .ok { m with pending, focus := .native (next (.error f)) }
  | .attempt mark next :: pending => { m with pending }.unwind mark (.native (next (.error f)))
  | .host mark :: _ => m.unwind mark (.done (.failed f (m.thread.trace m.world)))
  | .bare :: _ => .ok { m with focus := .done (.faulted f) }

/-- Takes the domain that the thread has to be in, and ends the parking of its window there. -/
def comeBack (m : Machine) : Machine :=
  let key := m.thread.key
  let domain := m.thread.current.domain
  let depth := m.thread.domains.length - 1
  { m with world := (m.world.hold domain key).modifyDomain domain (·.unpark key depth) }

/-- In the domain of the object: if the object is still there, the arguments follow and the errand
is done; otherwise the thread turns back. -/
def arrive (m : Machine) (domain : DomainKey) (target : ObjectId) (args : List Value)
    (errand : Errand) : Except Breach Machine :=
  let key := m.thread.key
  let m := { m with world := m.world.hold domain key }
  let d := m.world.domain domain
  match (m.world.findObject? target).filter fun o => (m.world.object o).domain = d.id with
  | none => do
    let world ← m.world.leave domain key
    return { m with world, focus := .rollingBack (stay errand) }
  | some o =>
    let context : DomainContext := ⟨domain, m.thread.frames.length, m.thread.stack.size⟩
    let m :=
      { m with
        world := m.world.modifyHeap (·.append d.values m.thread.transfer)
        thread := { m.thread with domains := context :: m.thread.domains } }
    match errand with
    | .stay => .ok { m with focus := .done (.switched o args) }
    | .call name => { m with pending := .crossing :: m.pending }.callObject o name args

/-- Back after a visit in vain: what was copied for the way is freed. -/
def rolledBack (m : Machine) (next : Focus) : Machine :=
  let m := m.comeBack
  { m with world := m.world.modifyHeap (·.freeAll m.thread.transfer), focus := next }

/-- What is on its way arrives in the domain that the thread is in. -/
def receive (m : Machine) : Machine :=
  { m with world := m.world.modifyHeap (·.append m.owner m.thread.transfer) }

/-- Unwinds one domain context, or else the frames and values above the mark. -/
def stepUnwind (m : Machine) (mark : Mark) (next : Focus) : Except Breach Machine :=
  if mark.domains < m.thread.domains.length then do
    let context := m.thread.current
    let thread := { m.thread with domains := m.thread.domains.tail }
    let world ← m.world.leave context.domain m.thread.key
    return { m with world, thread, focus := .reentering mark next }
  else
    let t := m.thread.truncate mark.stack
    let thread := { t with frames := t.frames.drop (t.frames.length - mark.calls) }
    .ok { { m with thread }.receive with focus := next }

/-- Goes on with `enter` once nobody holds the domain. -/
def whenFree (m : Machine) (domain : DomainKey) (mine : Except Breach Machine)
    (enter : Except Breach Machine) : Progress :=
  match (m.world.domain domain).holder with
  | none => .ofExcept enter
  | some key => if key = m.thread.key then .ofExcept mine else .blocked m

def step (m : Machine) : Progress :=
  let here := m.thread.current.domain
  let reentered := Except.error (.reentered (m.world.domain here).id)
  match m.focus with
  | .code frame instructions pc => .ofExcept (m.stepCode frame instructions pc)
  | .native body => .ofExcept (m.stepNative body)
  | .result v => .ofExcept (m.stepResult v)
  | .fault f => .ofExcept (m.stepFault f)
  | .visiting domain target args errand =>
    let id := (m.world.domain domain).id
    m.whenFree domain (.ok { m with focus := .rollingBack (.fault (.domainReentered id)) })
      (m.arrive domain target args errand)
  | .rollingBack next => m.whenFree here reentered (.ok (m.rolledBack next))
  | .returning v => m.whenFree here reentered (.ok { m.comeBack.receive with focus := .result v })
  | .unwinding mark next => .ofExcept (m.stepUnwind mark next)
  | .reentering mark next =>
    m.whenFree here reentered (.ok { m.comeBack with focus := .unwinding mark next })
  | .done outcome => .done outcome m.toState

def expire? (m : Machine) : Option Machine :=
  match m.focus, m.world.settings.enterTimeout with
  | .visiting domain _ _ _, some _ =>
    let id := (m.world.domain domain).id
    some { m with focus := .rollingBack (.fault (.domainTimeout id)) }
  | _, _ => none

end Machine

end Tenancy
