import Tenancy.Machine.Execute

/-!
What the commands of native bodies do, save those that call or unwind.
-/

namespace Tenancy.Exec

def frame? : Exec (Option Frame) := do return (← get).thread.frames.head?

/-- A value that neither the domain owns nor nobody can own is copied into the domain. -/
def localize (v : Value) : Exec Value := do
  match v with
  | .ref r =>
    let s ← get
    if s.world.heap.unowned r.id || s.world.heap.owns s.owner r.id then return v
    else onHeap (Heap.copyValue s.owner v)
  | v => return v

def memberOperand (index : Nat) : Operand := .member (UInt16.ofNat index)

def getMember (frame : Frame) (index : Nat) : Exec Value := do
  if index < frame.memberCount then
    match ((← get).world.object frame.object).members[frame.memberOffset + index]? with
    | some v => return v
    | none => fail (.badOperand (memberOperand index))
  else fail (.badOperand (memberOperand index))

def putMember (frame : Frame) (index : Nat) (v : Value) : Exec Unit := do
  if index < frame.memberCount then
    let v ← localize v
    let _ ← setMember frame.object (frame.memberOffset + index) v
  else fail (.badOperand (memberOperand index))

/-- A fault becomes a reply. -/
def caught (act : Exec α) : Exec (Except Fault α) := fun s =>
  match act s with
  | .ok a s => .ok (.ok a) s
  | .error (.fault f) s => .ok (.error f) s
  | .error (.breach b) s => .error (.breach b) s

def make (share : Share) (draft : Draft) : Exec Value := do
  match draft.reserve with
  | .error b => breach b
  | .ok () =>
    let owner := (← get).owner
    let ownership : Ownership :=
      match share with
      | .here => .owned owner
      | .loose => .loose
      | .exempt exemption => .exempt exemption
    modifyGet fun s =>
      let (v, heap) := s.world.heap.make ownership draft
      (v, { s with world := { s.world with heap } })

def newObject (name : String) : Exec (Option ObjectId) := do
  let s ← get
  match s.world.findProgram? name with
  | none => return none
  | some program =>
    let (key, world) := s.world.newObject program s.thread.current.domain
    set { s with world }
    return some (world.object key).id

def reply (frame : Frame) : (c : Command) → Option (Exec c.Reply)
  | .argc => some (pure frame.argc)
  | .args => some (stackSlice frame.argsBase (frame.argsBase + frame.argSlots))
  | .thisObject => some do return ((← get).world.object frame.object).id
  | .objectSize => some do return ((← get).world.object frame.object).members.size
  | .callDepth => some do return (← get).thread.frames.length
  | .member index => some (caught (getMember frame index))
  | .setMember index v => some (caught (putMember frame index v))
  | .heap => some do return (← get).world.heap
  | .make share draft => some (make share draft)
  | .binary op a b => some (caught (inDomain fun owner => Operator.binary owner op a b))
  | .indexGet container key => some (caught (onHeap (Operator.indexGet container key)))
  | .indexSet container key v => some (caught (onHeap (Operator.indexSet container key v)))
  | .arrayPush container v => some (caught (onHeap (HeapM.arrayPush container v)))
  | .keep v => some (modifyThread (·.push v))
  | .call _ | .tryCall _ _ _ | .restore _ => none
  | .savePoint => some do return (← get).thread.savePoint
  | .output text => some (modifyWorld fun w => { w with output := text :: w.output })
  | .report v => some (modifyWorld fun w => { w with journal := w.heap.view v :: w.journal })
  | .lookup name => some do return ((← get).world.directory.lookup name).getD .null
  | .newObject program => some (newObject program)
  | .destruct target => some (modifyGet fun s =>
    let (found, world) := s.world.destruct target
    (found, { s with world }))
  | .destroyDomain id => some (caught do
    let world ← ofExcept ((← get).world.destroyDomain id)
    modifyWorld fun _ => world)
  | .domainId => some do
    let s ← get
    return (s.world.domain s.thread.current.domain).id
  | .domainName => some do
    let s ← get
    return (s.world.domain s.thread.current.domain).name
  | .domainSize => some do
    let s ← get
    return (s.world.heap.list s.owner).size
  | .collect roots => some (modifyGet fun s =>
    let (report, world) := s.world.collect s.thread.current.domain roots
    (report.freed, { s with world }))

end Tenancy.Exec
