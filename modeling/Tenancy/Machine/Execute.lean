import Tenancy.Machine.Basic

/-!
What the instructions of a frame do.

An instruction reads and writes the argument slots and locals of its frame, the constants of its
program and the variables of its component, and nothing else of the thread.
-/

namespace Tenancy

inductive Effect where
  | next (pc : Nat)
  | ret (value : Value)
  | call (request : Request) (target : Operand)

namespace Exec

def read (frame : Frame) (o : Operand) : Exec Value := do
  let index := o.index.toNat
  match o.place with
  | .constant =>
    match frame.program.constants[index]? with
    | some v => return v
    | none => fail (.badOperand o)
  | .argument =>
    if index < frame.argSlots then stackGet (frame.argsBase + index) else fail (.badOperand o)
  | .local =>
    if index < frame.localCount then stackGet (frame.localsBase + index) else fail (.badOperand o)
  | .member =>
    if index < frame.memberCount then
      match ((← get).world.object frame.object).members[frame.memberOffset + index]? with
      | some v => return v
      | none => fail (.badOperand o)
    else fail (.badOperand o)

def setMember (object : ObjectKey) (slot : Nat) (v : Value) : Exec Bool := do
  if slot < ((← get).world.object object).members.size then
    modifyWorld (·.modifyObject object fun o =>
      { o with members := o.members.setIfInBounds slot v })
    return true
  else return false

def write (frame : Frame) (o : Operand) (v : Value) : Exec Unit := do
  let index := o.index.toNat
  match o.place with
  | .constant => fail (.badOperand o)
  | .argument =>
    if index < frame.argSlots then stackSet (frame.argsBase + index) v else fail (.badOperand o)
  | .local =>
    if index < frame.localCount then stackSet (frame.localsBase + index) v
    else fail (.badOperand o)
  | .member =>
    if index < frame.memberCount then
      if !(← setMember frame.object (frame.memberOffset + index) v) then fail (.badOperand o)
    else fail (.badOperand o)

def window (frame : Frame) (w : Window) : Exec (List Value) :=
  if w.stop ≤ frame.localCount then
    stackSlice (frame.localsBase + w.start) (frame.localsBase + w.stop)
  else fail (.badOperand (.local w.base.toUInt16))

def constantText (frame : Frame) (index : UInt16) : Exec String := do
  let h := (← get).world.heap
  match frame.program.constants[index.toNat]?.bind h.text? with
  | some text => return text
  | none => fail (.badOperand (.constant index))

def jump (instructions : Array Instruction) (target : UInt16) : Exec Effect :=
  let target := target.toNat
  if target ≤ instructions.size then return .next target
  else fail (.custom s!"jump to {target} past end of code")

/-- Keys and values in turn; a key without a value is left out. -/
def pairs : List Value → List (Value × Value)
  | key :: value :: rest => (key, value) :: pairs rest
  | _ => []

/-- Component and function number packed into one integer. -/
def unpackCallee (packed : Int64) : Nat × Nat :=
  let bits := packed.toUInt64.toNat
  (bits / 0x10000 % 0x10000, bits % 0x10000)

def callOther (name : String) (target : Operand) : List Value → Option Effect
  | .object id :: args => some (.call (.other id name args) target)
  | _ => none

def execute (frame : Frame) (instructions : Array Instruction) (i : Instruction) (pc : Nat)
    (op : Opcode) : Exec Effect := do
  let store (v : Value) : Exec Effect := do
    write frame i.first v
    return .next pc
  match op with
  | .ret => return .ret (← read frame i.first)
  | .nop => return .next pc
  | .chkparam =>
    checkParameters frame
    return .next pc
  | .mov => store (← read frame i.second)
  | .ldi => store (.integer i.literal.toInt64)
  | .ldr => store (.real i.fixedPoint)
  | .ldn => store .nil
  | .binary op flavour =>
    let a ← read frame i.second
    let b ← read frame i.third
    store (← inDomain fun owner => Operator.typed owner op flavour a b)
  | .not => store (Operator.not (← read frame i.second))
  | .neg => store (← ofExcept (Operator.neg (← read frame i.second)))
  | .jmp => jump instructions i.first.index
  | .jz =>
    if (← read frame i.first).truthy then return .next pc
    else jump instructions i.second.index
  | .jnz =>
    if (← read frame i.first).truthy then jump instructions i.second.index
    else return .next pc
  | .idxGet =>
    let container ← read frame i.second
    let key ← read frame i.third
    store (← onHeap (Operator.indexGet container key))
  | .idxSet =>
    let container ← read frame i.first
    let key ← read frame i.second
    let value ← read frame i.third
    onHeap (Operator.indexSet container key value)
    return .next pc
  | .mkEmptyArray => store (← inDomain fun owner => HeapM.place owner (.array []))
  | .mkArray =>
    let items ← window frame i.window
    store (← inDomain fun owner => HeapM.place owner (.array items))
  | .mkEmptyMapping => store (← inDomain fun owner => HeapM.place owner (.mapping []))
  | .mkMapping =>
    let items ← window frame i.window
    store (← inDomain fun owner => Operator.merge owner (pairs items))
  | .callNear =>
    let args ← window frame i.window
    return .call (.far 0 i.second.index.toNat args) i.first
  | .callFar =>
    let constant := Operand.constant i.second.index
    match ← read frame constant with
    | .integer packed =>
      let args ← window frame i.window
      let (component, function) := unpackCallee packed
      return .call (.far component function args) i.first
    | _ => fail (.badOperand constant)
  | .callName =>
    let name ← constantText frame i.second.index
    let args ← window frame i.window
    return .call (.self name args) i.first
  | .callOther =>
    let name ← constantText frame i.second.index
    let args ← window frame i.window
    match callOther name i.first args with
    | some effect => return effect
    | none => store .nil
  | .callEfun =>
    let name ← constantText frame i.second.index
    let args ← window frame i.window
    return .call (.efun name args) i.first

/-- Runs the instruction at `pc`. The end of the code returns nil. -/
def instruction (frame : Frame) (instructions : Array Instruction) (pc : Nat) : Exec Effect :=
  match instructions[pc]? with
  | none => return .ret .nil
  | some i =>
    match i.op? with
    | none => fail (.invalidOpcode i.code)
    | some op => execute frame instructions i (pc + 1) op

end Exec

end Tenancy
