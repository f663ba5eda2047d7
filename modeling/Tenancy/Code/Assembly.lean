import Tenancy.Code.Instruction

/-!
Assembly: lines with named jump targets, and the instructions they stand for.

A forward jump names a label that a later `bind` line places. A backward jump names a mark that an
earlier line left. Targets are absolute instruction indices. A label that is never bound jumps to 0.
-/

namespace Tenancy

inductive Line where
  | nop
  | ret (source : Operand)
  | chkparam
  | mov (target source : Operand)
  | ldi (target : Operand) (value : Int32)
  | ldr (target : Operand) (value : Binary64)
  | ldn (target : Operand)
  | binary (op : BinaryOp) (flavour : Flavour) (target left right : Operand)
  | not (target source : Operand)
  | neg (target source : Operand)
  | idxGet (target container key : Operand)
  | idxSet (container key value : Operand)
  | mkEmptyArray (target : Operand)
  | mkArray (target : Operand) (base count : UInt8)
  | mkEmptyMapping (target : Operand)
  /-- The locals alternate between keys and values. -/
  | mkMapping (target : Operand) (base pairs : UInt8)
  | callNear (target : Operand) (function : UInt16) (base count : UInt8)
  /-- The constant holds `component * 65536 + function`. -/
  | callFar (target : Operand) (constant : UInt16) (base count : UInt8)
  | callName (target : Operand) (constant : UInt16) (base count : UInt8)
  /-- The first local is the object called; `count` leaves it out. -/
  | callOther (target : Operand) (constant : UInt16) (base count : UInt8)
  | callEfun (target : Operand) (constant : UInt16) (base count : UInt8)
  | jmp (label : String)
  | jz (condition : Operand) (label : String)
  | jnz (condition : Operand) (label : String)
  | bind (label : String)
  | mark (name : String)
  | jmpBack (mark : String)
  | jnzBack (condition : Operand) (mark : String)
  | exactly (instruction : Instruction)

structure Assembler where
  code : Array Instruction := #[]
  /-- Jumps that wait for their label, by the index of the jump. -/
  waiting : List (String × Nat) := []
  marks : List (String × Nat) := []

namespace Assembler

def emit (a : Assembler) (i : Instruction) : Assembler := { a with code := a.code.push i }

def operands (op : Opcode) (first second third : Operand) : Instruction :=
  ⟨op.toByte, first, second, third⟩

/-- A literal is spread over the second and third index, low half first. -/
def withLiteral (op : Opcode) (target : Operand) (value : Int32) : Instruction :=
  let bits := value.toUInt32.toNat
  ⟨op.toByte, target, .constant (UInt16.ofNat (bits % 65536)),
    .constant (UInt16.ofNat (bits / 65536))⟩

def withWindow (op : Opcode) (target : Operand) (number : UInt16) (window : Window) : Instruction :=
  ⟨op.toByte, target, .constant number, .constant window.pack⟩

def emitJump (a : Assembler) (op : Opcode) (condition : Operand) (label : String) : Assembler :=
  { a.emit (operands op condition {} {}) with waiting := (label, a.code.size) :: a.waiting }

/-- Points a jump at `target`: the first index of an unconditional jump, the second of others. -/
def retarget (target : UInt16) (i : Instruction) : Instruction :=
  if i.code = Opcode.jmp.toByte then { i with first := { i.first with index := target } }
  else { i with second := { i.second with index := target } }

/-- Points the jump that waits for a label at the next instruction. -/
def bindLabel (a : Assembler) (label : String) : Assembler :=
  match a.waiting.lookup label with
  | none => a
  | some jump =>
    { a with
      code := a.code.modify jump (retarget (UInt16.ofNat a.code.size))
      waiting := a.waiting.filter (·.1 ≠ label) }

def markAt (a : Assembler) (name : String) : UInt16 :=
  UInt16.ofNat ((a.marks.lookup name).getD 0)

def line (a : Assembler) : Line → Assembler
  | .nop => a.emit (operands .nop {} {} {})
  | .ret source => a.emit (operands .ret source {} {})
  | .chkparam => a.emit (operands .chkparam {} {} {})
  | .mov target source => a.emit (operands .mov target source {})
  | .ldi target value => a.emit (withLiteral .ldi target value)
  | .ldr target value => a.emit (withLiteral .ldr target value.toFixed)
  | .ldn target => a.emit (operands .ldn target {} {})
  | .binary op flavour target left right => a.emit (operands (.binary op flavour) target left right)
  | .not target source => a.emit (operands .not target source {})
  | .neg target source => a.emit (operands .neg target source {})
  | .idxGet target container key => a.emit (operands .idxGet target container key)
  | .idxSet container key value => a.emit (operands .idxSet container key value)
  | .mkEmptyArray target => a.emit (operands .mkEmptyArray target {} {})
  | .mkArray target base count => a.emit (withWindow .mkArray target 0 ⟨base, count⟩)
  | .mkEmptyMapping target => a.emit (operands .mkEmptyMapping target {} {})
  | .mkMapping target base pairs => a.emit (withWindow .mkMapping target 0 ⟨base, pairs * 2⟩)
  | .callNear target function base count =>
    a.emit (withWindow .callNear target function ⟨base, count⟩)
  | .callFar target constant base count =>
    a.emit (withWindow .callFar target constant ⟨base, count⟩)
  | .callName target constant base count =>
    a.emit (withWindow .callName target constant ⟨base, count⟩)
  | .callOther target constant base count =>
    a.emit (withWindow .callOther target constant ⟨base, count + 1⟩)
  | .callEfun target constant base count =>
    a.emit (withWindow .callEfun target constant ⟨base, count⟩)
  | .jmp label => a.emitJump .jmp {} label
  | .jz condition label => a.emitJump .jz condition label
  | .jnz condition label => a.emitJump .jnz condition label
  | .bind label => a.bindLabel label
  | .mark name => { a with marks := (name, a.code.size) :: a.marks }
  | .jmpBack mark => a.emit (operands .jmp (.constant (a.markAt mark)) {} {})
  | .jnzBack condition mark => a.emit (operands .jnz condition (.constant (a.markAt mark)) {})
  | .exactly instruction => a.emit instruction

end Assembler

def assemble (lines : List Line) : Array Instruction := (lines.foldl Assembler.line {}).code

end Tenancy
