import Tenancy.Binary64.Decimal
import Tenancy.Binary64.Rounding
import Tenancy.Code.Opcode
import Tenancy.Text.Hex

/-!
Instructions of one fixed width, their packing into 64-bit words, and their text.

An instruction has an operation code and three operands, each a place and an index. From low to high
a word holds the code (8 bits), the places (2 bits each, 2 unused) and the indices (16 bits each).
-/

namespace Tenancy

/-- Where an operand lives: constants of the program, arguments or locals of the frame, or
variables of the running component. -/
inductive Place where
  | constant | argument | «local» | member
deriving DecidableEq, Inhabited

def Place.bits : Place → Nat
  | .constant => 0
  | .argument => 1
  | .local => 2
  | .member => 3

/-- Only the two low bits count. -/
def Place.ofBits (n : Nat) : Place :=
  match n % 4 with
  | 0 => .constant
  | 1 => .argument
  | 2 => .local
  | _ => .member

def Place.letter : Place → String
  | .constant => "c"
  | .argument => "a"
  | .local => "l"
  | .member => "m"

structure Operand where
  place : Place := .constant
  index : UInt16 := 0
deriving DecidableEq, Inhabited

namespace Operand

def constant (index : UInt16) : Operand := ⟨.constant, index⟩

def argument (index : UInt16) : Operand := ⟨.argument, index⟩

def «local» (index : UInt16) : Operand := ⟨.local, index⟩

def member (index : UInt16) : Operand := ⟨.member, index⟩

def text (operand : Operand) : String := operand.place.letter ++ toString operand.index.toNat

end Operand

structure Window where
  base : UInt8
  count : UInt8
deriving DecidableEq

namespace Window

def pack (window : Window) : UInt16 := UInt16.ofNat (window.count.toNat * 256 + window.base.toNat)

def unpack (field : UInt16) : Window :=
  ⟨UInt8.ofNat (field.toNat % 256), UInt8.ofNat (field.toNat / 256)⟩

def start (window : Window) : Nat := window.base.toNat

def stop (window : Window) : Nat := window.base.toNat + window.count.toNat

def text (window : Window) : String := s!"l{window.base.toNat}..+{window.count.toNat}"

end Window

structure Instruction where
  code : UInt8
  first : Operand := {}
  second : Operand := {}
  third : Operand := {}
deriving DecidableEq

namespace Instruction

def op? (i : Instruction) : Option Opcode := Opcode.ofByte? i.code

def window (i : Instruction) : Window := .unpack i.third.index

def literal (i : Instruction) : Int32 :=
  Int32.ofNat (i.second.index.toNat + i.third.index.toNat * 65536)

def fixedPoint (i : Instruction) : Binary64 := .ofFixed i.literal

def places (i : Instruction) : Nat :=
  i.first.place.bits + i.second.place.bits * 4 + i.third.place.bits * 16

def toWord (i : Instruction) : UInt64 :=
  UInt64.ofNat (i.code.toNat + i.places * 0x100 + i.first.index.toNat * 0x10000
    + i.second.index.toNat * 0x100000000 + i.third.index.toNat * 0x1000000000000)

def field (word : UInt64) (unit : Nat) : UInt16 := UInt16.ofNat (word.toNat / unit % 0x10000)

def ofWord (word : UInt64) : Instruction :=
  let places := word.toNat / 0x100 % 0x100
  { code := UInt8.ofNat (word.toNat % 0x100)
    first := ⟨.ofBits places, field word 0x10000⟩
    second := ⟨.ofBits (places / 4), field word 0x100000000⟩
    third := ⟨.ofBits (places / 16), field word 0x1000000000000⟩ }

def operandText (i : Instruction) : Opcode → List String
  | .nop | .chkparam => []
  | .ret | .ldn | .mkEmptyArray | .mkEmptyMapping => [i.first.text]
  | .mov | .not | .neg => [i.first.text, i.second.text]
  | .ldi => [i.first.text, toString i.literal.toInt]
  | .ldr => [i.first.text, i.fixedPoint.write .inCode]
  | .jmp => ["@" ++ toString i.first.index.toNat]
  | .jz | .jnz => [i.first.text, "@" ++ toString i.second.index.toNat]
  | .mkArray | .mkMapping => [i.first.text, i.window.text]
  | .callNear => [i.first.text, "f" ++ toString i.second.index.toNat, i.window.text]
  | .callFar | .callName | .callOther | .callEfun =>
    [i.first.text, "#" ++ toString i.second.index.toNat, i.window.text]
  | .binary _ _ | .idxGet | .idxSet => [i.first.text, i.second.text, i.third.text]

def text (i : Instruction) : String :=
  match i.op? with
  | none => "??? 0x" ++ Text.Hex.ofByte i.code
  | some op =>
    match i.operandText op with
    | [] => op.mnemonic
    | operands => op.mnemonic ++ " " ++ ", ".intercalate operands

end Instruction

end Tenancy
