/-!
The operations of the register machine.

Arithmetic and comparison come in three flavours: for two integers, for two reals, and dynamic. The
remainder has no flavour for reals.
-/

namespace Tenancy

inductive BinaryOp where
  | add | sub | mul | div | rem
  | eq | ne | lt | le | gt | ge
deriving DecidableEq

inductive Flavour where
  | integer | real | dynamic
deriving DecidableEq

inductive Opcode where
  | nop | ret | chkparam | mov | ldi | ldr | ldn
  | binary (op : BinaryOp) (flavour : Flavour)
  | not | neg
  | jmp | jz | jnz
  | idxGet | idxSet
  | mkEmptyArray | mkArray | mkEmptyMapping | mkMapping
  | callNear | callFar | callName | callOther | callEfun
deriving DecidableEq

namespace BinaryOp

def mnemonic : BinaryOp → String
  | .add => "ADD"
  | .sub => "SUB"
  | .mul => "MUL"
  | .div => "DIV"
  | .rem => "MOD"
  | .eq => "EQ"
  | .ne => "NE"
  | .lt => "LT"
  | .le => "LE"
  | .gt => "GT"
  | .ge => "GE"

def all : List BinaryOp := [.add, .sub, .mul, .div, .rem, .eq, .ne, .lt, .le, .gt, .ge]

def name : BinaryOp → String
  | .add => "add"
  | .sub => "sub"
  | .mul => "mul"
  | .div => "div"
  | .rem => "rem"
  | .eq => "eq"
  | .ne => "ne"
  | .lt => "lt"
  | .le => "le"
  | .gt => "gt"
  | .ge => "ge"

def ofName? (name : String) : Option BinaryOp := all.find? (·.name = name)

def flavours : BinaryOp → List Flavour
  | .rem => [.integer, .dynamic]
  | _ => [.integer, .real, .dynamic]

end BinaryOp

def Flavour.letter : Flavour → String
  | .integer => "I"
  | .real => "R"
  | .dynamic => "X"

namespace Opcode

/-- Every operation, in the order of the codes from 0. -/
def table : List Opcode :=
  [.nop, .ret, .chkparam, .mov, .ldi, .ldr, .ldn]
    ++ BinaryOp.all.flatMap (fun op => op.flavours.map (.binary op))
    ++ [.not, .neg, .jmp, .jz, .jnz, .idxGet, .idxSet, .mkEmptyArray, .mkArray, .mkEmptyMapping,
      .mkMapping, .callNear, .callFar, .callName, .callOther, .callEfun]

def ofByte? (code : UInt8) : Option Opcode := table[code.toNat]?

def toByte (op : Opcode) : UInt8 := UInt8.ofNat (table.idxOf op)

def mnemonic : Opcode → String
  | .nop => "NOP"
  | .ret => "RET"
  | .chkparam => "CHKPARAM"
  | .mov => "MOV"
  | .ldi => "LDI"
  | .ldr => "LDR"
  | .ldn => "LDN"
  | .binary op flavour => op.mnemonic ++ flavour.letter
  | .not => "NOT"
  | .neg => "NEG"
  | .jmp => "JMP"
  | .jz => "JZ"
  | .jnz => "JNZ"
  | .idxGet => "IDXGET"
  | .idxSet => "IDXSET"
  | .mkEmptyArray => "MKEARR"
  | .mkArray => "MKIARR"
  | .mkEmptyMapping => "MKEMAP"
  | .mkMapping => "MKIMAP"
  | .callNear => "CALLNEAR"
  | .callFar => "CALLFAR"
  | .callName => "CALLNAME"
  | .callOther => "CALLOTHER"
  | .callEfun => "CALLEFUN"

def ofMnemonic? (name : String) : Option Opcode := table.find? (·.mnemonic = name)

def usesWindow : Opcode → Bool
  | .mkArray | .mkMapping | .callNear | .callFar | .callName | .callOther | .callEfun => true
  | _ => false

end Opcode

end Tenancy
