import Tenancy.Code.Assembly
import Tenancy.Numeral

/-!
Listings: lines of assembly as words.

The first word says what the line does, the others are its operands. Literal integers are decimal,
literal reals are given by the hexadecimal digits of their bits.
-/

namespace Tenancy.Listing

def natural? (word : String) : Option Nat := (Numeral.integer? word.toList).map Int.toNat

def place? : Char → Option Place
  | 'c' => some .constant
  | 'a' => some .argument
  | 'l' => some .local
  | 'm' => some .member
  | _ => none

def operand? (word : String) : Option Operand := do
  match word.toList with
  | [] => none
  | letter :: digits =>
    return ⟨← place? letter, UInt16.ofNat (← Numeral.integer? digits).toNat⟩

def byte? (word : String) : Option UInt8 := (natural? word).map UInt8.ofNat

def index? (word : String) : Option UInt16 := (natural? word).map UInt16.ofNat

def real? (word : String) : Option Binary64 :=
  (Text.Hex.number? word).map fun n => ⟨UInt64.ofNat n⟩

/-- An operand of an exact instruction: the bits of its place and its index. -/
def exactOperand? (place index : String) : Option Operand :=
  return ⟨.ofBits (← natural? place), ← index? index⟩

def line? : List String → Option Line
  | ["nop"] => some .nop
  | ["ret", a] => return .ret (← operand? a)
  | ["chkparam"] => some .chkparam
  | ["mov", a, b] => return .mov (← operand? a) (← operand? b)
  | ["ldi", a, i] => return .ldi (← operand? a) (.ofInt (← Numeral.integer? i.toList))
  | ["ldr", a, r] => return .ldr (← operand? a) (← real? r)
  | ["ldn", a] => return .ldn (← operand? a)
  | ["bin", op, a, b, c] => do
    match ← Opcode.ofMnemonic? op with
    | .binary op flavour =>
      return .binary op flavour (← operand? a) (← operand? b) (← operand? c)
    | _ => none
  | ["not", a, b] => return .not (← operand? a) (← operand? b)
  | ["neg", a, b] => return .neg (← operand? a) (← operand? b)
  | ["idx_get", a, b, c] => return .idxGet (← operand? a) (← operand? b) (← operand? c)
  | ["idx_set", a, b, c] => return .idxSet (← operand? a) (← operand? b) (← operand? c)
  | ["mk_earr", a] => return .mkEmptyArray (← operand? a)
  | ["mk_iarr", a, base, n] => return .mkArray (← operand? a) (← byte? base) (← byte? n)
  | ["mk_emap", a] => return .mkEmptyMapping (← operand? a)
  | ["mk_imap", a, base, n] => return .mkMapping (← operand? a) (← byte? base) (← byte? n)
  | ["call_near", a, k, base, n] =>
    return .callNear (← operand? a) (← index? k) (← byte? base) (← byte? n)
  | ["call_far", a, k, base, n] =>
    return .callFar (← operand? a) (← index? k) (← byte? base) (← byte? n)
  | ["call_name", a, k, base, n] =>
    return .callName (← operand? a) (← index? k) (← byte? base) (← byte? n)
  | ["call_other", a, k, base, n] =>
    return .callOther (← operand? a) (← index? k) (← byte? base) (← byte? n)
  | ["call_efun", a, k, base, n] =>
    return .callEfun (← operand? a) (← index? k) (← byte? base) (← byte? n)
  | ["jmp", label] => some (.jmp label)
  | ["jz", a, label] => return .jz (← operand? a) label
  | ["jnz", a, label] => return .jnz (← operand? a) label
  | ["bind", label] => some (.bind label)
  | ["mark", name] => some (.mark name)
  | ["jmp_back", mark] => some (.jmpBack mark)
  | ["jnz_back", a, mark] => return .jnzBack (← operand? a) mark
  | ["raw", code, t1, t2, t3, p1, p2, p3] =>
    return .exactly ⟨← byte? code, ← exactOperand? t1 p1, ← exactOperand? t2 p2,
      ← exactOperand? t3 p3⟩
  | _ => none

end Tenancy.Listing
