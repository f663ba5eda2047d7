import Tenancy.Operator

/-!
Short cuts of the typed instructions.

An instruction for two integers or two reals computes at once when its operands are such, and leaves
all other cases to the dynamic operator.
-/

namespace Tenancy.Operator

def integers (f : Int64 → Int64 → Option Int64) : Value → Value → Option Value
  | .integer a, .integer b => (f a b).map .integer
  | _, _ => none

def reals (f : Binary64 → Binary64 → Option Binary64) : Value → Value → Option Value
  | .real a, .real b => (f a b).map .real
  | _, _ => none

def testIntegers (f : Int64 → Int64 → Bool) : Value → Value → Option Value
  | .integer a, .integer b => some (.ofBool (f a b))
  | _, _ => none

def testReals (f : Binary64 → Binary64 → Bool) : Value → Value → Option Value
  | .real a, .real b => some (.ofBool (f a b))
  | _, _ => none

/-- A divisor of zero has no short cut. -/
def shortcut (flavour : Flavour) (op : BinaryOp) : Value → Value → Option Value :=
  match flavour, op with
  | .integer, .add => integers fun a b => some (a + b)
  | .integer, .sub => integers fun a b => some (a - b)
  | .integer, .mul => integers fun a b => some (a * b)
  | .integer, .div => integers fun a b => if b = 0 then none else some (a / b)
  | .integer, .rem => integers fun a b => if b = 0 then none else some (a % b)
  | .integer, .eq => testIntegers fun a b => a == b
  | .integer, .ne => testIntegers fun a b => a != b
  | .integer, .lt => testIntegers fun a b => a < b
  | .integer, .le => testIntegers fun a b => a ≤ b
  | .integer, .gt => testIntegers fun a b => b < a
  | .integer, .ge => testIntegers fun a b => b ≤ a
  | .real, .add => reals fun a b => some (a.add b)
  | .real, .sub => reals fun a b => some (a.sub b)
  | .real, .mul => reals fun a b => some (a.mul b)
  | .real, .div => reals fun a b => if b.isZero then none else some (a.div b)
  | .real, .eq => testReals Binary64.eq
  | .real, .ne => testReals fun a b => !a.eq b
  | .real, .lt => testReals Binary64.lt
  | .real, .le => testReals Binary64.le
  | .real, .gt => testReals fun a b => b.lt a
  | .real, .ge => testReals fun a b => b.le a
  | .real, .rem | .dynamic, _ => fun _ _ => none

def typed (owner : ListId) (op : BinaryOp) (flavour : Flavour) (a b : Value) : HeapM Value :=
  match shortcut flavour op a b with
  | some v => pure v
  | none => binary owner op a b

end Tenancy.Operator
