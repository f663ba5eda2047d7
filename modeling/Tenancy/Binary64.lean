/-!
Real numbers as their 64-bit words: sign, 11 bits of exponent, 52 bits of fraction.

Sum, difference, product and quotient are those of `Float`. All else (order, the integer that a real
stands for, fixed-point conversion) is worked out on the word itself in `Nat` and `Int`.
-/

namespace Tenancy

structure Binary64 where
  bits : UInt64
deriving DecidableEq, Inhabited

namespace Binary64

def ofFloat (x : Float) : Binary64 := ⟨x.toBits⟩

def toFloat (r : Binary64) : Float := Float.ofBits r.bits

def negative (r : Binary64) : Bool := 0x8000000000000000 ≤ r.bits.toNat

def exponentField (r : Binary64) : Nat := r.bits.toNat / 0x10000000000000 % 0x800

def fractionField (r : Binary64) : Nat := r.bits.toNat % 0x10000000000000

inductive Magnitude where
  | nan
  | infinite
  /-- The number `mantissa * 2 ^ exponent`. -/
  | finite (mantissa : Nat) (exponent : Int)

def magnitude (r : Binary64) : Magnitude :=
  if r.exponentField = 2047 then
    if r.fractionField = 0 then .infinite else .nan
  else if r.exponentField = 0 then .finite r.fractionField (-1074)
  else .finite (0x10000000000000 + r.fractionField) (r.exponentField - 1075)

def isNaN (r : Binary64) : Bool := r.exponentField == 2047 && r.fractionField != 0

def withSign (r : Binary64) (n : Nat) : Int := if r.negative then -(n : Int) else n

def natural? (m : Nat) (e : Int) : Option Nat :=
  if 0 ≤ e then some (m * Nat.pow 2 e.toNat)
  else if m % Nat.pow 2 (-e).toNat = 0 then some (m / Nat.pow 2 (-e).toNat)
  else none

def integral? (r : Binary64) : Option Int64 :=
  match r.magnitude with
  | .finite m e =>
    match natural? m e with
    | some n =>
      let i := r.withSign n
      if -0x8000000000000000 ≤ i ∧ i < 0x8000000000000000 then some (Int64.ofInt i) else none
    | none => none
  | _ => none

def neg (r : Binary64) : Binary64 := ⟨r.bits ^^^ 0x8000000000000000⟩

def invalid : Binary64 := ⟨0xfff8000000000000⟩

def quiet (r : Binary64) : Binary64 := ⟨r.bits ||| 0x0008000000000000⟩

/-- An operand that is not a number is passed on, the left one first. -/
def combine (f : Float → Float → Float) (a b : Binary64) : Binary64 :=
  if a.isNaN then a.quiet
  else if b.isNaN then b.quiet
  else
    let x := f a.toFloat b.toFloat
    if x.isNaN then invalid else ofFloat x

def add : Binary64 → Binary64 → Binary64 := combine (· + ·)

def sub : Binary64 → Binary64 → Binary64 := combine (· - ·)

def mul : Binary64 → Binary64 → Binary64 := combine (· * ·)

def div : Binary64 → Binary64 → Binary64 := combine (· / ·)

/-- The place of a real in the order of all reals. The two zeros share theirs. -/
def rank (r : Binary64) : Int := r.withSign (r.bits.toNat % 0x8000000000000000)

def comparable (a b : Binary64) : Bool := !a.isNaN && !b.isNaN

def eq (a b : Binary64) : Bool := comparable a b && a.rank == b.rank

def lt (a b : Binary64) : Bool := comparable a b && a.rank < b.rank

def le (a b : Binary64) : Bool := comparable a b && a.rank ≤ b.rank

/-- Nothing when one of the two is not a number. -/
def compare? (a b : Binary64) : Option Ordering :=
  if a.lt b then some .lt
  else if a.eq b then some .eq
  else if b.lt a then some .gt
  else none

def isZero (r : Binary64) : Bool := r.eq ⟨0⟩

def roundHalfUp (m : Nat) (e : Int) : Nat :=
  if 0 ≤ e then m * Nat.pow 2 e.toNat
  else (2 * m + Nat.pow 2 (-e).toNat) / Nat.pow 2 ((-e).toNat + 1)

def clampInt32 (i : Int) : Int32 := Int32.ofInt (max (-0x80000000) (min i 0x7fffffff))

/-- The nearest multiple of `2 ^ -16` as a count of such units, a half away from zero. Numbers out
of range give the nearest end of it and NaN gives 0. -/
def toFixed (r : Binary64) : Int32 :=
  match r.magnitude with
  | .nan => 0
  | .infinite => clampInt32 (r.withSign 0x80000000)
  | .finite m e => clampInt32 (r.withSign (roundHalfUp m (e + 16)))

end Binary64

end Tenancy
