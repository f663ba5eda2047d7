import Tenancy.Binary64

/-!
The real nearest to a fraction.

The fraction is divided by the power of two that leaves 53 bits before the point, or by the least
power there is, and rounded to a natural number. The words of the positive reals are in the order of
the reals, so a carry out of the 53 bits needs no care.
-/

namespace Tenancy.Binary64

def infinity : Binary64 := ⟨0x7ff0000000000000⟩

def roundHalfEven (n d : Nat) : Nat :=
  let q := n / d
  let twice := 2 * (n % d)
  if twice < d ∨ (twice = d ∧ q % 2 = 0) then q else q + 1

def scaled (n d : Nat) (k : Int) : Nat × Nat :=
  if 0 ≤ k then (n, d * Nat.pow 2 k.toNat) else (n * Nat.pow 2 (-k).toNat, d)

def unitExponent (n d : Nat) : Int :=
  let guess : Int := (n.log2 : Int) - d.log2 - 52
  let (a, b) := scaled n d guess
  max (if a / b < 0x10000000000000 then guess - 1 else guess) (-1074)

def ofRatio (n d : Nat) : Binary64 :=
  if n = 0 then ⟨0⟩
  else
    let k := unitExponent n d
    let (a, b) := scaled n d k
    let word := (k + 1074).toNat * 0x10000000000000 + roundHalfEven a b
    if 0x7ff0000000000000 ≤ word then infinity else ⟨UInt64.ofNat word⟩

def ofFraction (i : Int) (d : Nat) : Binary64 :=
  if i < 0 then (ofRatio i.natAbs d).neg else ofRatio i.natAbs d

def ofInt64 (i : Int64) : Binary64 := ofFraction i.toInt 1

def ofFixed (i : Int32) : Binary64 := ofFraction i.toInt 0x10000

end Tenancy.Binary64
