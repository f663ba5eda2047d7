import Tenancy.Binary64

/-!
Reals in decimal: the fewest digits that read back as the same real, and how digits are laid out.

A finite real stands for an interval of numbers that round to it. For one digit, two, and so on the
two neighbours of the real on that decimal grid are tried against the interval; the first grid with
a neighbour inside gives the digits, the nearer neighbour if both are inside, the upper on a tie.
-/

namespace Tenancy.Binary64

structure Decimal where
  digits : Nat
  exponent : Int

def digitCount (n : Nat) : Nat := (Nat.toDigits 10 n).length

/-- How often `n` must be multiplied by ten to reach `d`. -/
def tensTo : Nat → Nat → Nat → Nat
  | 0, _, _ => 0
  | fuel + 1, n, d => if d ≤ n then 0 else tensTo fuel (10 * n) d + 1

def leadingPlace (n d : Nat) : Int :=
  if d ≤ n then digitCount (n / d) - 1 else -(tensTo 400 n d)

def powerOfTen (k : Int) : Nat × Nat :=
  if 0 ≤ k then (Nat.pow 10 k.toNat, 1) else (1, Nat.pow 10 (-k).toNat)

/-- The numbers that round to a real, counted in quarters of its last place. The unit is
`unitNum / unitDen`. -/
structure Interval where
  low : Nat
  centre : Nat
  high : Nat
  closed : Bool
  unitNum : Nat
  unitDen : Nat

/-- Below a power of two the neighbouring real is only half as far away. -/
def interval (m : Nat) (e : Int) : Interval :=
  { low := if m = 0x10000000000000 ∧ -1074 < e then 4 * m - 1 else 4 * m - 2
    centre := 4 * m
    high := 4 * m + 2
    closed := m % 2 == 0
    unitNum := if 2 ≤ e then Nat.pow 2 (e - 2).toNat else 1
    unitDen := if 2 ≤ e then 1 else Nat.pow 2 (2 - e).toNat }

def Interval.contains (i : Interval) (n d : Nat) : Bool :=
  let x := n * i.unitDen
  let low := i.low * i.unitNum * d
  let high := i.high * i.unitNum * d
  if i.closed then low ≤ x && x ≤ high else low < x && x < high

def Interval.gridPoint? (i : Interval) (place : Int) (count : Nat) : Option Decimal :=
  let k := place - (count - 1)
  let (tenNum, tenDen) := powerOfTen k
  let n := i.centre * i.unitNum * tenDen
  let d := i.unitDen * tenNum
  let below := n / d
  let inside (q : Nat) := i.contains (q * tenNum) tenDen
  match inside below, inside (below + 1) with
  | true, true => some ⟨if 2 * n < (2 * below + 1) * d then below else below + 1, k⟩
  | true, false => some ⟨below, k⟩
  | false, true => some ⟨below + 1, k⟩
  | false, false => none

def stripZeros : Nat → Decimal → Decimal
  | 0, x => x
  | fuel + 1, x =>
    if x.digits ≠ 0 ∧ x.digits % 10 = 0 then stripZeros fuel ⟨x.digits / 10, x.exponent + 1⟩ else x

/-- The shortest decimal that rounds to `m * 2 ^ e`. -/
def shortest (m : Nat) (e : Int) : Decimal :=
  if m = 0 then ⟨0, 0⟩
  else
    let i := interval m e
    let place := leadingPlace (i.centre * i.unitNum) i.unitDen
    let found := (List.range 17).findSome? fun count => i.gridPoint? place (count + 1)
    stripZeros 20 (found.getD ⟨0, 0⟩)

structure Layout where
  /-- Which powers of ten of the leading digit are written without an exponent. -/
  positional : Int → Bool
  /-- Written after a real without a fraction. -/
  whole : String

def Layout.inValue : Layout := ⟨fun place => -4 ≤ place && place < 16, ".0"⟩

def Layout.inCode : Layout := ⟨fun _ => true, ""⟩

def zeros (n : Nat) : String := String.ofList (List.replicate n '0')

def Layout.decimal (layout : Layout) (x : Decimal) : String :=
  let digits := Nat.toDigits 10 x.digits
  let place : Int := digits.length - 1 + x.exponent
  if layout.positional place then
    if 0 ≤ x.exponent then String.ofList digits ++ zeros x.exponent.toNat ++ layout.whole
    else if 0 ≤ place then
      let (whole, fraction) := digits.splitAt (place.toNat + 1)
      String.ofList whole ++ "." ++ String.ofList fraction
    else "0." ++ zeros (-place - 1).toNat ++ String.ofList digits
  else
    let fraction := digits.drop 1
    let point := if fraction.isEmpty then "" else "." ++ String.ofList fraction
    String.ofList (digits.take 1) ++ point ++ "e" ++ toString place

def write (layout : Layout) (r : Binary64) : String :=
  let sign := if r.negative then "-" else ""
  match r.magnitude with
  | .nan => "NaN"
  | .infinite => sign ++ "inf"
  | .finite m e => sign ++ layout.decimal (shortest m e)

def text (r : Binary64) : String := r.write .inValue

end Tenancy.Binary64
