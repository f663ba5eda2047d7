import Tenancy.Binary64.Decimal
import Tenancy.Binary64.Rounding

/-!
Numbers read from words: integers of 64 bits, and reals in decimal, with or without exponent.
-/

namespace Tenancy.Numeral

def splitSign : List Char → Bool × List Char
  | '-' :: rest => (true, rest)
  | '+' :: rest => (false, rest)
  | cs => (false, cs)

def digitValue (c : Char) : Nat := c.toNat - '0'.toNat

def value (digits : List Char) : Nat :=
  digits.foldl (fun n c => 10 * n + digitValue c) 0

def digits (cs : List Char) : List Char × List Char := cs.span Char.isDigit

def integer? (word : List Char) : Option Int :=
  let (negative, rest) := splitSign word
  if rest.isEmpty || !rest.all Char.isDigit then none
  else if negative then some (-(value rest : Int)) else some (value rest)

def int64? (word : List Char) : Option Int64 :=
  match integer? word with
  | some i =>
    if -0x8000000000000000 ≤ i ∧ i < 0x8000000000000000 then some (Int64.ofInt i) else none
  | none => none

def notANumber : Binary64 := ⟨0x7ff8000000000000⟩

/-- The real nearest to `m * 10 ^ e`. Exponents far out of range are settled before any power is
formed. -/
def nearest (m : Nat) (e : Int) : Binary64 :=
  let place := Binary64.digitCount m - 1 + e
  if m = 0 ∨ place < -400 then ⟨0⟩
  else if 400 < place then .infinity
  else if 0 ≤ e then .ofRatio (m * Nat.pow 10 e.toNat) 1
  else .ofRatio m (Nat.pow 10 (-e).toNat)

def exponent? : List Char → Option Int
  | [] => some 0
  | c :: rest => if c = 'e' ∨ c = 'E' then integer? rest else none

def unsigned? (word : List Char) : Option Binary64 :=
  let (whole, rest) := digits word
  let (fraction, rest) :=
    match rest with
    | '.' :: rest => digits rest
    | rest => ([], rest)
  if whole.isEmpty && fraction.isEmpty then none
  else (exponent? rest).map fun e => nearest (value (whole ++ fraction)) (e - fraction.length)

def real? (word : List Char) : Option Binary64 :=
  let (negative, rest) := splitSign word
  let name := String.ofList (rest.map Char.toLower)
  let magnitude :=
    if name = "inf" ∨ name = "infinity" then some .infinity
    else if name = "nan" then some notANumber
    else unsigned? rest
  if negative then magnitude.map Binary64.neg else magnitude

end Tenancy.Numeral
