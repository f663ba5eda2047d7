import Mathlib.Tactic.Ring
import Tenancy.Binary64.Rounding

/-!
Reals and integers.

A real that is a number is told by its sign and the 63 bits below it, save that the two zeros are
one number. So equal reals stand for the same integer or for none, and reals that stand for one
integer are equal. An integer of more than 53 bits is rounded. Rounding keeps the order, though not
strictly, and it keeps every integer that some real stands for, among them all those of 53 bits.
-/

namespace Tenancy.Binary64

variable {a b c : Binary64}

theorem eq_iff : a.eq b = true ↔ a.isNaN = false ∧ b.isNaN = false ∧ a.rank = b.rank := by
  simp [eq, comparable, and_assoc]

theorem eq_refl (number : a.isNaN = false) : a.eq a = true := eq_iff.mpr ⟨number, number, rfl⟩

theorem eq_symm (same : a.eq b = true) : b.eq a = true := by
  obtain ⟨first, second, rank⟩ := eq_iff.mp same
  exact eq_iff.mpr ⟨second, first, rank.symm⟩

theorem eq_trans (first : a.eq b = true) (second : b.eq c = true) : a.eq c = true := by
  obtain ⟨number, -, rank⟩ := eq_iff.mp first
  obtain ⟨-, number', rank'⟩ := eq_iff.mp second
  exact eq_iff.mpr ⟨number, number', rank.trans rank'⟩

def lower (r : Binary64) : Nat := r.bits.toNat % 0x8000000000000000

theorem exponentField_eq (r : Binary64) : r.exponentField = r.lower / 0x10000000000000 := by
  unfold exponentField lower
  omega

theorem fractionField_eq (r : Binary64) : r.fractionField = r.lower % 0x10000000000000 := by
  unfold fractionField lower
  omega

theorem eq_of_lower (same : a.lower = b.lower) (sign : a.negative = b.negative) : a = b := by
  have bits : a.bits.toNat = b.bits.toNat := by
    have boundA := a.bits.toNat_lt
    have boundB := b.bits.toNat_lt
    have sign' := decide_eq_decide.mp sign
    unfold lower at same
    omega
  cases a
  cases b
  exact congrArg mk (UInt64.toNat_inj.mp bits)

theorem eq_of_withSign (same : a.withSign m = b.withSign n) :
    m = n ∧ (m = 0 ∨ a.negative = b.negative) := by
  unfold withSign at same
  cases first : a.negative <;> cases second : b.negative <;>
    simp only [first, second, Bool.false_eq_true, if_true, if_false] at same <;> simp <;> omega

theorem eq_or_zeros (same : a.rank = b.rank) : a = b ∨ a.lower = 0 ∧ b.lower = 0 := by
  have bits : a.withSign a.lower = b.withSign b.lower := same
  obtain ⟨lower, zero | sign⟩ := eq_of_withSign bits
  · exact .inr ⟨zero, lower.symm.trans zero⟩
  · exact .inl (eq_of_lower lower sign)

theorem natural?_zero (e : Int) : natural? 0 e = some 0 := by
  simp [natural?]

theorem integral?_zero (zero : a.lower = 0) : a.integral? = some 0 := by
  have magnitude : a.magnitude = .finite 0 (-1074) := by
    simp [Binary64.magnitude, exponentField_eq, fractionField_eq, zero]
  simp [integral?, magnitude, natural?_zero, withSign]

theorem integral?_congr (same : a.eq b = true) : a.integral? = b.integral? := by
  obtain ⟨-, -, rank⟩ := eq_iff.mp same
  obtain rfl | ⟨zeroA, zeroB⟩ := eq_or_zeros rank
  · rfl
  · rw [integral?_zero zeroA, integral?_zero zeroB]

/-- The multiple of `2 ^ -1074` that a finite real is, by the bits below its sign. -/
def units (lower : Nat) : Nat :=
  if lower < 0x10000000000000 then lower
  else (0x10000000000000 + lower % 0x10000000000000) * 2 ^ (lower / 0x10000000000000 - 1)

theorem units_lt_of_lt (less : x < y) : units x < units y := by
  unfold units
  split
  · rename_i small
    split
    · exact less
    · -- The first real with a leading bit of its own is above all those without.
      have power : 0 < 2 ^ (y / 0x10000000000000 - 1) := Nat.two_pow_pos _
      have above := Nat.mul_le_mul (Nat.le_add_right 0x10000000000000 (y % 0x10000000000000)) power
      omega
  · split
    · omega
    · rename_i largeX largeY
      obtain same | further : x / 0x10000000000000 = y / 0x10000000000000 ∨
          x / 0x10000000000000 < y / 0x10000000000000 := by omega
      · rw [same]
        exact Nat.mul_lt_mul_of_pos_right (by omega) (Nat.two_pow_pos _)
      · calc (0x10000000000000 + x % 0x10000000000000) * 2 ^ (x / 0x10000000000000 - 1)
          _ < (2 * 0x10000000000000) * 2 ^ (x / 0x10000000000000 - 1) :=
            Nat.mul_lt_mul_of_pos_right (by omega) (Nat.two_pow_pos _)
          _ = 0x10000000000000 * 2 ^ (x / 0x10000000000000 - 1 + 1) := by ring
          _ ≤ 0x10000000000000 * 2 ^ (y / 0x10000000000000 - 1) :=
            Nat.mul_le_mul_left _ (Nat.pow_le_pow_right (by omega) (by omega))
          _ ≤ (0x10000000000000 + y % 0x10000000000000) * 2 ^ (y / 0x10000000000000 - 1) :=
            Nat.mul_le_mul_right _ (by omega)

theorem units_injective (same : units x = units y) : x = y := by
  obtain less | equal | greater := Nat.lt_trichotomy x y
  · exact absurd same (units_lt_of_lt less).ne
  · exact equal
  · exact absurd same (units_lt_of_lt greater).ne'

theorem mul_pow_of_natural? (least : -1074 ≤ e)
    (natural : natural? m e = some n) : m * 2 ^ (e + 1074).toNat = n * 2 ^ 1074 := by
  unfold natural? at natural
  split at natural
  · rename_i positive
    cases natural
    have exponent : (e + 1074).toNat = e.toNat + 1074 := by omega
    rw [exponent, pow_add, ← mul_assoc]
    rfl
  · split at natural
    · rename_i divides
      cases natural
      have exponent : 1074 = (-e).toNat + (e + 1074).toNat := by omega
      have whole : m / 2 ^ (-e).toNat * 2 ^ (-e).toNat = m :=
        Nat.div_mul_cancel (Nat.dvd_of_mod_eq_zero divides)
      calc m * 2 ^ (e + 1074).toNat
        _ = m / 2 ^ (-e).toNat * 2 ^ (-e).toNat * 2 ^ (e + 1074).toNat := by rw [whole]
        _ = m / 2 ^ (-e).toNat * 2 ^ ((-e).toNat + (e + 1074).toNat) := by rw [pow_add, mul_assoc]
        _ = m / Nat.pow 2 (-e).toNat * 2 ^ 1074 := by rw [← exponent]; rfl
    · cases natural

theorem units_of_magnitude (finite : a.magnitude = .finite m e) :
    a.isNaN = false ∧ -1074 ≤ e ∧ units a.lower = m * 2 ^ (e + 1074).toNat := by
  have bound : a.lower < 0x8000000000000000 := Nat.mod_lt _ (by decide)
  unfold magnitude at finite
  split at finite
  · split at finite <;> cases finite
  · rename_i notLast
    have number : a.isNaN = false := by simp [isNaN, notLast]
    split at finite
    · rename_i small
      cases finite
      rw [exponentField_eq] at small
      have subnormal : a.lower < 0x10000000000000 := by omega
      rw [units, if_pos subnormal, fractionField_eq, Nat.mod_eq_of_lt subnormal]
      exact ⟨number, by omega, by simp⟩
    · rename_i large
      cases finite
      rw [exponentField_eq] at large
      rw [units, if_neg (by omega), exponentField_eq, fractionField_eq]
      refine ⟨number, by omega, ?_⟩
      congr 2
      omega

theorem units_of_integral? (integral : a.integral? = some i) :
    a.isNaN = false ∧ ∃ n, units a.lower = n * 2 ^ 1074 ∧ i.toInt = a.withSign n := by
  unfold integral? at integral
  cases finite : a.magnitude with
  | nan => simp [finite] at integral
  | infinite => simp [finite] at integral
  | finite m e =>
    obtain ⟨number, least, scaled⟩ := units_of_magnitude finite
    cases natural : natural? m e with
    | none => simp [finite, natural] at integral
    | some n =>
      simp only [finite, natural] at integral
      split at integral
      · rename_i range
        cases integral
        refine ⟨number, n, scaled.trans (mul_pow_of_natural? least natural), ?_⟩
        exact Int64.toInt_ofInt_of_le range.1 range.2
      · cases integral

theorem eq_of_integral? (first : a.integral? = some i) (second : b.integral? = some i) :
    a.eq b = true := by
  obtain ⟨numberA, n, unitsA, valueA⟩ := units_of_integral? first
  obtain ⟨numberB, k, unitsB, valueB⟩ := units_of_integral? second
  obtain ⟨rfl, zero | sign⟩ := eq_of_withSign (valueA.symm.trans valueB)
  all_goals
    have lower : a.lower = b.lower := units_injective (unitsA.trans unitsB.symm)
    refine eq_iff.mpr ⟨numberA, numberB, ?_⟩
    change a.withSign a.lower = b.withSign b.lower
  · rw [zero, Nat.zero_mul] at unitsA
    have none : a.lower = 0 := units_injective unitsA
    simp [withSign, ← lower, none]
  · rw [withSign, withSign, lower, sign]

/-! ### Rounding -/

variable {m n d k : Nat} {r : Binary64} {i j : Int64}

theorem roundHalfEven_bounds (n d : Nat) : n / d ≤ roundHalfEven n d ∧ roundHalfEven n d ≤ n / d + 1 := by
  unfold roundHalfEven
  dsimp only
  split <;> omega

theorem roundHalfEven_mono (le : m ≤ n) : roundHalfEven m d ≤ roundHalfEven n d := by
  obtain less | same := Nat.lt_or_eq_of_le (Nat.div_le_div_right (c := d) le)
  · have above := (roundHalfEven_bounds m d).2
    have below := (roundHalfEven_bounds n d).1
    omega
  · have rests : m % d ≤ n % d := by
      have first := Nat.div_add_mod m d
      have second := Nat.div_add_mod n d
      rw [same] at first
      omega
    unfold roundHalfEven
    dsimp only
    rw [same]
    split <;> split <;> omega

theorem roundHalfEven_mul (n : Nat) (pos : 0 < d) : roundHalfEven (n * d) d = n := by
  simp [roundHalfEven, Nat.mul_div_cancel n pos, pos]

def significand (n : Nat) : Nat :=
  if n.log2 < 52 then n * 2 ^ (52 - n.log2) else roundHalfEven n (2 ^ (n.log2 - 52))

theorem quotient_bounds (pos : n ≠ 0) (large : 52 ≤ n.log2) :
    0x10000000000000 ≤ n / 2 ^ (n.log2 - 52) ∧ n / 2 ^ (n.log2 - 52) < 0x20000000000000 := by
  have power : 0 < 2 ^ (n.log2 - 52) := Nat.two_pow_pos _
  have least := Nat.log2_self_le pos
  have most := Nat.lt_log2_self (n := n)
  have split : 2 ^ (52 + (n.log2 - 52)) = 0x10000000000000 * 2 ^ (n.log2 - 52) :=
    pow_add 2 52 (n.log2 - 52)
  rw [Nat.add_sub_cancel' large] at split
  rw [pow_succ] at most
  rw [split] at least most
  exact ⟨(Nat.le_div_iff_mul_le power).mpr least, (Nat.div_lt_iff_lt_mul power).mpr (by omega)⟩

theorem multiple_bounds (pos : n ≠ 0) (small : n.log2 < 52) :
    0x10000000000000 ≤ n * 2 ^ (52 - n.log2) ∧ n * 2 ^ (52 - n.log2) < 0x20000000000000 := by
  have power : 0 < 2 ^ (52 - n.log2) := Nat.two_pow_pos _
  have scaled : 2 ^ n.log2 * 2 ^ (52 - n.log2) = 0x10000000000000 := by
    rw [← pow_add, Nat.add_sub_cancel' small.le]
    rfl
  have least := Nat.mul_le_mul_right (2 ^ (52 - n.log2)) (Nat.log2_self_le pos)
  have most := Nat.mul_lt_mul_of_pos_right (Nat.lt_log2_self (n := n)) power
  rw [pow_succ, mul_right_comm] at most
  omega

theorem significand_bounds (pos : n ≠ 0) :
    0x10000000000000 ≤ significand n ∧ significand n ≤ 0x20000000000000 := by
  unfold significand
  split
  · rename_i small
    have bounds := multiple_bounds pos small
    omega
  · rename_i large
    have bounds := quotient_bounds pos (by omega)
    have rounded := roundHalfEven_bounds n (2 ^ (n.log2 - 52))
    omega

def wordOf (n : Nat) : Nat :=
  if n = 0 then 0 else (n.log2 + 1022) * 0x10000000000000 + significand n

theorem wordOf_of_pos (pos : n ≠ 0) :
    wordOf n = (n.log2 + 1022) * 0x10000000000000 + significand n := if_neg pos

theorem scaled_of_small (small : n.log2 < 52) :
    scaled n 1 (n.log2 - 52) = (n * 2 ^ (52 - n.log2), 1) := by
  have exponent : (-((n.log2 : Int) - 52)).toNat = 52 - n.log2 := by omega
  rw [scaled, if_neg (by omega), exponent]
  rfl

theorem scaled_of_large (large : 52 ≤ n.log2) :
    scaled n 1 (n.log2 - 52) = (n, 2 ^ (n.log2 - 52)) := by
  have exponent : ((n.log2 : Int) - 52).toNat = n.log2 - 52 := by omega
  rw [scaled, if_pos (by omega), exponent, one_mul]
  rfl

theorem unitExponent_one (pos : n ≠ 0) : unitExponent n 1 = n.log2 - 52 := by
  have guess : (n.log2 : Int) - (Nat.log2 1 : Nat) - 52 = n.log2 - 52 := by
    have one : Nat.log2 1 = 0 := by decide
    omega
  unfold unitExponent
  dsimp only
  rw [guess]
  by_cases small : n.log2 < 52
  · have bounds := (multiple_bounds pos small).1
    rw [scaled_of_small small]
    rw [Nat.div_one, if_neg (by omega)]
    omega
  · have bounds := (quotient_bounds pos (by omega)).1
    rw [scaled_of_large (by omega)]
    dsimp only
    rw [if_neg (by omega)]
    omega

theorem roundHalfEven_scaled (n : Nat) :
    roundHalfEven (scaled n 1 (n.log2 - 52)).1 (scaled n 1 (n.log2 - 52)).2 = significand n := by
  unfold significand
  split
  · rename_i small
    rw [scaled_of_small small]
    exact (congrArg (roundHalfEven · 1) (Nat.mul_one _).symm).trans (roundHalfEven_mul _ Nat.one_pos)
  · rename_i large
    rw [scaled_of_large (by omega)]

theorem wordOf_lt (bound : n < 2 ^ 64) : wordOf n < 0x7ff0000000000000 := by
  by_cases zero : n = 0
  · rw [zero]
    decide
  · have leading : n.log2 < 64 := (Nat.log2_lt zero).mpr bound
    have bounds := significand_bounds zero
    rw [wordOf_of_pos zero]
    omega

theorem ofRatio_of_pos (pos : n ≠ 0) (finite : wordOf n < 0x7ff0000000000000) :
    ofRatio n 1 = ⟨UInt64.ofNat (wordOf n)⟩ := by
  have exponent : ((n.log2 : Int) - 52 + 1074).toNat = n.log2 + 1022 := by omega
  rw [ofRatio, if_neg pos]
  dsimp only
  rw [unitExponent_one pos, exponent, roundHalfEven_scaled, ← wordOf_of_pos pos,
    if_neg (Nat.not_le_of_lt finite)]

theorem bits_ofRatio (bound : n < 2 ^ 64) : (ofRatio n 1).bits.toNat = wordOf n := by
  by_cases zero : n = 0
  · rw [ofRatio, if_pos zero, wordOf, if_pos zero]
    rfl
  · have finite := wordOf_lt bound
    rw [ofRatio_of_pos zero finite]
    exact UInt64.toNat_ofNat_of_lt' (finite.trans (by decide))

theorem significand_mono (le : m ≤ n) (same : m.log2 = n.log2) : significand m ≤ significand n := by
  unfold significand
  rw [same]
  split
  · exact Nat.mul_le_mul_right _ le
  · exact roundHalfEven_mono le

theorem wordOf_mono (le : m ≤ n) : wordOf m ≤ wordOf n := by
  by_cases zero : m = 0
  · rw [zero]
    exact Nat.zero_le _
  · have pos : n ≠ 0 := by omega
    rw [wordOf_of_pos zero, wordOf_of_pos pos]
    obtain less | same := Nat.lt_or_eq_of_le
        ((Nat.le_log2 pos).mpr ((Nat.log2_self_le zero).trans le))
    · -- The carry out of one power of two leads no further than to the next one.
      have bounds := significand_bounds zero
      have bounds' := significand_bounds pos
      omega
    · have rounded := significand_mono le same
      rw [same]
      omega

theorem xor_two_pow (below : n < 2 ^ k) : n ^^^ 2 ^ k = 2 ^ k + n := by
  refine Nat.eq_of_testBit_eq fun i => ?_
  rw [Nat.testBit_xor, Nat.testBit_two_pow]
  obtain less | rfl | greater := Nat.lt_trichotomy i k
  · rw [Nat.testBit_two_pow_add_gt less]
    simp [less.ne']
  · rw [Nat.testBit_two_pow_add_eq]
    simp
  · have power : 2 ^ (k + 1) ≤ 2 ^ i := Nat.pow_le_pow_right (by decide) greater
    rw [Nat.pow_succ] at power
    rw [Nat.testBit_lt_two_pow (by omega), Nat.testBit_lt_two_pow (by omega)]
    simp [greater.ne]

def size (i : Int64) : Nat := i.toInt.natAbs

theorem size_lt (i : Int64) : size i < 2 ^ 64 := by
  have least := i.le_toInt
  have most := i.toInt_lt
  unfold size
  omega

theorem size_of_withSign (value : i.toInt = r.withSign n) : size i = n := by
  unfold size
  rw [value, withSign]
  split <;> omega

theorem bits_ofInt64 (i : Int64) : (ofInt64 i).bits.toNat =
    if i.toInt < 0 then 0x8000000000000000 + wordOf (size i) else wordOf (size i) := by
  have bits : (ofRatio i.toInt.natAbs 1).bits.toNat = wordOf (size i) := bits_ofRatio (size_lt i)
  have finite := wordOf_lt (size_lt i)
  unfold ofInt64 ofFraction
  split
  · rw [neg, UInt64.toNat_xor, ← bits]
    exact xor_two_pow (k := 63) (by omega)
  · exact bits

theorem lower_ofInt64 (i : Int64) : (ofInt64 i).lower = wordOf (size i) := by
  have finite := wordOf_lt (size_lt i)
  unfold lower
  rw [bits_ofInt64]
  split <;> omega

theorem negative_ofInt64 (i : Int64) : (ofInt64 i).negative = decide (i.toInt < 0) := by
  have finite := wordOf_lt (size_lt i)
  unfold negative
  rw [bits_ofInt64, decide_eq_decide]
  split <;> omega

theorem isNaN_ofInt64 (i : Int64) : (ofInt64 i).isNaN = false := by
  have finite := wordOf_lt (size_lt i)
  have exponent : (ofInt64 i).exponentField ≠ 2047 := by
    rw [exponentField_eq, lower_ofInt64]
    omega
  simp [isNaN, exponent]

theorem rank_ofInt64 (i : Int64) : (ofInt64 i).rank =
    if i.toInt < 0 then -(wordOf (size i) : Int) else wordOf (size i) := by
  change (ofInt64 i).withSign (ofInt64 i).lower = _
  rw [withSign, negative_ofInt64, lower_ofInt64]
  simp only [decide_eq_true_eq]

theorem rank_ofInt64_mono (le : i ≤ j) : (ofInt64 i).rank ≤ (ofInt64 j).rank := by
  have less : i.toInt ≤ j.toInt := Int64.le_iff_toInt_le.mp le
  rw [rank_ofInt64, rank_ofInt64]
  split
  · split
    · have words : wordOf (size j) ≤ wordOf (size i) := wordOf_mono (by unfold size; omega)
      omega
    · omega
  · rw [if_neg (by omega)]
    have words : wordOf (size i) ≤ wordOf (size j) := wordOf_mono (by unfold size; omega)
    omega

theorem cancel_two_pow (same : m * 2 ^ k = n * 2 ^ k) : m = n :=
  Nat.eq_of_mul_eq_mul_right (Nat.two_pow_pos k) same

/-- The number is some real: it has no more than 53 bits before it ends in zeros. -/
def Exact (n : Nat) : Prop := 2 ^ (n.log2 - 52) ∣ n

theorem exact_of_mul_pow (short : m < 2 ^ 53) : Exact (m * 2 ^ k) := by
  by_cases zero : m * 2 ^ k = 0
  · rw [zero]
    exact Nat.dvd_zero _
  · have long : m * 2 ^ k < 2 ^ (53 + k) := by
      rw [pow_add]
      exact Nat.mul_lt_mul_of_pos_right short (Nat.two_pow_pos k)
    have bits := (Nat.log2_lt zero).mpr long
    exact (Nat.pow_dvd_pow 2 (by omega)).trans (Nat.dvd_mul_left _ _)

theorem exact_of_le (small : n ≤ 2 ^ 53) : Exact n := by
  obtain less | same := Nat.lt_or_eq_of_le small
  · simpa using exact_of_mul_pow (k := 0) less
  · rw [same]
    exact exact_of_mul_pow (m := 1) (k := 53) (by decide)

theorem significand_of_exact (pos : n ≠ 0) (exact : Exact n) :
    significand n < 0x20000000000000 ∧ significand n * 2 ^ (n.log2 + 1022) = n * 2 ^ 1074 := by
  unfold significand
  split
  · rename_i small
    have exponent : 52 - n.log2 + (n.log2 + 1022) = 1074 := by omega
    refine ⟨(multiple_bounds pos small).2, ?_⟩
    rw [mul_assoc, ← pow_add, exponent]
  · rename_i large
    obtain ⟨q, divided⟩ := exact
    have power : 0 < 2 ^ (n.log2 - 52) := Nat.two_pow_pos _
    have bounds := quotient_bounds pos (by omega)
    have quotient : n / 2 ^ (n.log2 - 52) = q := by
      conv_lhs => arg 1; rw [divided]
      exact Nat.mul_div_cancel_left q power
    have rounded : roundHalfEven n (2 ^ (n.log2 - 52)) = q := by
      conv_lhs => arg 1; rw [divided, mul_comm]
      exact roundHalfEven_mul q power
    rw [rounded]
    refine ⟨by omega, ?_⟩
    have exponent : n.log2 + 1022 = n.log2 - 52 + 1074 := by omega
    rw [exponent, pow_add, ← mul_assoc, mul_comm q, ← divided]

theorem units_wordOf (exact : Exact n) : units (wordOf n) = n * 2 ^ 1074 := by
  by_cases zero : n = 0
  · rw [zero, Nat.zero_mul]
    rfl
  · have bounds := significand_bounds zero
    obtain ⟨short, scaled⟩ := significand_of_exact zero exact
    have exponent : wordOf n / 0x10000000000000 = n.log2 + 1023 := by
      rw [wordOf_of_pos zero]
      omega
    have fraction : 0x10000000000000 + wordOf n % 0x10000000000000 = significand n := by
      rw [wordOf_of_pos zero]
      omega
    rw [units, if_neg (by omega), fraction, exponent]
    exact scaled

theorem exact_of_units {lower : Nat} (scaled : units lower = n * 2 ^ 1074) : Exact n := by
  -- The real is `short` at some power of two, and the number at `2 ^ 1074`.
  obtain ⟨short, k, bound, same⟩ : ∃ short k, short < 2 ^ 53 ∧ short * 2 ^ k = n * 2 ^ 1074 := by
    rw [← scaled, units]
    split
    · exact ⟨lower, 0, by omega, by simp⟩
    · exact ⟨_, _, by omega, rfl⟩
  by_cases large : 1074 ≤ k
  · have split : k = k - 1074 + 1074 := by omega
    rw [split, pow_add, ← mul_assoc] at same
    rw [← cancel_two_pow same]
    exact exact_of_mul_pow bound
  · have split : 1074 = 1074 - k + k := by omega
    rw [split, pow_add, ← mul_assoc] at same
    have whole := cancel_two_pow same
    have less : n ≤ short := whole ▸ Nat.le_mul_of_pos_right n (Nat.two_pow_pos _)
    exact exact_of_le (by omega)

theorem natural?_of_mul_pow (least : -1074 ≤ e)
    (scaled : m * 2 ^ (e + 1074).toNat = n * 2 ^ 1074) : natural? m e = some n := by
  unfold natural?
  split
  · have exponent : (e + 1074).toNat = e.toNat + 1074 := by omega
    rw [exponent, pow_add, ← mul_assoc] at scaled
    exact congrArg some (cancel_two_pow scaled)
  · have exponent : 2 ^ 1074 = 2 ^ (-e).toNat * 2 ^ (e + 1074).toNat := by
      rw [← pow_add]
      congr 1
      omega
    rw [exponent, ← mul_assoc] at scaled
    have whole := cancel_two_pow scaled
    have power : 0 < Nat.pow 2 (-e).toNat := Nat.two_pow_pos _
    rw [if_pos (whole ▸ Nat.mul_mod_left n _), whole]
    exact congrArg some (Nat.mul_div_cancel n power)

theorem integral?_of_units (finite : r.lower < 0x7ff0000000000000)
    (scaled : units r.lower = n * 2 ^ 1074) (value : i.toInt = r.withSign n) :
    r.integral? = some i := by
  have exponent : r.exponentField ≠ 2047 := by
    rw [exponentField_eq]
    omega
  obtain ⟨m, e, magnitude⟩ : ∃ m e, r.magnitude = .finite m e := by
    unfold Binary64.magnitude
    rw [if_neg exponent]
    split <;> exact ⟨_, _, rfl⟩
  obtain ⟨-, least, mantissa⟩ := units_of_magnitude magnitude
  have natural := natural?_of_mul_pow least (mantissa.symm.trans scaled)
  have range := And.intro i.le_toInt i.toInt_lt
  simp only [integral?, magnitude, natural, ← value]
  rw [if_pos (by simpa using range), Int64.ofInt_toInt]

theorem wordOf_eq_zero_iff : wordOf n = 0 ↔ n = 0 := by
  constructor
  · intro zero
    by_contra pos
    have bounds := significand_bounds pos
    rw [wordOf_of_pos pos] at zero
    omega
  · rintro rfl
    rfl

theorem eq_ofInt64_of_units (number : r.isNaN = false) (scaled : units r.lower = n * 2 ^ 1074)
    (value : i.toInt = r.withSign n) : (ofInt64 i).eq r = true := by
  have same := size_of_withSign value
  have lower : wordOf n = r.lower :=
    units_injective ((units_wordOf (exact_of_units scaled)).trans scaled.symm)
  refine eq_iff.mpr ⟨isNaN_ofInt64 i, number, ?_⟩
  change _ = r.withSign r.lower
  rw [rank_ofInt64, same, ← lower, value]
  by_cases zero : n = 0
  · simp [wordOf_eq_zero_iff.mpr zero, withSign]
  · unfold withSign
    cases r.negative with
    | false => simp
    | true => simp [Nat.pos_of_ne_zero zero]

theorem integral?_eq_some_iff :
    r.integral? = some i ↔ (ofInt64 i).eq r = true ∧ Exact (size i) := by
  constructor
  · intro integral
    obtain ⟨number, n, scaled, value⟩ := units_of_integral? integral
    exact ⟨eq_ofInt64_of_units number scaled value, size_of_withSign value ▸ exact_of_units scaled⟩
  · rintro ⟨equal, exact⟩
    obtain ⟨-, -, rank⟩ := eq_iff.mp equal
    have signs : (ofInt64 i).withSign (ofInt64 i).lower = r.withSign r.lower := rank
    rw [lower_ofInt64] at signs
    obtain ⟨lower, zero | sign⟩ := eq_of_withSign signs
    · have none : i.toInt = 0 := Int.natAbs_eq_zero.mp (wordOf_eq_zero_iff.mp zero)
      rw [integral?_zero (lower.symm.trans zero), ← Int64.toInt_inj.mp (none.trans Int64.toInt_zero.symm)]
    · refine integral?_of_units (lower ▸ wordOf_lt (size_lt i)) (lower ▸ units_wordOf exact) ?_
      rw [withSign, ← sign, negative_ofInt64]
      unfold size
      simp only [decide_eq_true_eq]
      split <;> omega

end Tenancy.Binary64
