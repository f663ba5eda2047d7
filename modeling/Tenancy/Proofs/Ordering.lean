import Tenancy.Operator
import Tenancy.Proofs.Binary64

/-!
The order of numbers.

Two integers are compared as they are, and two numbers of which one is a real are compared as reals.
Equality rounds nothing. So an integer that is rounded is neither less than the real that it is
rounded to, nor equal to it, nor greater, and yet both at most and at least that real. All other
pairs of numbers are in one of the three relations and no other, and less-than is transitive in any
case.
-/

namespace Tenancy

open Binary64

namespace Value

def IsNumber : Value → Prop
  | .integer _ => True
  | .real r => r.isNaN = false
  | _ => False

/-- The place of a number among the reals, to one of which an integer is rounded. -/
def rank : Value → Int
  | .integer i => (ofInt64 i).rank
  | .real r => r.rank
  | _ => 0

def order : Value → Value → Ordering
  | .integer i, .integer j => compare i j
  | a, b => compare a.rank b.rank

variable {a b c : Value}

theorem order_cases (a b : Value) :
    (∃ i j, a = .integer i ∧ b = .integer j ∧ a.order b = compare i j) ∨
    (∀ i j, a = .integer i → b ≠ .integer j) ∧ a.order b = compare a.rank b.rank := by
  cases a <;> cases b <;> first | exact .inl ⟨_, _, rfl, rfl, rfl⟩ | exact .inr ⟨by simp, rfl⟩

theorem rank_le_of_order (less : a.order b = .lt) : a.rank ≤ b.rank := by
  obtain ⟨i, j, rfl, rfl, order⟩ | ⟨-, order⟩ := order_cases a b
  · exact rank_ofInt64_mono (Int64.le_of_lt (Std.compare_eq_lt.mp (order.symm.trans less)))
  · exact Int.le_of_lt (Std.compare_eq_lt.mp (order.symm.trans less))

theorem order_of_rank_lt (less : a.rank < b.rank) : a.order b = .lt := by
  obtain ⟨i, j, rfl, rfl, order⟩ | ⟨-, order⟩ := order_cases a b
  · rw [order, Std.compare_eq_lt]
    by_contra notLess
    exact Int.not_le.mpr less (rank_ofInt64_mono (Int64.not_lt.mp notLess))
  · rw [order, Std.compare_eq_lt]
    exact less

/-- What is less than a number that is less than a third is less than the third. Where one of them is
a real, one of the two steps is a step between ranks. -/
theorem order_trans (first : a.order b = .lt) (second : b.order c = .lt) : a.order c = .lt := by
  have low := rank_le_of_order first
  have high := rank_le_of_order second
  obtain ⟨i, j, rfl, rfl, order⟩ | ⟨-, order⟩ := order_cases a b
  · obtain ⟨_, k, same, rfl, order'⟩ | ⟨-, order'⟩ := order_cases (.integer j) c
    · cases same
      have less := Std.compare_eq_lt.mp (order.symm.trans first)
      have less' := Std.compare_eq_lt.mp (order'.symm.trans second)
      exact Std.compare_eq_lt.mpr (Int64.lt_trans less less')
    · have less := Std.compare_eq_lt.mp (order'.symm.trans second)
      exact order_of_rank_lt (Int.lt_of_le_of_lt low less)
  · have less := Std.compare_eq_lt.mp (order.symm.trans first)
    exact order_of_rank_lt (Int.lt_of_lt_of_le less high)

end Value

namespace Operator

variable {h : Heap} {a b c : Value} {i : Int64} {r : Binary64}

def Says (h : Heap) (c : Comparison) (a b : Value) : Prop := compare h c a b = .ok (.integer 1)

def SaysEqual (h : Heap) (a b : Value) : Prop := equal h a b = .integer 1

instance (h : Heap) (c : Comparison) (a b : Value) : Decidable (Says h c a b) :=
  inferInstanceAs (Decidable (_ = _))

instance (h : Heap) (a b : Value) : Decidable (SaysEqual h a b) :=
  inferInstanceAs (Decidable (_ = _))

theorem compare?_of_numbers {x y : Binary64} (first : x.isNaN = false) (second : y.isNaN = false) :
    x.compare? y = some (Ord.compare x.rank y.rank) := by
  simp only [compare?, lt, eq, comparable, first, second,
    Bool.not_false, Bool.and_self, Bool.true_and, decide_eq_true_eq, beq_iff_eq]
  split
  · rename_i less
    rw [Std.compare_eq_lt.mpr less]
  · split
    · rename_i same
      rw [same, Std.ReflOrd.compare_self]
    · have greater : y.rank < x.rank := by omega
      rw [if_pos greater, Std.compare_eq_gt.mpr greater]

theorem compare_numbers (h : Heap) (c : Comparison) (first : a.IsNumber) (second : b.IsNumber) :
    compare h c a b = .ok (.ofBool (c.holds (a.order b))) := by
  cases a <;> cases b <;> try exact first.elim
  all_goals try exact second.elim
  case integer.integer => rfl
  all_goals
    simp only [compare, reals?, Value.real?]
    rw [compare?_of_numbers]
    · rfl
    · first | exact first | exact isNaN_ofInt64 _
    · first | exact second | exact isNaN_ofInt64 _

theorem ofBool_eq_one_iff : Value.ofBool p = .integer 1 ↔ p = true := by
  cases p <;> simp [Value.ofBool]

theorem says_iff {c : Comparison} (first : a.IsNumber) (second : b.IsNumber) :
    Says h c a b ↔ c.holds (a.order b) = true := by
  rw [Says, compare_numbers h c first second, Except.ok.injEq, ofBool_eq_one_iff]

/-- The integer is rounded to the real, which does not stand for it. -/
def Blurs (i : Int64) (r : Binary64) : Prop :=
  (ofInt64 i).eq r = true ∧ r.integral? ≠ some i

/-- One of the numbers is an integer that is rounded to the other. -/
inductive Blurred : Value → Value → Prop where
  | left {i : Int64} {r : Binary64} (blurs : Blurs i r) : Blurred (.integer i) (.real r)
  | right {i : Int64} {r : Binary64} (blurs : Blurs i r) : Blurred (.real r) (.integer i)

theorem Blurs.large (blurs : Blurs i r) : 2 ^ 53 < i.toInt.natAbs := by
  by_contra small
  exact blurs.2 (integral?_eq_some_iff.mpr ⟨blurs.1, exact_of_le (Nat.le_of_not_lt small)⟩)

theorem exists_blurs_iff : (∃ r, Blurs i r) ↔ ¬ Binary64.Exact (size i) := by
  have itself : (ofInt64 i).eq (ofInt64 i) = true :=
    eq_refl (isNaN_ofInt64 i)
  constructor
  · rintro ⟨r, rounded, differs⟩ exact
    exact differs (integral?_eq_some_iff.mpr ⟨rounded, exact⟩)
  · intro inexact
    refine ⟨ofInt64 i, itself, fun integral => ?_⟩
    exact inexact (integral?_eq_some_iff.mp integral).2

theorem Blurred.symm (blurred : Blurred a b) : Blurred b a := by
  cases blurred with
  | left blurs => exact .right blurs
  | right blurs => exact .left blurs

theorem rank_ofInt64_eq_iff (number : r.isNaN = false) :
    (ofInt64 i).rank = r.rank ↔ r.integral? = some i ∨ Blurs i r := by
  have equal : (ofInt64 i).eq r = true ↔ (ofInt64 i).rank = r.rank := by
    simp [eq_iff, isNaN_ofInt64, number]
  rw [← equal]
  constructor
  · intro same
    by_cases integral : r.integral? = some i
    · exact .inl integral
    · exact .inr ⟨same, integral⟩
  · rintro (integral | blurs)
    · exact (integral?_eq_some_iff.mp integral).1
    · exact blurs.1

theorem blurred_integer_real : Blurred (.integer i) (.real r) ↔ Blurs i r := by
  refine ⟨fun blurred => ?_, .left⟩
  cases blurred with
  | left blurs => exact blurs

theorem not_blurred_of_type (same : a.type = b.type) : ¬ Blurred a b := by
  intro blurred
  cases blurred with
  | left | right => simp [Value.type] at same

theorem order_eq_iff (h : Heap) (first : a.IsNumber) (second : b.IsNumber) :
    a.order b = .eq ↔ h.equals a b = true ∨ Blurred a b := by
  cases a <;> cases b <;> try exact first.elim
  all_goals try exact second.elim
  case integer.integer i j =>
    have blurred : ¬ Blurred (.integer i) (.integer j) := not_blurred_of_type rfl
    simp [Value.order, Heap.equals, blurred]
  case real.real x y =>
    have blurred : ¬ Blurred (.real x) (.real y) := not_blurred_of_type rfl
    have numbers : x.isNaN = false ∧ y.isNaN = false := ⟨first, second⟩
    simp [Value.order, Value.rank, Heap.equals, eq_iff, numbers, blurred]
  case integer.real i r =>
    have same := rank_ofInt64_eq_iff (i := i) second
    simp [Value.order, Value.rank, Heap.equals, same, blurred_integer_real]
  case real.integer r i =>
    have same := rank_ofInt64_eq_iff (i := i) first
    have blurred : Blurred (.real r) (.integer i) ↔ Blurs i r :=
      ⟨fun blurred => blurred_integer_real.mp blurred.symm, .right⟩
    simp [Value.order, Value.rank, Heap.equals, eq_comm (a := r.rank), same, blurred]

theorem Blurred.not_equals (blurred : Blurred a b) : h.equals a b = false := by
  cases blurred with
  | left blurs | right blurs => simpa [Heap.equals] using blurs.2

def OneOf (p q r : Prop) : Prop := p ∧ ¬ q ∧ ¬ r ∨ ¬ p ∧ q ∧ ¬ r ∨ ¬ p ∧ ¬ q ∧ r

/-- How the operators relate two numbers. -/
structure Related (h : Heap) (a b : Value) : Prop where
  answered : ∀ c, compare h c a b = .ok (.integer 0) ∨ compare h c a b = .ok (.integer 1)
  one : ¬ Blurred a b → OneOf (Says h .lt a b) (SaysEqual h a b) (Says h .gt a b)
  none : Blurred a b → ¬ Says h .lt a b ∧ ¬ SaysEqual h a b ∧ ¬ Says h .gt a b
  atMost : Says h .le a b ↔ Says h .lt a b ∨ SaysEqual h a b ∨ Blurred a b
  atLeast : Says h .ge a b ↔ Says h .gt a b ∨ SaysEqual h a b ∨ Blurred a b

theorem related (h : Heap) (first : a.IsNumber) (second : b.IsNumber) : Related h a b := by
  have equal := order_eq_iff h first second
  refine ⟨fun c => ?_, fun clear => ?_, fun blurred => ?_, ?_, ?_⟩
  · rw [compare_numbers h c first second]
    cases c.holds (a.order b) <;> simp [Value.ofBool]
  all_goals simp only [says_iff first second, SaysEqual, Operator.equal, ofBool_eq_one_iff, OneOf,
    Comparison.holds]
  · rw [or_iff_left clear] at equal
    rw [← equal]
    cases a.order b <;> simp
  · simp [equal.mpr (.inr blurred), blurred.not_equals]
  · rw [← equal]
    cases a.order b <;> simp
  · rw [← equal]
    cases a.order b <;> simp

/-- Two numbers are in one of the three relations, unless one of them is an integer of more than 53
bits and the other the real that it is rounded to; then they are in none, and yet each is at most the
other. Less-than is transitive. -/
theorem numbers_ordered_up_to_rounding (h : Heap) (first : a.IsNumber) (second : b.IsNumber)
    (third : c.IsNumber) :
    Related h a b ∧ (Says h .lt a b → Says h .lt b c → Says h .lt a c) ∧
    (∀ i, (∃ r, Blurs i r) ↔ ¬ Binary64.Exact (Binary64.size i)) ∧
    ∀ i r, Blurs i r → 2 ^ 53 < i.toInt.natAbs := by
  refine ⟨related h first second, fun less less' => ?_, fun i => exists_blurs_iff,
    fun i r blurs => blurs.large⟩
  rw [says_iff first second, Comparison.holds, beq_iff_eq] at less
  rw [says_iff second third, Comparison.holds, beq_iff_eq] at less'
  rw [says_iff first third, Comparison.holds, beq_iff_eq]
  exact Value.order_trans less less'

def twoPow53 : Binary64 := ⟨0x4340000000000000⟩

theorem numbers_ordered_around_twoPow53 :
    Says {} .lt (.integer 9007199254740991) (.real twoPow53) ∧
    Says {} .lt (.real twoPow53) (.integer 9007199254740995) ∧
    Says {} .lt (.integer 9007199254740991) (.integer 9007199254740995) ∧
    Related {} (.integer 9007199254740991) (.real twoPow53) := by
  have below : Says {} .lt (.integer 9007199254740991) (.real twoPow53) := by decide +kernel
  have above : Says {} .lt (.real twoPow53) (.integer 9007199254740995) := by decide +kernel
  obtain ⟨related, trans, -⟩ := numbers_ordered_up_to_rounding (a := .integer 9007199254740991)
    (b := .real twoPow53) (c := .integer 9007199254740995) {} trivial rfl trivial
  exact ⟨below, above, trans below above, related⟩

/-- The integer after `2 ^ 53` is neither less than that real, nor equal to it, nor greater, but it is
at most and at least that real. -/
theorem unrelated_to_twoPow53 :
    ¬ Says {} .lt (.integer 9007199254740993) (.real twoPow53) ∧
    ¬ SaysEqual {} (.integer 9007199254740993) (.real twoPow53) ∧
    ¬ Says {} .gt (.integer 9007199254740993) (.real twoPow53) ∧
    Says {} .le (.integer 9007199254740993) (.real twoPow53) ∧
    Says {} .ge (.integer 9007199254740993) (.real twoPow53) := by
  decide +kernel

end Operator

end Tenancy
