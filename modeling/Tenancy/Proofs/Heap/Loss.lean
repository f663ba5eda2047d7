import Mathlib.Algebra.BigOperators.Intervals
import Tenancy.Heap.Holders
import Tenancy.Proofs.Heap.Aspect

/-!
Owned payloads are never lost.

While payloads are lost one after the other, the count of holders at a payload never falls short: one
for its owner, one for each reference from outside, and one for each reference from a payload that has
not let go yet. What waits to be lost has no holders, and waits once. So a payload with an owner never
gets there.
-/

namespace Tenancy

open List

def Value.refersTo (id : Nat) : Value → Bool
  | .ref r => r.id == id
  | _ => false

namespace Heap

variable {h : Heap} {outside pending : List Value} {id x : Nat} {left : Finset Nat}
  {holders : Array Nat} {lost : List Nat}

/-- How often one payload refers to another. -/
def references (h : Heap) (source target : Nat) : Nat :=
  (Marking.childrenOf h source).countP (·.refersTo target)

/-- The holders of a payload that cannot be lost before others are. -/
def anchors (h : Heap) (outside : List Value) (id : Nat) : Nat :=
  (if (h.binding? id).isSome then 1 else 0) + outside.countP (·.refersTo id)

theorem getElem?_addHolder (values : List Value) (holders : Array Nat) (id : Nat) :
    (values.foldl addHolder holders)[id]? =
      holders[id]?.map (· + values.countP (·.refersTo id)) := by
  induction values generalizing holders with
  | nil => simp
  | cons v rest ih =>
    rw [foldl_cons, ih]
    cases v with
    | ref r =>
      by_cases here : r.id = id <;>
        simp [addHolder, Value.refersTo, Array.getElem?_modify, here, Function.comp_def, Nat.add_assoc,
          Nat.add_comm 1]
    | _ => simp [addHolder, Value.refersTo]

theorem getD_holders (h : Heap) (outside : List Value) (within : id < h.cells.size) :
    (h.holders outside).getD id 0 =
      h.anchors outside id + ∑ source ∈ Finset.range h.cells.size, h.references source id := by
  have referred : ((range h.cells.size).flatMap (Marking.childrenOf h)).countP
      (·.refersTo id) = ∑ source ∈ Finset.range h.cells.size, h.references source id := by
    rw [countP_flatMap]
    rfl
  rw [Array.getD_eq_getD_getElem?, Heap.holders, getElem?_addHolder, countP_append, referred,
    anchors, binding?]
  simp [within, Nat.add_assoc]

/-- How far the losing has come for a payload: those in `left` have not been lost yet, and the last
that was is still to let go of `pending`. -/
structure Losing (h : Heap) (outside : List Value) (left : Finset Nat) (pending : List Value)
    (holders : Array Nat) (lost : List Nat) (x : Nat) : Prop where
  count : h.anchors outside x + pending.countP (·.refersTo x) + ∑ source ∈ left, h.references source x ≤
    holders.getD x 0
  once : lost.count x ≤ 1
  waits : x ∈ lost → x ∈ left
  spent : x ∈ lost ∨ x ∉ left → holders.getD x 0 = 0

/-- A payload that is lost is to let go of what it refers to. -/
theorem Losing.pop (losing : h.Losing outside left [] holders (id :: lost) x)
    (present : Marking.childrenOf h id ≠ [] → id ∈ left) :
    h.Losing outside (left.erase id) (Marking.childrenOf h id) holders lost x where
  count := by
    have before := losing.count
    by_cases mem : id ∈ left
    · rw [← Finset.add_sum_erase left _ mem] at before
      simp only [countP_nil, references] at before ⊢
      omega
    · rw [Finset.erase_eq_of_notMem mem, not_not.mp (mt present mem)]
      exact before
  once := count_le_count_cons.trans losing.once
  waits waits := by
    have once := losing.once
    have again := count_pos_iff.mpr waits
    have := losing.waits (.tail _ waits)
    grind
  spent spent := losing.spent (by grind)

theorem Losing.drop {v : Value} (losing : h.Losing outside left (v :: pending) holders lost x) :
    h.Losing outside left pending (dropHolder (holders, lost) v).1 (dropHolder (holders, lost) v).2 x := by
  obtain ⟨count, once, waits, spent⟩ := losing
  cases v with
  | ref r =>
    rw [countP_cons, Value.refersTo] at count
    -- A payload that is let go of had a holder, so it neither waits nor has been lost.
    have fresh : r.id = x → x ∉ lost ∧ x ∈ left ∧ x < holders.size := by grind
    have after : (dropHolder (holders, lost) (.ref r)).1.getD x 0 =
        if r.id = x then holders.getD x 0 - 1 else holders.getD x 0 := by
      simp only [dropHolder, Array.getD_eq_getD_getElem?, Array.getElem?_setIfInBounds]
      by_cases here : r.id = x
      · simp [here, fresh here]
      · simp [here]
    have waiting : (dropHolder (holders, lost) (.ref r)).2 =
        if holders.getD r.id 0 - 1 = 0 then r.id :: lost else lost := rfl
    rw [waiting]
    constructor <;> grind
  | _ => exact ⟨count, once, waits, spent⟩

theorem Losing.dropAll (losing : h.Losing outside left pending holders lost x) :
    h.Losing outside left [] (pending.foldl dropHolder (holders, lost)).1
      (pending.foldl dropHolder (holders, lost)).2 x := by
  induction pending generalizing holders lost with
  | nil => exact losing
  | cons v rest ih => exact ih losing.drop

/-- What is lost is not owned, and nobody outside refers to it. -/
theorem anchors_of_loseAll {fuel : Nat}
    (losing : ∀ x < h.cells.size, h.Losing outside left [] holders lost x) (within : x < h.cells.size)
    (isLost : x ∈ h.loseAll fuel holders lost) : h.anchors outside x = 0 := by
  induction fuel generalizing left holders lost with
  | zero => simp [loseAll] at isLost
  | succ fuel ih =>
    cases lost with
    | nil => simp [loseAll] at isLost
    | cons id lost =>
      rw [loseAll] at isLost
      rcases mem_cons.mp isLost with rfl | later
      · have count := (losing x within).count
        rw [(losing x within).spent (.inl (.head _))] at count
        omega
      · refine ih (fun x within => .dropAll ((losing x within).pop ?_)) later
        intro refers
        by_cases present : id < h.cells.size
        · exact (losing id present).waits (.head _)
        · simp [Marking.childrenOf, payload?, present] at refers

theorem not_lost_of_bound (bound : (h.binding? id).isSome) : id ∉ h.lost outside := by
  intro isLost
  have within : id < h.cells.size := by
    by_contra missing
    simp [binding?, missing] at bound
  have start : ∀ x < h.cells.size, h.Losing outside (Finset.range h.cells.size) [] (h.holders outside)
      ((range h.cells.size).filter fun id => h.live id && (h.holders outside).getD id 0 == 0) x :=
    fun x inside => ⟨(h.getD_holders outside inside).ge,
      nodup_iff_count_le_one.mp (nodup_range.filter _) x, by simp [inside],
      by simp +contextual [inside]⟩
  have none := anchors_of_loseAll start within isLost
  simp [anchors, bound] at none

end Heap

end Tenancy
