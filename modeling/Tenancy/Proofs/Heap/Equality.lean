import Tenancy.Proofs.Binary64
import Tenancy.Proofs.Heap.Duplicate

/-!
Equality of values and the search for a key.

Equality is symmetric and transitive, and only reals that are not numbers differ from themselves. In
a heap that operations lead to, no digest is kept that a payload would not have now, so equal values
have the same digest. A key is then found in a mapping just when an equal one is there, as long as
the keys of the mapping have not changed since they were entered.
-/

namespace Tenancy

open Binary64

theorem Payload.kind_of_face {p : Payload} (seen : p.face.isSome) :
    p.kind = .string ∨ p.kind = .buffer := by
  cases p <;> simp_all [Payload.face, Payload.kind]

namespace Heap

variable {h h' : Heap} {a b c key value : Value} {id : Nat} {entries : List Entry}

theorem sameContents_iff (h : Heap) (i j : Nat) : h.sameContents i j = true ↔
    ∃ p q, h.payload? i = some p ∧ h.payload? j = some q ∧ p.face = q.face ∧ p.face.isSome := by
  unfold sameContents
  cases h.payload? i with
  | none => simp
  | some p =>
    cases h.payload? j with
    | none => cases p <;> simp
    | some q => cases p <;> cases q <;> simp [Payload.face]

theorem sameContents_symm (same : h.sameContents i j = true) : h.sameContents j i = true := by
  obtain ⟨p, q, foundP, foundQ, face, seen⟩ := (h.sameContents_iff i j).mp same
  exact (h.sameContents_iff j i).mpr ⟨q, p, foundQ, foundP, face.symm, face ▸ seen⟩

theorem sameContents_trans (first : h.sameContents i j = true)
    (second : h.sameContents j k = true) : h.sameContents i k = true := by
  obtain ⟨p, q, foundP, foundQ, face, seen⟩ := (h.sameContents_iff i j).mp first
  obtain ⟨q', r, foundQ', foundR, face', -⟩ := (h.sameContents_iff j k).mp second
  obtain rfl := Option.some.inj (foundQ.symm.trans foundQ')
  exact (h.sameContents_iff i k).mpr ⟨p, r, foundP, foundR, face.trans face', seen⟩

theorem equals_ref_iff {r s : Ref} : h.equals (.ref r) (.ref s) = true ↔
    r.kind = s.kind ∧ (r.id = s.id ∨ h.sameContents r.id s.id = true) := by
  simp [equals]

theorem equals_refl (number : ∀ r, a = .real r → r.isNaN = false) : h.equals a a = true := by
  cases a with
  | real r => exact eq_refl (number r rfl)
  | nil | integer _ | object _ | ref _ => simp [equals]

theorem equals_symm (equal : h.equals a b = true) : h.equals b a = true := by
  cases a <;> cases b <;> simp only [equals, Bool.false_eq_true, beq_iff_eq] at equal ⊢
  case integer.integer | object.object | integer.real | real.integer => simp_all
  case real.real => exact eq_symm equal
  case ref.ref r s =>
    obtain ⟨kind, same | contents⟩ := equals_ref_iff.mp equal
    · exact equals_ref_iff.mpr ⟨kind.symm, .inl same.symm⟩
    · exact equals_ref_iff.mpr ⟨kind.symm, .inr (sameContents_symm contents)⟩

theorem equals_trans (first : h.equals a b = true) (second : h.equals b c = true) :
    h.equals a c = true := by
  cases a <;> cases b <;> simp only [equals, Bool.false_eq_true, beq_iff_eq] at first <;>
    cases c <;> simp only [equals, Bool.false_eq_true, beq_iff_eq] at second ⊢
  case integer.integer.integer | integer.integer.real | integer.real.integer |
      real.integer.integer | object.object.object => simp_all
  case integer.real.real => exact (integral?_congr second).symm.trans first
  case real.integer.real => exact eq_of_integral? first second
  case real.real.integer => exact (integral?_congr first).trans second
  case real.real.real => exact eq_trans first second
  case ref.ref.ref r s t =>
    obtain ⟨kind, step⟩ := equals_ref_iff.mp first
    obtain ⟨kind', step'⟩ := equals_ref_iff.mp second
    refine equals_ref_iff.mpr ⟨kind.trans kind', ?_⟩
    rcases step with same | contents
    · rwa [same]
    · rcases step' with same' | contents'
      · exact .inr (same' ▸ contents)
      · exact .inr (sameContents_trans contents contents')

theorem digest_real_eq {x y : Binary64} (same : x.eq y = true) :
    h.digest (.real x) = h.digest (.real y) := by
  have integral := integral?_congr same
  obtain ⟨-, -, rank⟩ := eq_iff.mp same
  obtain rfl | ⟨zero, -⟩ := eq_or_zeros rank
  · rfl
  · have zero' := integral?_zero zero
    simp only [digest, ← integral, zero']

theorem UpToDate.digest_eq_of_equals (upToDate : h.UpToDate) (refers : h.Refers a)
    (equal : h.equals a b = true) : h.digest a = h.digest b := by
  cases a <;> cases b <;> simp only [equals, Bool.false_eq_true, beq_iff_eq] at equal
  case nil.nil => rfl
  case integer.integer | object.object => rw [equal]
  case integer.real | real.integer => simp [digest, equal]
  case real.real => exact digest_real_eq equal
  case ref.ref r s =>
    obtain ⟨kind, same | contents⟩ := equals_ref_iff.mp equal
    · obtain rfl : r = s := by
        cases r
        cases s
        simp_all
      rfl
    · obtain ⟨p, q, foundP, foundQ, face, seen⟩ := (h.sameContents_iff _ _).mp contents
      have told : r.kind = .string ∨ r.kind = .buffer := by
        rw [← (refers r rfl).2 p foundP]
        exact p.kind_of_face seen
      rw [upToDate.digest_eq told foundP, upToDate.digest_eq (kind ▸ told) foundQ]
      cases p <;> cases q <;> simp_all [Payload.face, Payload.digest]

/-- The key is found at the entry. The digest is not looked at where there is nothing to choose. -/
def Answers (h : Heap) (key : Value) (entries : List Entry) (e : Entry) : Prop :=
  h.equals key e.key = true ∧ (2 ≤ entries.length → e.digest = h.digest key)

instance (h : Heap) (key : Value) (entries : List Entry) (e : Entry) :
    Decidable (h.Answers key entries e) :=
  inferInstanceAs (Decidable (_ ∧ _))

/-- The first entry at which the key is found has the value. -/
def Finds (h : Heap) (key : Value) (entries : List Entry) (value : Value) : Prop :=
  ∃ before e after, entries = before ++ e :: after ∧ h.Answers key entries e ∧ e.value = value ∧
    ∀ other ∈ before, ¬ h.Answers key entries other

def HasKey (h : Heap) (key : Value) (entries : List Entry) (value : Value) : Prop :=
  ∃ e ∈ entries, h.equals key e.key = true ∧ e.value = value

theorem find?_eq (h : Heap) (key : Value) (entries : List Entry) : h.find? key entries =
    (entries.find? fun e => decide (h.Answers key entries e)).map Entry.value := by
  by_cases several : 2 ≤ entries.length
  · have answers : h.matchesAt (h.digest key) key = fun e => decide (h.Answers key entries e) := by
      funext e
      simp [matchesAt, Answers, several, Bool.beq_eq_decide_eq]
    simp [find?, searched, several, answers]
  · simp [find?, searched, several, Answers]

theorem find?_eq_some_iff : h.find? key entries = some value ↔ h.Finds key entries value := by
  rw [find?_eq, Option.map_eq_some_iff]
  constructor
  · rintro ⟨e, found, same⟩
    obtain ⟨answers, before, after, split, earlier⟩ := List.find?_eq_some_iff_append.mp found
    exact ⟨before, e, after, split, by simpa using answers, same, by simpa using earlier⟩
  · rintro ⟨before, e, after, split, answers, same, earlier⟩
    refine ⟨e, List.find?_eq_some_iff_append.mpr ⟨?_, before, after, split, ?_⟩, same⟩
    · simpa using answers
    · simpa using earlier

theorem Finds.hasKey (finds : h.Finds key entries value) : h.HasKey key entries value := by
  obtain ⟨before, e, after, rfl, answers, same, -⟩ := finds
  exact ⟨e, by simp, answers.1, same⟩

/-- The keys of a mapping are unequal and have the digests that they were entered with. -/
structure Filed (h : Heap) (entries : List Entry) : Prop where
  unequal : entries.Pairwise fun x y => h.equals y.key x.key = false
  settled : 2 ≤ entries.length → ∀ e ∈ entries, e.digest = h.digest e.key

/-- Where keys are filed, the key that is found is the only equal one. -/
theorem Filed.finds_iff (filed : h.Filed entries) (upToDate : h.UpToDate) (refers : h.Refers key) :
    h.Finds key entries value ↔ h.HasKey key entries value := by
  refine ⟨Finds.hasKey, ?_⟩
  rintro ⟨e, mem, equal, same⟩
  obtain ⟨before, after, rfl⟩ := List.append_of_mem mem
  refine ⟨before, e, after, rfl, ⟨equal, fun several => ?_⟩, same, fun other earlier answers => ?_⟩
  · rw [filed.settled several e mem]
    exact (upToDate.digest_eq_of_equals refers equal).symm
  · have apart := (List.pairwise_append.mp filed.unequal).2.2 other earlier e (by simp)
    rw [equals_trans (equals_symm equal) answers.1] at apart
    cases apart

end Heap

end Tenancy
