import Mathlib.Data.Fintype.EquivFin
import Tenancy.Proofs.Duplication
import Tenancy.Proofs.Heap.Bisimilar

/-!
Structural equality as an equivalence.

Structural equality holds just of bisimilar values, however their containers are knotted. Where the
keys of mappings are filed as they are now, a key is found just when an equal one is there, and then
structural equality is an equivalence. It is symmetric although keys are looked up on one side only:
as many keys are on the other side, and no two of them lead to one.
-/

namespace Tenancy

open List

theorem forall₂_comp {xs ys zs : List α} (first : xs.Forall₂ R ys)
    (second : ys.Forall₂ S zs) : xs.Forall₂ (fun x z => ∃ y, R x y ∧ S y z) zs := by
  induction first generalizing zs with
  | nil =>
    cases second
    exact .nil
  | cons rel _ ih =>
    cases second with
    | cons rel' rest => exact .cons ⟨_, rel, rel'⟩ (ih rest)

/-- As many are matched as there are, so all are matched. -/
theorem exists_matched {α : Type} {P : α → α → Prop} {xs ys : List α}
    (size : xs.length = ys.length) (each : ∀ x ∈ xs, ∃ y ∈ ys, P x y)
    (apart : xs.Pairwise fun x x' => ∀ y, P x y → ¬ P x' y) : ∀ y ∈ ys, ∃ x ∈ xs, P x y := by
  have indexed : ∀ i : Fin xs.length, ∃ j : Fin ys.length, P (xs.get i) (ys.get j) := by
    intro i
    obtain ⟨y, mem, matched⟩ := each _ (xs.get_mem i)
    obtain ⟨j, rfl⟩ := mem_iff_get.mp mem
    exact ⟨j, matched⟩
  choose f matched using indexed
  have injective : Function.Injective f := by
    intro i j same
    have ordered : ∀ i j, i < j → f i ≠ f j := by
      intro i j before same
      refine pairwise_iff_get.mp apart i j before _ (matched i) ?_
      rw [same]
      exact matched j
    obtain before | equal | after := lt_trichotomy i j
    · exact absurd same (ordered i j before)
    · exact equal
    · exact absurd same.symm (ordered j i after)
  have surjective : Function.Surjective f :=
    ((Fintype.bijective_iff_injective_and_card f).mpr ⟨injective, by simp [size]⟩).2
  intro y mem
  obtain ⟨j, rfl⟩ := mem_iff_get.mp mem
  obtain ⟨i, rfl⟩ := surjective j
  exact ⟨xs.get i, xs.get_mem i, matched i⟩

theorem Value.Flat.of_equals {h : Heap} {a b : Value} (flat : a.Flat)
    (equal : h.equals a b = true) : b.Flat := by
  rintro s rfl
  cases a with
  | ref r =>
    rw [← (Heap.equals_ref_iff.mp equal).1]
    exact flat r rfl
  | nil | integer _ | real _ | object _ => simp [Heap.equals] at equal

namespace Heap

variable {h : Heap} {look look' : Value → List Entry → Value → Prop} {R S : Value → Value → Prop}
  {a b c : Value}

theorem bisimilar_refl (comparable : a.Comparable) : h.Bisimilar look a a := by
  refine ⟨fun x y => x = y ∧ x.Comparable, ?_, rfl, comparable⟩
  rintro x _ ⟨rfl, comparable⟩
  exact .refl comparable

/-- No two keys of a mapping lead to one key, so every key on the other side has its own. -/
theorem Like.symm (like : h.Like h.HasKey R a b)
    (filed : ∀ xs, h.entries? a = some xs → h.Filed xs) :
    h.Like h.HasKey (fun x y => R y x) b a := by
  cases like with
  | same container id => exact .same container id
  | array first second each => exact .array second first each.flip
  | mapping first second size each =>
    rename_i xs ys
    have matched : ∀ e' ∈ ys, ∃ e ∈ xs, h.equals e.key e'.key = true ∧ R e.value e'.value := by
      refine exists_matched size (fun e mem => ?_) ((filed xs first).unequal.imp ?_)
      · obtain ⟨value, ⟨e', mem', equal, rfl⟩, rel⟩ := each e mem
        exact ⟨e', mem', equal, rel⟩
      · intro e e' unequal y equal equal'
        rw [equals_trans equal'.1 (equals_symm equal.1)] at unequal
        cases unequal
    refine .mapping second first size.symm fun e' mem => ?_
    obtain ⟨e, mem', equal, rel⟩ := matched e' mem
    exact ⟨e.value, ⟨e, mem', equals_symm equal, rfl⟩, rel⟩
  | function agree => exact .function agree.symm
  | flat flat equal => exact .flat (flat.of_equals equal) (equals_symm equal)

theorem Like.trans (first : h.Like h.HasKey R a b) (second : h.Like h.HasKey S b c) :
    h.Like h.HasKey (fun x z => (∃ y, R x y ∧ S y z) ∨ R x z ∨ S x z) a c := by
  cases first with
  | same container id => exact second.mono fun _ _ => .inr ∘ .inr
  | array firstA firstB each =>
    obtain ⟨id, rfl, -⟩ := items?_eq_some_iff.mp firstB
    cases second with
    | same => exact .array firstA firstB (each.imp fun _ _ => .inr ∘ .inl)
    | array secondB secondC each' =>
      obtain rfl := Option.some.inj (firstB.symm.trans secondB)
      exact .array firstA secondC ((forall₂_comp each each').imp fun _ _ => .inl)
    | mapping secondB => simp [entries?] at secondB
    | flat flat => simpa using flat _ rfl
  | mapping firstA firstB size each =>
    obtain ⟨id, rfl, -⟩ := entries?_eq_some_iff.mp firstB
    cases second with
    | same =>
      refine .mapping firstA firstB size fun e mem => ?_
      obtain ⟨value, found, rel⟩ := each e mem
      exact ⟨value, found, .inr (.inl rel)⟩
    | array secondB => simp [items?] at secondB
    | mapping secondB secondC size' each' =>
      obtain rfl := Option.some.inj (firstB.symm.trans secondB)
      refine .mapping firstA secondC (size.trans size') fun e mem => ?_
      obtain ⟨_, ⟨e', mem', equal, rfl⟩, rel⟩ := each e mem
      obtain ⟨_, ⟨e'', member'', equal', rfl⟩, rel'⟩ := each' e' mem'
      exact ⟨_, ⟨e'', member'', equals_trans equal equal', rfl⟩, .inl ⟨_, rel, rel'⟩⟩
    | flat flat => simpa using flat _ rfl
  | function agree =>
    cases second with
    | same container => simp [Kind.Container] at container
    | array secondB => simp [items?] at secondB
    | mapping secondB => simp [entries?] at secondB
    | function agree' => exact .function (agree.trans agree')
    | flat flat => simpa using flat _ rfl
  | flat flat equal =>
    have flat' := flat.of_equals equal
    cases second with
    | same container => rcases container with rfl | rfl <;> simpa using flat' _ rfl
    | array secondB =>
      obtain ⟨id, rfl, -⟩ := items?_eq_some_iff.mp secondB
      simpa using flat' _ rfl
    | mapping secondB =>
      obtain ⟨id, rfl, -⟩ := entries?_eq_some_iff.mp secondB
      simpa using flat' _ rfl
    | function => simpa using flat' _ rfl
    | flat _ equal' => exact .flat flat (equals_trans equal equal')

theorem bisimilar_symm (filed : ∀ id xs, h.payload? id = some (.mapping xs) → h.Filed xs)
    (bisimilar : h.Bisimilar h.HasKey a b) : h.Bisimilar h.HasKey b a := by
  refine ⟨fun x y => h.Bisimilar h.HasKey y x, fun x y rel => ?_, bisimilar⟩
  refine rel.like.symm fun xs found => ?_
  obtain ⟨id, -, found⟩ := entries?_eq_some_iff.mp found
  exact filed id xs found

theorem bisimilar_trans (first : h.Bisimilar h.HasKey a b) (second : h.Bisimilar h.HasKey b c) :
    h.Bisimilar h.HasKey a c := by
  refine ⟨fun x z => (∃ y, h.Bisimilar h.HasKey x y ∧ h.Bisimilar h.HasKey y z) ∨
    h.Bisimilar h.HasKey x z ∨ h.Bisimilar h.HasKey x z, ?_, .inl ⟨b, first, second⟩⟩
  rintro x z (⟨y, before, after⟩ | rel | rel)
  · exact before.like.trans after.like
  · exact rel.like.mono fun _ _ => .inr ∘ .inl
  · exact rel.like.mono fun _ _ => .inr ∘ .inl

theorem Typed.bisimilar_imp (typed : h.Typed)
    (inside : ∀ key entries value, look key entries value → h.HasKey key entries value)
    (found : ∀ id entries key value, h.payload? id = some (.mapping entries) → h.Refers key →
      look key entries value → look' key entries value)
    (refersA : h.Refers a) (refersB : h.Refers b) (bisimilar : h.Bisimilar look a b) :
    h.Bisimilar look' a b := by
  refine ⟨fun x y => h.Bisimilar look x y ∧ h.Refers x ∧ h.Refers y, ?_,
    bisimilar, refersA, refersB⟩
  rintro x y ⟨rel, -, -⟩
  refine rel.like.imp ?_ ?_
  · intro xs ys first second u memberU v memberV below
    obtain ⟨r, rfl, foundR⟩ := items?_eq_some_iff.mp first
    obtain ⟨s, rfl, foundS⟩ := items?_eq_some_iff.mp second
    exact ⟨below, typed r u ⟨_, foundR, .item memberU⟩, typed s v ⟨_, foundS, .item memberV⟩⟩
  · intro xs ys first second e mem value looked below
    obtain ⟨r, rfl, foundR⟩ := entries?_eq_some_iff.mp first
    obtain ⟨s, rfl, foundS⟩ := entries?_eq_some_iff.mp second
    obtain ⟨e', mem', -, rfl⟩ := inside _ _ _ looked
    refine ⟨found s ys _ _ foundS (typed r _ ⟨_, foundR, .key mem⟩) looked, below, ?_, ?_⟩
    · exact typed r _ ⟨_, foundR, .value mem⟩
    · exact typed s _ ⟨_, foundS, .value mem'⟩

theorem Typed.bisimilar_finds_iff (typed : h.Typed) (upToDate : h.UpToDate)
    (filed : ∀ id entries, h.payload? id = some (.mapping entries) → h.Filed entries)
    (refersA : h.Refers a) (refersB : h.Refers b) :
    h.Bisimilar h.Finds a b ↔ h.Bisimilar h.HasKey a b := by
  constructor
  · exact typed.bisimilar_imp (fun _ _ _ => Finds.hasKey)
      (fun _ _ _ _ _ _ => Finds.hasKey) refersA refersB
  · exact typed.bisimilar_imp (fun _ _ _ => id) (fun id entries _ _ found refers =>
      ((filed id entries found).finds_iff upToDate refers).mpr) refersA refersB

/-- Structural equality holds just of bisimilar values, and its depth does not run out. Where keys
are unequal and have not changed since they were entered, values are bisimilar when equal keys lead
to bisimilar values, and structural equality is an equivalence of all values but those that are not
numbers. -/
theorem deepEquals_iff_bisimilar (typed : h.Typed) :
    (∀ a b, h.Refers a → h.Refers b → (h.deepEquals a b = true ↔ h.Bisimilar h.Finds a b)) ∧
    (∀ a b more, h.likenessBelow (h.cells.size * h.cells.size + 2 + more) [] a b = h.likeness a b) ∧
    (h.Possible → (∀ id entries, h.payload? id = some (.mapping entries) → h.Filed entries) →
      (∀ a b, h.Refers a → h.Refers b → (h.deepEquals a b = true ↔ h.Bisimilar h.HasKey a b)) ∧
      Equivalence fun a b : { v : Value // h.Refers v ∧ v.Comparable } =>
        h.deepEquals a b = true) := by
  refine ⟨fun a b => typed.deepEquals_iff, fun a b more => ?_, fun possible filed => ?_⟩
  · have start : h.Route [] := ⟨.nil, by simp⟩
    induction more with
    | zero => rfl
    | succ more ih => rw [← Nat.add_assoc, start.likenessBelow_succ (by simp; omega), ih]
  · have keyed : ∀ a b, h.Refers a → h.Refers b →
        (h.deepEquals a b = true ↔ h.Bisimilar h.HasKey a b) := fun a b refersA refersB =>
      (typed.deepEquals_iff refersA refersB).trans
        (typed.bisimilar_finds_iff possible.upToDate filed refersA refersB)
    refine ⟨keyed, ⟨fun a => ?_, fun {a b} equal => ?_, fun {a b c} first second => ?_⟩⟩
    · exact (keyed a a a.2.1 a.2.1).mpr (bisimilar_refl a.2.2)
    · have bisimilar := (keyed a b a.2.1 b.2.1).mp equal
      exact (keyed b a b.2.1 a.2.1).mpr (bisimilar_symm filed bisimilar)
    · have before := (keyed a b a.2.1 b.2.1).mp first
      have after := (keyed b c b.2.1 c.2.1).mp second
      exact (keyed a c a.2.1 c.2.1).mpr (bisimilar_trans before after)

instance (h : Heap) (entries : List Entry) : Decidable (h.Filed entries) :=
  decidable_of_iff (entries.Pairwise (fun x y => h.equals y.key x.key = false) ∧
      (2 ≤ entries.length → ∀ e ∈ entries, e.digest = h.digest e.key))
    ⟨fun ⟨unequal, settled⟩ => ⟨unequal, settled⟩, fun ⟨unequal, settled⟩ => ⟨unequal, settled⟩⟩

theorem typed_of_children
    (held : ∀ id < h.cells.size, ∀ v ∈ Marking.childrenOf h id, h.Refers v) : h.Typed :=
  fun id v holds => held id (within_of_holds holds) v (mem_childrenOf.mpr holds)

theorem forall_mapping {P : List Entry → Prop}
    (each : ∀ id < h.cells.size, P ((h.entries? (.ref ⟨.mapping, id⟩)).getD [])) (id : Nat)
    (entries : List Entry) (found : h.payload? id = some (.mapping entries)) : P entries := by
  have here := each id (within_of_live (by rw [live, found]; rfl))
  rwa [entries?_eq_some_iff.mpr ⟨id, rfl, found⟩] at here

/-- Two arrays that each hold a mapping that holds the array and itself. The keys of the mappings
are in different orders, and one key is a text that each mapping has for itself. -/
def rings : Heap :=
  let h := (paired.place ⟨0⟩ (.array [.ref ⟨.mapping, 1⟩, .integer 5])).2
  let h := (h.place ⟨0⟩ (.mapping [])).2
  let h := (h.create (.string "key") true false).2
  let h := (h.place ⟨1⟩ (.array [.ref ⟨.mapping, 4⟩, .integer 5])).2
  let h := (h.place ⟨1⟩ (.mapping [])).2
  let h := (h.place ⟨1⟩ (.string "key")).2
  let text := h.digest (.ref ⟨.string, 2⟩)
  let h := h.write 1 (.mapping [⟨.ref ⟨.string, 2⟩, .ref ⟨.array, 0⟩, text⟩,
    ⟨.integer 1, .ref ⟨.mapping, 1⟩, h.digest (.integer 1)⟩])
  h.write 4 (.mapping [⟨.integer 1, .ref ⟨.mapping, 4⟩, h.digest (.integer 1)⟩,
    ⟨.ref ⟨.string, 5⟩, .ref ⟨.array, 3⟩, text⟩])

theorem possible_rings : rings.Possible := by
  refine .tail (.tail ?_ (.write _ 1 _)) (.write _ 4 _)
  refine .trans ?_ (place_changes (by decide +kernel) (.string "key"))
  refine .trans ?_ (place_changes (by decide +kernel) (.mapping []))
  refine .trans ?_ (place_changes (by decide +kernel) (.array [.ref ⟨.mapping, 4⟩, .integer 5]))
  refine .tail ?_ (.create _ (.string "key") true false)
  refine .trans ?_ (place_changes (by decide +kernel) (.mapping []))
  refine .trans ?_ (place_changes (by decide +kernel) (.array [.ref ⟨.mapping, 1⟩, .integer 5]))
  exact .tail (.single (.newList {})) (.newList _)

theorem deepEquals_iff_bisimilar_rings : rings.Typed ∧ rings.Possible ∧
    rings.Bisimilar rings.Finds (.ref ⟨.array, 0⟩) (.ref ⟨.array, 3⟩) ∧
    rings.Bisimilar rings.HasKey (.ref ⟨.mapping, 1⟩) (.ref ⟨.mapping, 4⟩) ∧
    ¬ rings.Bisimilar rings.HasKey (.ref ⟨.array, 0⟩) (.ref ⟨.mapping, 4⟩) := by
  have typed : rings.Typed := typed_of_children (by decide +kernel)
  have refers : ∀ v ∈ [Value.ref ⟨.array, 0⟩, .ref ⟨.mapping, 1⟩, .ref ⟨.array, 3⟩,
      .ref ⟨.mapping, 4⟩], rings.Refers v := by decide +kernel
  obtain ⟨found, -, keyed⟩ := deepEquals_iff_bisimilar typed
  obtain ⟨keyed, -⟩ := keyed possible_rings (forall_mapping (P := rings.Filed) (by decide +kernel))
  refine ⟨typed, possible_rings, ?_, ?_, fun bisimilar => ?_⟩
  · exact (found _ _ (refers _ (by decide)) (refers _ (by decide))).mp (by decide +kernel)
  · exact (keyed _ _ (refers _ (by decide)) (refers _ (by decide))).mp (by decide +kernel)
  · have equal := (keyed _ _ (refers _ (by decide)) (refers _ (by decide))).mpr bisimilar
    exact absurd equal (by decide +kernel)

/-- Two mappings with the same buffers as keys, which have since been written to. -/
def retouched : HeapM (Value × Value) := do
  let first ← HeapM.place ⟨0⟩ (.buffer ⟨[1], none⟩)
  let second ← HeapM.place ⟨0⟩ (.buffer ⟨[2], none⟩)
  let m ← HeapM.place ⟨0⟩ (.mapping [])
  let n ← HeapM.place ⟨0⟩ (.mapping [])
  for mapping in [m, n] do
    HeapM.mappingInsert mapping first (.integer 1)
    HeapM.mappingInsert mapping second (.integer 2)
  Operator.indexSet first (.integer 0) (.integer 3)
  Operator.indexSet second (.integer 0) (.integer 4)
  return (m, n)

theorem bisimilar_of_pairs (first : h.entries? a = some xs) (second : h.entries? b = some ys)
    (same : xs.map (fun e => (e.key, e.value)) = ys.map fun e => (e.key, e.value))
    (comparable : ∀ e ∈ xs, e.key.Comparable ∧ e.value.Comparable) : h.Bisimilar h.HasKey a b := by
  refine ⟨fun x y => x = a ∧ y = b ∨ h.Bisimilar h.HasKey x y, ?_, .inl ⟨rfl, rfl⟩⟩
  rintro x y (⟨rfl, rfl⟩ | bisimilar)
  · refine .mapping first second (by simpa using congrArg length same) fun e mem => ?_
    obtain ⟨key, value⟩ := comparable e mem
    obtain ⟨e', mem', pair⟩ := mem_map.mp (same ▸ mem_map_of_mem mem)
    obtain ⟨sameKey, sameValue⟩ := Prod.mk.inj pair
    refine ⟨e.value, ⟨e', mem', ?_, sameValue⟩, .inr (bisimilar_refl value)⟩
    rw [sameKey]
    exact equals_refl key
  · exact bisimilar.like.mono fun _ _ => .inr

/-- Mappings that have the same values under the same keys differ once the keys have changed. -/
theorem bisimilar_not_deepEquals : ∃ m n h, retouched paired = .ok (m, n) h ∧ h.Typed ∧
    h.Bisimilar h.HasKey m n ∧ h.deepEquals m n = false := by
  have outcome : (match retouched paired with
      | .ok (m, n) h => decide ((∀ id < h.cells.size, ∀ v ∈ Marking.childrenOf h id, h.Refers v) ∧
            (h.entries? m).map (·.map fun e => (e.key, e.value)) = some
              [(.ref ⟨.buffer, 0⟩, .integer 1), (.ref ⟨.buffer, 1⟩, .integer 2)] ∧
            (h.entries? n).map (·.map fun e => (e.key, e.value)) = some
              [(.ref ⟨.buffer, 0⟩, .integer 1), (.ref ⟨.buffer, 1⟩, .integer 2)] ∧
            h.deepEquals m n = false)
      | .error _ _ => false) = true := by decide +kernel
  split at outcome
  · rename_i m n h made
    obtain ⟨held, first, second, differ⟩ := of_decide_eq_true outcome
    obtain ⟨xs, foundM, pairs⟩ := Option.map_eq_some_iff.mp first
    obtain ⟨ys, foundN, pairs'⟩ := Option.map_eq_some_iff.mp second
    refine ⟨m, n, h, made, typed_of_children held,
      bisimilar_of_pairs foundM foundN (pairs.trans pairs'.symm) fun e member => ?_, differ⟩
    have listed : (e.key, e.value) ∈ xs.map fun e => (e.key, e.value) := mem_map_of_mem member
    rw [pairs] at listed
    rcases mem_pair.mp listed with same | same <;> obtain ⟨key, value⟩ := Prod.mk.inj same <;>
      simp [key, value, Value.Comparable]
  · cases outcome

end Heap

end Tenancy
