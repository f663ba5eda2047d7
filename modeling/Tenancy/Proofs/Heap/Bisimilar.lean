import Mathlib.Data.Fintype.Card
import Mathlib.Data.List.ProdSigma
import Tenancy.Proofs.Heap.Equality

/-!
Structural equality and bisimilarity.

Two values are bisimilar when some relation has them that holds only of values that structural
equality finds no difference between, as long as it is told that what they hold is related.
Structural equality looks for such a relation. The pairs of containers above it are taken as
related, and this is sound: when what two containers hold is related as long as the two are, the two
are related. A path never has a pair twice, so the search ends.
-/

namespace Tenancy

open List

/-- Scalars, strings and buffers. -/
def Value.Flat (v : Value) : Prop := ∀ r, v = .ref r → r.kind = .string ∨ r.kind = .buffer

/-- A real that is not a number differs from itself. -/
def Value.Comparable (v : Value) : Prop := ∀ r, v = .real r → r.isNaN = false

/-- Payloads that structural equality looks into. -/
def Kind.Container (k : Kind) : Prop := k = .array ∨ k = .mapping

theorem Likeness.all_alike_iff (f : α → Likeness) (l : List α) :
    (Likeness.all f l).alike = true ↔ ∀ x ∈ l, (f x).alike = true := by
  induction l with
  | nil => simp [Likeness.all]
  | cons x rest ih =>
    rw [Likeness.all]
    by_cases first : (f x).alike = true
    · simp [first, ih]
    · simp [first]

theorem Likeness.all_congr (same : ∀ x ∈ l, f x = g x) : Likeness.all f l = Likeness.all g l := by
  induction l with
  | nil => rfl
  | cons x rest ih =>
    rw [Likeness.all, Likeness.all, same x (by simp), ih fun y mem => same y (by simp [mem])]

namespace Heap

variable {h : Heap} {look look' : Value → List Entry → Value → Prop} {R R' P : Value → Value → Prop}
  {a b c : Value} {path : List (Nat × Nat)} {fuel r s : Nat}

/-! ### What is asked of two values -/

/-- What structural equality asks of two values. `look` says which value is under a key, and `R` is
asked of the values in containers. -/
inductive Like (h : Heap) (look : Value → List Entry → Value → Prop) (R : Value → Value → Prop) :
    Value → Value → Prop where
  | same {k : Kind} (container : k.Container) (id : Nat) :
      Like h look R (.ref ⟨k, id⟩) (.ref ⟨k, id⟩)
  | array {a b : Value} {xs ys : List Value} (first : h.items? a = some xs)
      (second : h.items? b = some ys) (each : xs.Forall₂ R ys) : Like h look R a b
  | mapping {a b : Value} {xs ys : List Entry} (first : h.entries? a = some xs)
      (second : h.entries? b = some ys) (size : xs.length = ys.length)
      (each : ∀ e ∈ xs, ∃ value, look e.key ys value ∧ R e.value value) : Like h look R a b
  | function {r s : Nat}
      (agree : h.function? (.ref ⟨.function, r⟩) = h.function? (.ref ⟨.function, s⟩)) :
      Like h look R (.ref ⟨.function, r⟩) (.ref ⟨.function, s⟩)
  | flat {a b : Value} (flat : a.Flat) (equal : h.equals a b = true) : Like h look R a b

/-- The greatest relation that asks this of what it has. -/
def Bisimilar (h : Heap) (look : Value → List Entry → Value → Prop) (a b : Value) : Prop :=
  ∃ R : Value → Value → Prop, (∀ x y, R x y → h.Like look R x y) ∧ R a b

/-- Bisimilarity of values that may hold pairs that `P` has. -/
def BisimilarUpTo (h : Heap) (look : Value → List Entry → Value → Prop)
    (P : Value → Value → Prop) (a b : Value) : Prop :=
  ∃ R : Value → Value → Prop, (∀ x y, R x y → h.Like look (fun u v => R u v ∨ P u v) x y) ∧ R a b

theorem items?_eq_some_iff : h.items? a = some xs ↔
    ∃ id, a = .ref ⟨.array, id⟩ ∧ h.payload? id = some (.array xs) := by
  unfold items?
  split
  · split <;> simp_all
  · simp_all

theorem entries?_eq_some_iff : h.entries? a = some xs ↔
    ∃ id, a = .ref ⟨.mapping, id⟩ ∧ h.payload? id = some (.mapping xs) := by
  unfold entries?
  split
  · split <;> simp_all
  · simp_all

theorem Like.refl (comparable : a.Comparable) : h.Like look R a a := by
  by_cases flat : a.Flat
  · exact .flat flat (equals_refl comparable)
  · unfold Value.Flat at flat
    push Not at flat
    obtain ⟨⟨k, id⟩, rfl, notString, notBuffer⟩ := flat
    cases k with
    | string => exact absurd rfl notString
    | buffer => exact absurd rfl notBuffer
    | array => exact .same (.inl rfl) id
    | mapping => exact .same (.inr rfl) id
    | function => exact .function rfl

theorem Like.imp (like : h.Like look R a b)
    (items : ∀ xs ys, h.items? a = some xs → h.items? b = some ys →
      ∀ x ∈ xs, ∀ y ∈ ys, R x y → R' x y)
    (entries : ∀ xs ys, h.entries? a = some xs → h.entries? b = some ys →
      ∀ e ∈ xs, ∀ value, look e.key ys value → R e.value value →
        look' e.key ys value ∧ R' e.value value) : h.Like look' R' a b := by
  cases like with
  | same container id => exact .same container id
  | array first second each =>
    obtain ⟨size, zipped⟩ := forall₂_iff_zip.mp each
    refine .array first second (forall₂_iff_zip.mpr ⟨size, fun {x y} mem => ?_⟩)
    have members := of_mem_zip mem
    exact items _ _ first second x members.1 y members.2 (zipped mem)
  | mapping first second size each =>
    refine .mapping first second size fun e mem => ?_
    obtain ⟨value, found, rel⟩ := each e mem
    exact ⟨value, entries _ _ first second e mem value found rel⟩
  | function agree => exact .function agree
  | flat flat equal => exact .flat flat equal

theorem Like.mono (like : h.Like look R a b) (more : ∀ x y, R x y → R' x y) : h.Like look R' a b :=
  like.imp (fun _ _ _ _ x _ y _ => more x y)
    fun _ _ _ _ e _ value found rel => ⟨found, more e.value value rel⟩

theorem Bisimilar.like (bisimilar : h.Bisimilar look a b) : h.Like look (h.Bisimilar look) a b := by
  obtain ⟨R, closed, rel⟩ := bisimilar
  exact (closed a b rel).mono fun x y inside => ⟨R, closed, inside⟩

theorem BisimilarUpTo.like (bisimilar : h.BisimilarUpTo look P a b) :
    h.Like look (fun x y => h.BisimilarUpTo look P x y ∨ P x y) a b := by
  obtain ⟨R, closed, rel⟩ := bisimilar
  exact (closed a b rel).mono fun x y => Or.imp_left fun inside => ⟨R, closed, inside⟩

theorem BisimilarUpTo.bisimilar (bisimilar : h.BisimilarUpTo look P a b)
    (none : ∀ x y, ¬ P x y) : h.Bisimilar look a b := by
  obtain ⟨R, closed, rel⟩ := bisimilar
  refine ⟨R, fun x y inside => (closed x y inside).mono fun u v => ?_, rel⟩
  exact fun either => either.resolve_right (none u v)

theorem BisimilarUpTo.accumulate (taken : ∀ x y, P' x y → P x y ∨ x = a ∧ y = b)
    (like : h.Like look (fun x y => h.BisimilarUpTo look P' x y ∨ P' x y) a b) :
    h.BisimilarUpTo look P a b := by
  refine ⟨fun x y => h.BisimilarUpTo look P' x y ∨ x = a ∧ y = b, ?_, .inr ⟨rfl, rfl⟩⟩
  have step : ∀ x y, h.Like look (fun u v => h.BisimilarUpTo look P' u v ∨ P' u v) x y →
      h.Like look (fun u v => (h.BisimilarUpTo look P' u v ∨ u = a ∧ v = b) ∨ P u v) x y := by
    refine fun x y like => like.mono fun u v either => ?_
    rcases either with inside | assumed
    · exact .inl (.inl inside)
    · exact (taken u v assumed).symm.imp_left .inr
  rintro x y (inside | ⟨rfl, rfl⟩)
  · exact step x y inside.like
  · exact step x y like

/-! ### One level of the comparison -/

/-- The two are containers that have been met above. -/
def Assumed (path : List (Nat × Nat)) (a b : Value) : Prop :=
  ∃ (k : Kind) (r s : Nat), k.Container ∧ a = .ref ⟨k, r⟩ ∧ b = .ref ⟨k, s⟩ ∧ (r, s) ∈ path

def lengthen (path : List (Nat × Nat)) : Value → Value → List (Nat × Nat)
  | .ref r, .ref s => (r.id, s.id) :: path
  | _, _ => path

theorem likenessBelow_arrays :
    (h.likenessBelow (fuel + 1) path (.ref ⟨.array, r⟩) (.ref ⟨.array, s⟩)).alike = true ↔
      (r = s ∨ (r, s) ∈ path) ∨ ∃ xs ys, h.items? (.ref ⟨.array, r⟩) = some xs ∧
        h.items? (.ref ⟨.array, s⟩) = some ys ∧
        xs.Forall₂ (fun x y => (h.likenessBelow fuel ((r, s) :: path) x y).alike = true) ys := by
  simp only [likenessBelow, forall₂_iff_zip]
  by_cases known : r = s ∨ (r, s) ∈ path
  · simp [known]
  · rw [if_neg (by simpa using known)]
    cases first : h.items? (.ref ⟨.array, r⟩) with
    | none => simp [known]
    | some xs =>
      cases second : h.items? (.ref ⟨.array, s⟩) with
      | none => simp [known]
      | some ys =>
        by_cases size : xs.length = ys.length
        · simp [known, size, Likeness.all_alike_iff]
        · simp [known, size]

theorem likenessBelow_mappings :
    (h.likenessBelow (fuel + 1) path (.ref ⟨.mapping, r⟩) (.ref ⟨.mapping, s⟩)).alike = true ↔
      (r = s ∨ (r, s) ∈ path) ∨ ∃ xs ys, h.entries? (.ref ⟨.mapping, r⟩) = some xs ∧
        h.entries? (.ref ⟨.mapping, s⟩) = some ys ∧ xs.length = ys.length ∧
        ∀ e ∈ xs, ∃ value, h.Finds e.key ys value ∧
          (h.likenessBelow fuel ((r, s) :: path) e.value value).alike = true := by
  simp only [likenessBelow]
  by_cases known : r = s ∨ (r, s) ∈ path
  · simp [known]
  · rw [if_neg (by simpa using known)]
    cases first : h.entries? (.ref ⟨.mapping, r⟩) with
    | none => simp [known]
    | some xs =>
      cases second : h.entries? (.ref ⟨.mapping, s⟩) with
      | none => simp [known]
      | some ys =>
        by_cases size : xs.length = ys.length
        · simp only [size, beq_self_eq_true, if_true, Likeness.all_alike_iff, known, false_or,
            Option.some.injEq, exists_and_left, exists_eq_left', true_and, ← find?_eq_some_iff]
          refine forall₂_congr fun e mem => ?_
          cases h.find? e.key ys <;> simp
        · simp [known, size]

theorem likenessBelow_apart (apart : ∀ k r s, a = .ref ⟨k, r⟩ → b = .ref ⟨k, s⟩ → a.Flat) :
    h.likenessBelow (fuel + 1) path a b = ⟨h.equals a b, []⟩ := by
  rw [likenessBelow]
  all_goals
    rintro r s rfl rfl
    simpa using apart _ r s rfl rfl _ rfl

theorem flat_of_equals (equal : h.equals a b = true)
    (apart : ∀ k r s, a = .ref ⟨k, r⟩ → b = .ref ⟨k, s⟩ → a.Flat) : a.Flat := by
  rintro ⟨k, r⟩ rfl
  cases b with
  | ref s =>
    obtain ⟨rfl, -⟩ := equals_ref_iff.mp equal
    exact apart _ _ _ rfl rfl _ rfl
  | nil | integer _ | real _ | object _ => simp [equals] at equal

theorem likenessBelow_succ_iff : (h.likenessBelow (fuel + 1) path a b).alike = true ↔
    Assumed path a b ∨ h.Like h.Finds
      (fun x y => (h.likenessBelow fuel (lengthen path a b) x y).alike = true) a b := by
  constructor
  · intro alike
    by_cases apart : ∀ k r s, a = .ref ⟨k, r⟩ → b = .ref ⟨k, s⟩ → a.Flat
    · rw [likenessBelow_apart apart] at alike
      exact .inr (.flat (flat_of_equals alike apart) alike)
    · push Not at apart
      obtain ⟨k, r, s, rfl, rfl, notFlat⟩ := apart
      cases k with
      | string | buffer => exact absurd (by simp [Value.Flat]) notFlat
      | array =>
        obtain (rfl | met) | ⟨xs, ys, first, second, each⟩ := likenessBelow_arrays.mp alike
        · exact .inr (.same (.inl rfl) r)
        · exact .inl ⟨_, r, s, .inl rfl, rfl, rfl, met⟩
        · exact .inr (.array first second each)
      | mapping =>
        obtain (rfl | met) | ⟨xs, ys, first, second, size, each⟩ := likenessBelow_mappings.mp alike
        · exact .inr (.same (.inr rfl) r)
        · exact .inl ⟨_, r, s, .inr rfl, rfl, rfl, met⟩
        · exact .inr (.mapping first second size each)
      | function => exact .inr (.function (by simpa [likenessBelow] using alike))
  · rintro (⟨k, r, s, rfl | rfl, rfl, rfl, met⟩ | like)
    · exact likenessBelow_arrays.mpr (.inl (.inr met))
    · exact likenessBelow_mappings.mpr (.inl (.inr met))
    · cases like with
      | same container id =>
        rcases container with rfl | rfl
        · exact likenessBelow_arrays.mpr (.inl (.inl rfl))
        · exact likenessBelow_mappings.mpr (.inl (.inl rfl))
      | array first second each =>
        obtain ⟨r, rfl, -⟩ := items?_eq_some_iff.mp first
        obtain ⟨s, rfl, -⟩ := items?_eq_some_iff.mp second
        exact likenessBelow_arrays.mpr (.inr ⟨_, _, first, second, each⟩)
      | mapping first second size each =>
        obtain ⟨r, rfl, -⟩ := entries?_eq_some_iff.mp first
        obtain ⟨s, rfl, -⟩ := entries?_eq_some_iff.mp second
        exact likenessBelow_mappings.mpr (.inr ⟨_, _, first, second, size, each⟩)
      | function agree => simpa [likenessBelow] using agree
      | flat flat equal =>
        rw [likenessBelow_apart fun _ _ _ _ _ => flat]
        exact equal

/-! ### Paths -/

/-- A path as it comes about: each pair once, and live payloads. -/
structure Route (h : Heap) (path : List (Nat × Nat)) : Prop where
  once : path.Nodup
  live : ∀ p ∈ path, h.live p.1 = true ∧ h.live p.2 = true

section

variable (route : h.Route path)
include route

theorem Route.length_le : path.length ≤ h.cells.size * h.cells.size := by
  have within : path ⊆ range h.cells.size ×ˢ range h.cells.size := by
    rintro ⟨r, s⟩ mem
    obtain ⟨first, second⟩ := route.live _ mem
    exact pair_mem_product.mpr
      ⟨mem_range.mpr (within_of_live first), mem_range.mpr (within_of_live second)⟩
  simpa [length_product] using (subperm_of_subset route.once within).length_le

theorem Route.cons (unmet : (r, s) ∉ path) (first : h.payload? r = some p)
    (second : h.payload? s = some q) : h.Route ((r, s) :: path) where
  once := nodup_cons.mpr ⟨unmet, route.once⟩
  live := by
    rintro p (_ | ⟨_, mem⟩)
    · simp [Heap.live, first, second]
    · exact route.live p mem

theorem Route.items (unmet : (r, s) ∉ path) (first : h.items? (.ref ⟨.array, r⟩) = some xs)
    (second : h.items? (.ref ⟨.array, s⟩) = some ys) : h.Route ((r, s) :: path) := by
  obtain ⟨_, same, foundR⟩ := items?_eq_some_iff.mp first
  obtain ⟨_, same', foundS⟩ := items?_eq_some_iff.mp second
  cases same
  cases same'
  exact route.cons unmet foundR foundS

theorem Route.entries (unmet : (r, s) ∉ path) (first : h.entries? (.ref ⟨.mapping, r⟩) = some xs)
    (second : h.entries? (.ref ⟨.mapping, s⟩) = some ys) : h.Route ((r, s) :: path) := by
  obtain ⟨_, same, foundR⟩ := entries?_eq_some_iff.mp first
  obtain ⟨_, same', foundS⟩ := entries?_eq_some_iff.mp second
  cases same
  cases same'
  exact route.cons unmet foundR foundS

theorem Route.alike (bisimilar : h.Bisimilar h.Finds a b)
    (enough : h.cells.size * h.cells.size < fuel + path.length) :
    (h.likenessBelow fuel path a b).alike = true := by
  induction fuel generalizing path a b with
  | zero =>
    have short := route.length_le
    omega
  | succ fuel ih =>
    have enough' : ∀ p : Nat × Nat, h.cells.size * h.cells.size < fuel + (p :: path).length := by
      simp only [length_cons]
      omega
    rw [likenessBelow_succ_iff]
    by_cases met : Assumed path a b
    · exact .inl met
    · refine .inr (bisimilar.like.imp ?_ ?_)
      · intro xs ys first second x _ y _ inside
        obtain ⟨r, rfl, -⟩ := items?_eq_some_iff.mp first
        obtain ⟨s, rfl, -⟩ := items?_eq_some_iff.mp second
        have unmet : (r, s) ∉ path := fun found => met ⟨_, r, s, .inl rfl, rfl, rfl, found⟩
        exact ih (route.items unmet first second) inside (enough' _)
      · intro xs ys first second e _ value found inside
        obtain ⟨r, rfl, -⟩ := entries?_eq_some_iff.mp first
        obtain ⟨s, rfl, -⟩ := entries?_eq_some_iff.mp second
        have unmet : (r, s) ∉ path := fun found => met ⟨_, r, s, .inr rfl, rfl, rfl, found⟩
        exact ⟨found, ih (route.entries unmet first second) inside (enough' _)⟩

end

theorem Bisimilar.deepEquals (bisimilar : h.Bisimilar h.Finds a b) : h.deepEquals a b = true := by
  have start : h.Route [] := ⟨.nil, by simp⟩
  exact start.alike bisimilar (by simp)

theorem Route.likenessBelow_succ (route : h.Route path)
    (enough : h.cells.size * h.cells.size < fuel + path.length) :
    h.likenessBelow (fuel + 1) path a b = h.likenessBelow fuel path a b := by
  induction fuel generalizing path a b with
  | zero =>
    have short := route.length_le
    omega
  | succ fuel ih =>
    have enough' : ∀ p : Nat × Nat, h.cells.size * h.cells.size < fuel + (p :: path).length := by
      simp only [length_cons]
      omega
    by_cases apart : ∀ k r s, a = .ref ⟨k, r⟩ → b = .ref ⟨k, s⟩ → a.Flat
    · rw [likenessBelow_apart apart, likenessBelow_apart apart]
    · push Not at apart
      obtain ⟨k, r, s, rfl, rfl, notFlat⟩ := apart
      cases k with
      | string | buffer => exact absurd (by simp [Value.Flat]) notFlat
      | array =>
        rw [likenessBelow, likenessBelow]
        split
        · rfl
        · rename_i unmet
          split
          · rename_i xs ys first second
            have route' := route.items (by simp_all) first second
            split
            · exact Likeness.all_congr fun p _ => ih route' (enough' _)
            · rfl
          · rfl
      | mapping =>
        rw [likenessBelow, likenessBelow]
        split
        · rfl
        · rename_i unmet
          split
          · rename_i xs ys first second
            have route' := route.entries (by simp_all) first second
            simp only [ih route' (enough' _)]
          · rfl
      | function => simp [likenessBelow]

/-! ### What is found to be alike -/

/-- References name payloads by their kinds throughout. -/
def Typed (h : Heap) : Prop := ∀ id v, h.Holds id v → h.Refers v

def Names (h : Heap) (v : Value) : Prop :=
  ∃ r p, v = .ref r ∧ h.payload? r.id = some p ∧ p.kind = r.kind

theorem Like.kind_eq {r s : Ref} (like : h.Like look R (.ref r) (.ref s)) : r.kind = s.kind := by
  cases like with
  | same | function => rfl
  | array first second =>
    obtain ⟨_, same, -⟩ := items?_eq_some_iff.mp first
    obtain ⟨_, same', -⟩ := items?_eq_some_iff.mp second
    cases same
    cases same'
    rfl
  | mapping first second =>
    obtain ⟨_, same, -⟩ := entries?_eq_some_iff.mp first
    obtain ⟨_, same', -⟩ := entries?_eq_some_iff.mp second
    cases same
    cases same'
    rfl
  | flat _ equal => exact (equals_ref_iff.mp equal).1

/-- The pairs that are taken as related below a path. -/
def Taken (h : Heap) (path : List (Nat × Nat)) (a b : Value) : Prop := Assumed path a b ∧ h.Names a

/-- A payload has one kind, so below two values only these two are taken in addition. -/
theorem Taken.cases_lengthen (like : h.Like look R a b) (refers : h.Refers a)
    (taken : h.Taken (lengthen path a b) x y) : h.Taken path x y ∨ x = a ∧ y = b := by
  obtain ⟨⟨k, r, s, container, rfl, rfl, met⟩, names⟩ := taken
  have before : (r, s) ∈ path → h.Taken path (.ref ⟨k, r⟩) (.ref ⟨k, s⟩) :=
    fun met => ⟨⟨k, r, s, container, rfl, rfl, met⟩, names⟩
  obtain ⟨_, p, same, found, kind⟩ := names
  cases same
  unfold lengthen at met
  split at met
  · rename_i ra rb
    rcases mem_cons.mp met with here | above
    · obtain ⟨rfl, rfl⟩ := Prod.mk.inj here
      have kindA : p.kind = ra.kind := (refers ra rfl).2 p found
      obtain rfl : k = ra.kind := kind.symm.trans kindA
      exact .inr ⟨rfl, by rw [like.kind_eq]⟩
    · exact .inl (before above)
  · exact .inl (before met)

theorem live_cons (live : ∀ p ∈ path, h.live p.1 = true) (found : h.payload? r = some q) :
    ∀ p ∈ (r, s) :: path, h.live p.1 = true := by
  rintro p (_ | ⟨_, mem⟩)
  · simp [Heap.live, found]
  · exact live p mem

theorem Typed.bisimilarUpTo (typed : h.Typed) (live : ∀ p ∈ path, h.live p.1 = true)
    (refersA : h.Refers a) (refersB : h.Refers b)
    (alike : (h.likenessBelow fuel path a b).alike = true) :
    h.BisimilarUpTo h.Finds (h.Taken path) a b ∨ h.Taken path a b := by
  induction fuel generalizing path a b with
  | zero => simp [likenessBelow] at alike
  | succ fuel ih =>
    rcases likenessBelow_succ_iff.mp alike with assumed | like
    · obtain ⟨k, r, s, container, rfl, rfl, met⟩ := assumed
      obtain ⟨p, found⟩ := Option.isSome_iff_exists.mp (live _ met)
      exact .inr ⟨⟨k, r, s, container, rfl, rfl, met⟩, _, p, rfl, found, (refersA _ rfl).2 p found⟩
    · have below : h.Like h.Finds (fun x y =>
          h.BisimilarUpTo h.Finds (h.Taken (lengthen path a b)) x y ∨
            h.Taken (lengthen path a b) x y) a b := by
        refine like.imp ?_ ?_
        · intro xs ys first second x memberX y memberY inside
          obtain ⟨r, rfl, foundR⟩ := items?_eq_some_iff.mp first
          obtain ⟨s, rfl, foundS⟩ := items?_eq_some_iff.mp second
          exact ih (live_cons live foundR) (typed r x ⟨_, foundR, .item memberX⟩)
            (typed s y ⟨_, foundS, .item memberY⟩) inside
        · intro xs ys first second e mem value found inside
          obtain ⟨r, rfl, foundR⟩ := entries?_eq_some_iff.mp first
          obtain ⟨s, rfl, foundS⟩ := entries?_eq_some_iff.mp second
          obtain ⟨e', mem', -, rfl⟩ := found.hasKey
          exact ⟨found, ih (live_cons live foundR) (typed r _ ⟨_, foundR, .value mem⟩)
            (typed s _ ⟨_, foundS, .value mem'⟩) inside⟩
      exact .inl (.accumulate (fun x y => Taken.cases_lengthen like refersA) below)

theorem Typed.deepEquals_iff (typed : h.Typed) (refersA : h.Refers a) (refersB : h.Refers b) :
    h.deepEquals a b = true ↔ h.Bisimilar h.Finds a b := by
  refine ⟨fun equal => ?_, Bisimilar.deepEquals⟩
  have nothing : ∀ x y, ¬ h.Taken [] x y := by
    rintro x y ⟨⟨_, _, _, -, -, -, met⟩, -⟩
    simp at met
  obtain bisimilar | taken := typed.bisimilarUpTo (by simp) refersA refersB equal
  · exact bisimilar.bisimilar nothing
  · exact absurd taken (nothing a b)

end Heap

end Tenancy
