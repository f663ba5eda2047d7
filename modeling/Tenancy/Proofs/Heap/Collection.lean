import Mathlib.Data.List.Perm.Lattice
import Tenancy.Heap.Collect
import Tenancy.Proofs.Heap.Aspect

/-!
Collection keeps exactly what is reached.

A payload of the list is reached from a root, or from a payload that is reached, and every payload
on the way belongs to the list. While marking goes on, the payloads of the list are those that have
been marked and those that wait. Marked payloads are reached, and what a marked payload holds waits
no longer, unless the payload is pending.
-/

namespace Tenancy

open List Option Heap Aspect

/-- The values in a container: elements of an array, keys and values of a mapping. -/
inductive Payload.Holds : Payload → Value → Prop where
  | item {items : List Value} {v : Value} : v ∈ items → Holds (.array items) v
  | key {entries : List Entry} {e : Entry} : e ∈ entries → Holds (.mapping entries) e.key
  | value {entries : List Entry} {e : Entry} : e ∈ entries → Holds (.mapping entries) e.value

theorem Payload.mem_children {p : Payload} : v ∈ p.children ↔ p.Holds v := by
  constructor
  · intro held
    cases p with
    | array items => exact .item held
    | mapping entries =>
      obtain ⟨e, entry, held⟩ := mem_flatMap.mp held
      rcases mem_pair.mp held with rfl | rfl
      · exact .key entry
      · exact .value entry
    | string _ | buffer _ | function _ _ => simp [children] at held
  · intro held
    cases held with
    | item held => exact held
    | key entry => exact mem_flatMap.mpr ⟨_, entry, by simp⟩
    | value entry => exact mem_flatMap.mpr ⟨_, entry, by simp⟩

namespace Heap

variable {h : Heap} {id : Nat}

def Holds (h : Heap) (id : Nat) (v : Value) : Prop := ∃ p, h.payload? id = some p ∧ p.Holds v

theorem mem_childrenOf : v ∈ Marking.childrenOf h id ↔ h.Holds id v := by
  unfold Marking.childrenOf Holds
  cases h.payload? id with
  | none => simp
  | some p => simp [Payload.mem_children]

/-- Payloads of a list that are reached from roots through payloads of the list. -/
inductive Reached (h : Heap) (list : ListId) (root : Value → Prop) : Nat → Prop where
  | root {r : Ref} : root (.ref r) → h.owner? r.id = some list → Reached h list root r.id
  | child {parent : Nat} {r : Ref} : Reached h list root parent →
      h.Holds parent (.ref r) → h.owner? r.id = some list → Reached h list root r.id

theorem Reached.owned {list : ListId} {root : Value → Prop} (reached : h.Reached list root id) :
    h.owner? id = some list := by
  cases reached with
  | root _ owned => exact owned
  | child _ _ owned => exact owned

theorem Reached.mono {list : ListId} {root root' : Value → Prop} (more : ∀ v, root v → root' v)
    (reached : h.Reached list root id) : h.Reached list root' id := by
  induction reached with
  | root isRoot owned => exact .root (more _ isRoot) owned
  | child _ held owned ih => exact .child ih held owned

end Heap

namespace Marking

variable {h : Heap} {list : ListId} {root : Value → Prop} {m : Marking} {marked : List Nat}

/-- How far marking has come; `marked` are the payloads in the order in which they were reached. -/
structure Sound (h : Heap) (list : ListId) (root : Value → Prop) (m : Marking)
    (marked : List Nat) : Prop where
  heap : m.heap = (h.takeAll list).2.adoptAll list marked
  parted : (marked ++ m.waiting).Perm (h.members list)
  reached : ∀ id ∈ marked, h.Reached list root id
  pending : ∀ id ∈ m.pending, id ∈ marked

/-- What a value refers to waits no longer. -/
def Passed (m : Marking) (v : Value) : Prop := ∀ r, v = .ref r → r.id ∉ m.waiting

/-- What the marked payloads hold has been passed, save for those that are pending. -/
def Followed (h : Heap) (m : Marking) (marked : List Nat) : Prop :=
  ∀ id ∈ marked, id ∉ m.pending → ∀ v ∈ childrenOf h id, m.Passed v

/-- What one or more marks lead to. -/
structure Extends (m m' : Marking) (more : List Nat) : Prop where
  pending : ∀ id, id ∈ m'.pending ↔ id ∈ more ∨ id ∈ m.pending
  waiting : m'.waiting ⊆ m.waiting
  steps : m'.steps = m.steps

theorem Extends.refl (m : Marking) : m.Extends m [] :=
  ⟨by simp, List.Subset.refl _, rfl⟩

theorem Extends.trans (first : m.Extends m' more)
    (second : m'.Extends m'' later) : m.Extends m'' (more ++ later) where
  pending id := by
    rw [second.pending, first.pending, mem_append]
    tauto
  waiting := List.Subset.trans second.waiting first.waiting
  steps := second.steps.trans first.steps

theorem Passed.mono {m' : Marking} {v : Value} (passed : m.Passed v)
    (fewer : m'.waiting ⊆ m.waiting) : m'.Passed v :=
  fun r same waits => passed r same (fewer waits)

theorem mark_sound (sane : h.Consistent) (sound : Sound h list root m marked)
    (source : ∀ r, v = .ref r → r.id ∈ h.members list → h.Reached list root r.id) :
    ∃ more, Sound h list root (mark list m v) (marked ++ more) ∧
      m.Extends (mark list m v) more ∧ (mark list m v).Passed v := by
  cases v with
  | nil | integer _ | real _ | object _ =>
    exact ⟨[], by simpa [mark] using sound, .refl m, fun r same => by simp at same⟩
  | ref r =>
    by_cases waits : r.id ∈ m.waiting
    case neg =>
      have unmarked : mark list m (.ref r) = m := by simp [mark, waits]
      rw [unmarked]
      refine ⟨[], by simpa using sound, .refl m, ?_⟩
      rintro _ ⟨⟩
      exact waits
    have marks : mark list m (.ref r) =
        { heap := m.heap.adopt list r.id, waiting := m.waiting.erase r.id,
          pending := r.id :: m.pending } := by simp [mark, waits]
    have once : (marked ++ [r.id] ++ m.waiting.erase r.id).Perm (h.members list) := by
      refine List.Perm.trans ?_ sound.parted
      rw [append_assoc]
      exact (perm_cons_erase waits).symm.append_left marked
    have held : r.id ∈ h.members list := sound.parted.mem_iff.mp (by simp [waits])
    rw [marks]
    refine ⟨[r.id], ⟨?_, once, ?_, ?_⟩, ⟨by simp, erase_subset, ?_⟩, ?_⟩
    · rw [sound.heap]
      simp [adoptAll]
    · intro id isMarked
      rcases mem_append.mp isMarked with old | new
      · exact sound.reached id old
      · obtain rfl := mem_singleton.mp new
        exact source r rfl held
    · intro id isPending
      rcases mem_cons.mp isPending with rfl | old
      · simp
      · exact mem_append_left _ (sound.pending id old)
    · have shorter := length_erase_of_mem waits
      have positive := length_pos_of_mem waits
      simp only [steps, shorter, length_cons]
      omega
    · rintro _ ⟨⟩
      have nodup := nodup_append.mp (sound.parted.nodup_iff.mpr (sane.members_nodup list))
      exact nodup.2.1.not_mem_erase

theorem markAll_sound (sane : h.Consistent) (sound : Sound h list root m marked)
    (source : ∀ r, .ref r ∈ values → r.id ∈ h.members list → h.Reached list root r.id) :
    ∃ more, Sound h list root (markAll list m values) (marked ++ more) ∧
      m.Extends (markAll list m values) more ∧ ∀ v ∈ values, (markAll list m values).Passed v := by
  unfold markAll
  induction values generalizing m marked with
  | nil => exact ⟨[], by simpa using sound, .refl m, by simp⟩
  | cons v rest ih =>
    obtain ⟨first, soundFirst, extendsFirst, passed⟩ :=
      mark_sound sane sound (v := v) fun r same => source r (by simp [same])
    obtain ⟨later, soundLater, extendsLater, passedLater⟩ :=
      ih soundFirst fun r held => source r (by simp [held])
    refine ⟨first ++ later, by simpa using soundLater, extendsFirst.trans extendsLater, ?_⟩
    intro w held
    rcases mem_cons.mp held with rfl | held
    · exact passed.mono extendsLater.waiting
    · exact passedLater w held

theorem Sound.childrenOf_eq (sound : Sound h list root m marked) (sane : h.Consistent)
    (id : Nat) : childrenOf m.heap id = childrenOf h id := by
  unfold childrenOf
  congr 1
  rw [sound.heap, payload?_eq, aspect?_adoptAll, sane.aspect?_takeAll, payload?_eq]
  cases h.aspect? id with
  | none => rfl
  | some a =>
    simp only [map_some, bind_some, released, adopted]
    split <;> split <;> try split
    all_goals rfl

theorem drain_sound (sane : h.Consistent) (sound : Sound h list root m marked)
    (followed : Followed h m marked) (enough : m.steps ≤ fuel) :
    ∃ more, Sound h list root (drain list fuel m) (marked ++ more) ∧
      (drain list fuel m).waiting ⊆ m.waiting ∧
      ∀ id ∈ marked ++ more, ∀ v ∈ childrenOf h id, (drain list fuel m).Passed v := by
  -- Each round takes one pending payload off, and what it adds to those pending waits no longer.
  induction fuel generalizing m marked with
  | zero =>
    have none : m.pending = [] := by
      simp only [steps, Nat.le_zero, Nat.add_eq_zero_iff, length_eq_zero_iff] at enough
      exact enough.2
    refine ⟨[], by simpa [drain] using sound, List.Subset.refl _, ?_⟩
    intro id isMarked
    exact followed id (by simpa using isMarked) (by simp [none])
  | succ fuel ih =>
    rw [drain]
    cases pendingEq : m.pending with
    | nil =>
      refine ⟨[], by simpa using sound, List.Subset.refl _, ?_⟩
      intro id isMarked
      exact followed id (by simpa using isMarked) (by simp [pendingEq])
    | cons id pending =>
      have popped : Sound h list root { m with pending } marked :=
        ⟨sound.heap, sound.parted, sound.reached,
          fun other held => sound.pending other (by simp [pendingEq, held])⟩
      have isMarked : id ∈ marked := sound.pending id (by simp [pendingEq])
      have source : ∀ r, .ref r ∈ childrenOf m.heap id → r.id ∈ h.members list →
          h.Reached list root r.id := by
        intro r held mem
        rw [sound.childrenOf_eq sane] at held
        exact .child (sound.reached id isMarked) (mem_childrenOf.mp held)
          (sane.mem_members_iff_owner.mp mem)
      obtain ⟨first, soundFirst, extendsFirst, passed⟩ := markAll_sound sane popped source
      have followedFirst : Followed h
          (markAll list { m with pending } (childrenOf m.heap id)) (marked ++ first) := by
        intro other otherMarked notPending v held
        simp only [extendsFirst.pending, not_or] at notPending
        rcases mem_append.mp otherMarked with old | new
        · by_cases same : other = id
          · subst same
            exact passed v (by rwa [sound.childrenOf_eq sane])
          · refine (followed other old ?_ v held).mono extendsFirst.waiting
            simp [pendingEq, same, notPending.2]
        · exact absurd new notPending.1
      have fewer : (markAll list { m with pending } (childrenOf m.heap id)).steps ≤ fuel := by
        rw [extendsFirst.steps]
        simp only [steps, pendingEq, length_cons] at enough ⊢
        omega
      obtain ⟨later, soundLater, waiting, passedLater⟩ := ih soundFirst followedFirst fewer
      refine ⟨first ++ later, by simpa using soundLater,
        List.Subset.trans waiting extendsFirst.waiting, ?_⟩
      intro other otherMarked
      exact passedLater other (by simpa using otherMarked)

end Marking

namespace Heap

variable {h : Heap} {list : ListId} {roots : List Value} {i id : Nat}

theorem Consistent.collect_parts (sane : h.Consistent) (list : ListId) (roots : List Value) :
    ∃ marked waiting, (marked ++ waiting).Perm (h.members list) ∧
      (∀ id, id ∈ marked ↔ h.Reached list (· ∈ roots) id) ∧ (h.collect list roots).2 =
        (((h.takeAll list).2.adoptAll list marked).freeEach waiting).resetAllocated list ∧
      (h.collect list roots).1.freed = waiting.length := by
  have start : Marking.Sound h list (· ∈ roots)
      { heap := (h.takeAll list).2, waiting := h.members list } [] :=
    ⟨rfl, List.Perm.refl _, by simp, by simp⟩
  obtain ⟨first, soundFirst, extendsFirst, passedRoots⟩ :=
    Marking.markAll_sound sane start fun r (isRoot : .ref r ∈ roots) mem =>
      .root isRoot (sane.mem_members_iff_owner.mp mem)
  have followed : Marking.Followed h
      (Marking.markAll list { heap := (h.takeAll list).2, waiting := h.members list } roots)
      ([] ++ first) := by
    intro id isMarked notPending
    simp only [extendsFirst.pending, not_or] at notPending
    exact absurd (by simpa using isMarked) notPending.1
  obtain ⟨later, sound, waiting, passed⟩ :=
    Marking.drain_sound sane soundFirst followed le_rfl
  refine ⟨_, _, sound.parted, fun id => ⟨sound.reached id, fun reached => ?_⟩, ?_, rfl⟩
  · -- What is reached no longer waits, by induction on how it is reached.
    have parted : ∀ {id}, h.owner? id = some list → id ∉ _ → id ∈ [] ++ first ++ later :=
      fun owned notWaiting => (mem_append.mp (sound.parted.mem_iff.mpr
        (sane.mem_members_iff_owner.mpr owned))).resolve_right notWaiting
    induction reached with
    | root isRoot owned => exact parted owned ((passedRoots _ isRoot).mono waiting _ rfl)
    | child _ held owned ih => exact parted owned (passed _ ih _ (mem_childrenOf.mpr held) _ rfl)
  · rw [← sound.heap]
    rfl

theorem getElem?_adoptAll_of_not_mem (apart : i ∉ ids) (h : Heap) :
    (h.adoptAll list ids).cells[i]? = h.cells[i]? := by
  unfold adoptAll
  induction ids generalizing h with
  | nil => rfl
  | cons id rest ih =>
    simp only [mem_cons, not_or] at apart
    rw [foldl_cons, ih apart.2, adopt]
    split
    · rfl
    · simp [occupy, Ne.symm apart.1]

theorem getElem?_freeEach_of_not_mem (apart : i ∉ ids) (h : Heap) :
    (h.freeEach ids).cells[i]? = h.cells[i]? := by
  unfold freeEach
  induction ids generalizing h with
  | nil => rfl
  | cons id rest ih =>
    simp only [mem_cons, not_or] at apart
    rw [foldl_cons, ih apart.2, getElem?_free]
    simp [apart.1]

theorem getElem?_takeAll_of_not_mem (apart : i ∉ h.members list) :
    (h.takeAll list).2.cells[i]? = h.cells[i]? := by
  rw [takeAll_eq, cells_modifyList, getElem?_release]
  simp [apart]

section

variable (sane : h.Consistent)
include sane

theorem Consistent.collect (list : ListId) (roots : List Value) :
    (h.collect list roots).2.Consistent := by
  obtain ⟨marked, waiting, parted, -, result, -⟩ := sane.collect_parts list roots
  have mem : ∀ id ∈ marked ++ waiting, id ∈ h.members list := fun id => parted.mem_iff.mp
  have distinct := parted.nodup_iff.mpr (sane.members_nodup list)
  rw [result]
  have adopted : ((h.takeAll list).2.adoptAll list marked).Consistent := by
    cases marked with
    | nil => exact sane.takeAll list
    | cons id rest =>
      obtain ⟨b, bound, rfl⟩ := sane.mem_members.mp (mem id (by simp))
      apply (sane.takeAll b.list).adoptAll (by simpa using sane.list_valid bound)
      intro other held
      simpa using mem_members_within sane (mem other (mem_append_left _ held))
  refine Consistent.resetAllocated (adopted.freeEach fun id waits => ?_) list
  have apart : id ∉ marked := fun isMarked =>
    (nodup_append.mp distinct).2.2 id isMarked id waits rfl
  rw [binding?_congr (getElem?_adoptAll_of_not_mem apart _)]
  exact sane.unbound_takeAll (mem id (by simp [waits]))

/-- A payload of the list that is not reached is freed, and every other one stays as it is. -/
theorem Consistent.aspect?_collect (list : ListId) (roots : List Value) (i : Nat)
    [Decidable (h.Reached list (· ∈ roots) i)] :
    (h.collect list roots).2.aspect? i = (h.aspect? i).map fun a =>
      if a.owner = some list ∧ ¬ h.Reached list (· ∈ roots) i then a.freed else a := by
  obtain ⟨marked, waiting, parted, reached, result, -⟩ := sane.collect_parts list roots
  have mem : i ∈ marked ∨ i ∈ waiting ↔ h.owner? i = some list := by
    rw [← sane.mem_members_iff_owner, ← parted.mem_iff, mem_append]
  have apart : i ∈ marked → i ∉ waiting := fun isMarked waits =>
    (nodup_append.mp (parted.nodup_iff.mpr (sane.members_nodup list))).2.2 i isMarked i waits rfl
  have ownable : h.owner? i = some list → h.unowned i = false := sane.not_unowned
  rw [result, Heap.resetAllocated, aspect?_modifyList, aspect?_freeEach, aspect?_adoptAll,
    sane.aspect?_takeAll, Option.map_map, Option.map_map]
  rw [owner?_eq] at mem ownable
  rw [unowned_eq] at ownable
  cases seen : h.aspect? i with
  | none => rfl
  | some a =>
    simp only [seen, Option.bind_some, Option.any_some] at mem ownable
    simp only [Option.map_some, Function.comp_apply, ← reached]
    by_cases owned : a.owner = some list
    case neg =>
      have outside : i ∉ marked ∧ i ∉ waiting := not_or.mp (mt mem.mp owned)
      simp [outside, owned, released]
    have free := ownable owned
    by_cases isMarked : i ∈ marked
    · have taken : (a.released list).adopted list = a := by
        have ownerless : ({ a with owner := none } : Aspect).unowned = false := free
        simp [released, adopted, owned, ownerless]
        simp [← owned]
      simp [isMarked, apart isMarked, taken]
    · have waits : i ∈ waiting := (mem.mpr owned).resolve_left isMarked
      simp [isMarked, waits, owned, released, freed]

theorem Consistent.aspect?_collect_of_reached
    (reached : h.Reached list (· ∈ roots) id) : (h.collect list roots).2.aspect? id = h.aspect? id := by
  classical
  rw [sane.aspect?_collect]
  cases h.aspect? id with
  | none => rfl
  | some a => rw [map_some, if_neg fun both => both.2 reached]

theorem Consistent.aspect?_collect_of_unreached (owned : h.owner? id = some list)
    (unreached : ¬ h.Reached list (· ∈ roots) id) :
    (h.collect list roots).2.aspect? id = (h.aspect? id).map freed := by
  classical
  rw [sane.aspect?_collect]
  rw [owner?_eq] at owned
  obtain ⟨a, seen, owner⟩ := bind_eq_some_iff.mp owned
  rw [seen, map_some, if_pos ⟨owner, unreached⟩, map_some]

theorem Consistent.owner?_collect :
    (h.collect list roots).2.owner? id = some list ↔ h.Reached list (· ∈ roots) id := by
  classical
  rw [owner?_eq, sane.aspect?_collect, bind_map]
  constructor
  · intro owned
    obtain ⟨a, seen, kept⟩ := bind_eq_some_iff.mp owned
    by_contra unreached
    by_cases owner : a.owner = some list <;> simp [owner, unreached, freed] at kept
  · intro reached
    have owned := reached.owned
    rw [owner?_eq] at owned
    simpa [reached, Function.comp_def] using owned

theorem Consistent.mem_members_collect :
    id ∈ (h.collect list roots).2.members list ↔ h.Reached list (· ∈ roots) id := by
  rw [(sane.collect list roots).mem_members_iff_owner, sane.owner?_collect]

theorem Consistent.size_collect (list : ListId) (roots : List Value) : (h.list list).size =
      ((h.collect list roots).2.list list).size + (h.collect list roots).1.freed := by
  obtain ⟨marked, waiting, parted, reached, -, freed⟩ := sane.collect_parts list roots
  have distinct := parted.nodup_iff.mpr (sane.members_nodup list)
  have kept : ((h.collect list roots).2.members list).Perm marked := by
    rw [perm_ext_iff_of_nodup ((sane.collect list roots).members_nodup list)
      (nodup_append.mp distinct).1]
    intro id
    rw [sane.mem_members_collect, reached]
  rw [sane.size_eq, (sane.collect list roots).size_eq, kept.length_eq, freed,
    ← parted.length_eq, length_append]

theorem Consistent.getElem?_collect (elsewhere : h.owner? id ≠ some list) :
    (h.collect list roots).2.cells[id]? = h.cells[id]? := by
  obtain ⟨marked, waiting, parted, -, result, -⟩ := sane.collect_parts list roots
  have apart : id ∉ h.members list := mt sane.mem_members_iff_owner.mp elsewhere
  have outside : id ∉ marked ∧ id ∉ waiting := by
    rwa [← parted.mem_iff, mem_append, not_or] at apart
  rw [result, Heap.resetAllocated, cells_modifyList, getElem?_freeEach_of_not_mem outside.2,
    getElem?_adoptAll_of_not_mem outside.1, getElem?_takeAll_of_not_mem apart]

theorem Consistent.list_collect_of_ne
    (ne : other ≠ list) : (h.collect list roots).2.list other = h.list other := by
  obtain ⟨marked, waiting, -, -, result, -⟩ := sane.collect_parts list roots
  rw [result, Heap.resetAllocated, list_modifyList_of_ne ne, ← list_takeAll_of_ne ne h,
    ← list_adoptAll_of_ne ne (h.takeAll list).2 marked]
  simp [Heap.list]

end

theorem allocated_collect (h : Heap) (list : ListId) (roots : List Value) :
    ((h.collect list roots).2.list list).allocated = 0 := by
  unfold collect resetAllocated
  dsimp only
  generalize (freeEach _ _) = swept
  by_cases valid : list.number < swept.lists.size
  · rw [list_modifyList valid]
  · rw [modifyList_of_missing valid, list_of_missing valid]

theorem Consistent.size_cells_collect (sane : h.Consistent) (list : ListId)
    (roots : List Value) : (h.collect list roots).2.cells.size = h.cells.size := by
  obtain ⟨marked, waiting, -, -, result, -⟩ := sane.collect_parts list roots
  simp [result, Heap.resetAllocated]

theorem Consistent.size_lists_collect (sane : h.Consistent) (list : ListId)
    (roots : List Value) : (h.collect list roots).2.lists.size = h.lists.size := by
  obtain ⟨marked, waiting, -, -, result, -⟩ := sane.collect_parts list roots
  simp [result, Heap.resetAllocated]

end Heap

end Tenancy
