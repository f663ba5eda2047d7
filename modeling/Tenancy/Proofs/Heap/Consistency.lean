import Mathlib.Data.List.Perm.Basic
import Mathlib.Order.Nat
import Tenancy.Heap.Ownership

/-!
The ownership of payloads, from both sides.

A cell names the slot that owns its payload, and a slot names its payload. In a consistent heap the
two agree, constant and shared payloads have no owner, and every list is tidy. The operations of a
heap keep it consistent.
-/

namespace Tenancy

/-! ### Value lists on their own -/

section

open List Heap

namespace ListSlot

theorem occupants_modify {slots : List ListSlot} {s : ListSlot} (found : slots[i]? = some s)
    (f : ListSlot → ListSlot) : (s.occupant.toList ++ (slots.modify i f).filterMap occupant).Perm
      ((f s).occupant.toList ++ slots.filterMap occupant) := by
  induction slots generalizing i with
  | nil => simp at found
  | cons head rest ih =>
    cases i with
    | zero =>
      obtain rfl : head = s := by simpa using found
      simp only [modify_zero_cons]
      cases first : head.occupant <;> cases second : (f head).occupant <;>
        simp [first, second, List.Perm.swap]
    | succ i =>
      have later := ih (by simpa using found)
      simp only [modify_succ_cons, filterMap_cons]
      cases head.occupant with
      | none => exact later
      | some id =>
        calc
          (s.occupant.toList ++ id :: (rest.modify i f).filterMap occupant).Perm
              (id :: (s.occupant.toList ++ (rest.modify i f).filterMap occupant)) :=
            perm_middle
          _ |>.Perm (id :: ((f s).occupant.toList ++ rest.filterMap occupant)) := later.cons id
          _ |>.Perm ((f s).occupant.toList ++ id :: rest.filterMap occupant) :=
            perm_middle.symm

end ListSlot

namespace ValueList

variable {list : ValueList} {id slot : Nat} {generation : UInt32}

def occupants (list : ValueList) : List Nat := list.slots.toList.filterMap ListSlot.occupant

def emptied (list : ValueList) : ValueList :=
  { slots := list.slots.map fun s => if s.occupant.isSome then vacated s else s
    free := range list.slots.size
    size := 0
    allocated := 0 }

/-- The list after the payload in a slot has been given up. -/
def vacate (list : ValueList) (slot : Nat) : ValueList :=
  { list with
    slots := list.slots.modify slot vacated
    free := slot :: list.free
    size := list.size - 1 }

structure Tidy (list : ValueList) : Prop where
  size_eq : list.size = list.occupants.length
  free_nodup : list.free.Nodup
  mem_free : ∀ slot, slot ∈ list.free ↔ ∃ generation, list.slots[slot]? = some ⟨generation, none⟩

theorem tidy_empty : Tidy {} where
  size_eq := rfl
  free_nodup := nodup_nil
  mem_free := by simp

theorem mem_occupants : id ∈ list.occupants ↔
      ∃ (slot : Nat) (generation : UInt32), list.slots[slot]? = some ⟨generation, some id⟩ := by
  simp only [occupants, mem_filterMap, Array.mem_toList_iff, Array.mem_iff_getElem?]
  constructor
  · rintro ⟨⟨generation, occupant⟩, ⟨slot, found⟩, rfl⟩
    exact ⟨slot, generation, found⟩
  · rintro ⟨slot, generation, found⟩
    exact ⟨_, ⟨slot, found⟩, rfl⟩

theorem Tidy.nextSlot_vacant (tidy : list.Tidy) :
    list.slots[list.nextSlot.1]? = some ⟨list.nextSlot.2, none⟩ ∨
      list.nextSlot = (list.slots.size, 0) := by
  unfold nextSlot
  cases freeEq : list.free with
  | nil => exact .inr rfl
  | cons slot rest =>
    obtain ⟨generation, found⟩ := (tidy.mem_free slot).mp (by simp [freeEq])
    exact .inl (by simp [found])

theorem Tidy.not_occupied_nextSlot (tidy : list.Tidy) :
    list.slots[list.nextSlot.1]? ≠ some ⟨generation, some id⟩ := by
  rcases tidy.nextSlot_vacant with vacant | fresh
  · simp [vacant]
  · simp [fresh]

theorem Tidy.getElem?_insert (tidy : list.Tidy) (id slot : Nat) : (list.insert id).slots[slot]? =
      if slot = list.nextSlot.1 then some ⟨list.nextSlot.2, some id⟩ else list.slots[slot]? := by
  unfold insert nextSlot
  cases freeEq : list.free with
  | nil => simp [Array.getElem?_push]
  | cons first rest =>
    obtain ⟨generation, found⟩ := (tidy.mem_free first).mp (by simp [freeEq])
    by_cases same : slot = first
    · simp [same, found, Array.getElem?_modify]
    · simp [same, Ne.symm same, Array.getElem?_modify]

theorem Tidy.occupants_insert (tidy : list.Tidy) (id : Nat) :
    (list.insert id).occupants.Perm (id :: list.occupants) := by
  unfold insert
  cases freeEq : list.free with
  | nil =>
    simp [occupants]
  | cons first rest =>
    obtain ⟨generation, found⟩ := (tidy.mem_free first).mp (by simp [freeEq])
    have listed : list.slots.toList[first]? = some ⟨generation, none⟩ := by simpa using found
    have exchanged := ListSlot.occupants_modify listed fun s => { s with occupant := some id }
    simpa [occupants, Array.toList_modify] using exchanged

theorem Tidy.insert (tidy : list.Tidy) (id : Nat) : (list.insert id).Tidy where
  size_eq := by
    rw [(tidy.occupants_insert id).length_eq, length_cons, ← tidy.size_eq, ValueList.insert]
    cases list.free <;> rfl
  free_nodup := by
    have distinct := tidy.free_nodup
    unfold ValueList.insert
    cases freeEq : list.free with
    | nil => exact nodup_nil
    | cons first rest => exact (nodup_cons.mp (freeEq ▸ distinct)).2
  mem_free := by
    intro slot
    rw [tidy.getElem?_insert]
    have vacant := tidy.mem_free slot
    have distinct := tidy.free_nodup
    unfold ValueList.insert nextSlot
    cases freeEq : list.free with
    | nil =>
      simp only [freeEq, not_mem_nil, false_iff] at vacant
      by_cases same : slot = list.slots.size <;> simp_all
    | cons first rest =>
      rw [freeEq] at vacant distinct
      by_cases same : slot = first
      · simp [same, (nodup_cons.mp distinct).1]
      · simpa [same] using vacant

theorem not_occupied_emptied : list.emptied.slots[slot]? ≠ some ⟨generation, some id⟩ := by
  rw [emptied, Array.getElem?_map]
  cases list.slots[slot]? with
  | none => simp
  | some s =>
    rcases s with ⟨_, _ | other⟩ <;> simp [vacated]

theorem occupants_emptied (list : ValueList) : list.emptied.occupants = [] := by
  rw [eq_nil_iff_forall_not_mem]
  intro id membership
  obtain ⟨slot, generation, found⟩ := mem_occupants.mp membership
  exact not_occupied_emptied found

theorem tidy_emptied (list : ValueList) : list.emptied.Tidy where
  size_eq := by rw [occupants_emptied]; rfl
  free_nodup := nodup_range
  mem_free := by
    intro slot
    constructor
    · intro free
      have within : slot < list.emptied.slots.size := by simpa [emptied] using free
      cases found : list.emptied.slots[slot]? with
      | none => simp at found; omega
      | some s =>
        rcases s with ⟨generation, _ | id⟩
        · exact ⟨generation, rfl⟩
        · exact absurd found not_occupied_emptied
    · rintro ⟨generation, found⟩
      have within := (Array.getElem?_eq_some_iff.mp found).1
      simpa [emptied] using within

theorem getElem?_vacate (list : ValueList) (slot i : Nat) : (list.vacate slot).slots[i]? =
      if slot = i then list.slots[i]?.map vacated else list.slots[i]? := by
  simp [vacate, Array.getElem?_modify]

theorem occupants_vacate (found : list.slots[slot]? = some ⟨generation, some id⟩) :
    (id :: (list.vacate slot).occupants).Perm list.occupants := by
  have listed : list.slots.toList[slot]? = some ⟨generation, some id⟩ := by simpa using found
  have exchanged := ListSlot.occupants_modify listed vacated
  simpa [occupants, vacate, vacated, Array.toList_modify] using exchanged

theorem Tidy.vacate (tidy : list.Tidy) (found : list.slots[slot]? = some ⟨generation, some id⟩) :
    (list.vacate slot).Tidy where
  size_eq := by
    have shrunk := (occupants_vacate found).length_eq
    have counted := tidy.size_eq
    simp only [length_cons] at shrunk
    simp only [ValueList.vacate] at shrunk ⊢
    omega
  free_nodup := by
    refine nodup_cons.mpr ⟨?_, tidy.free_nodup⟩
    rw [tidy.mem_free]
    simp [found]
  mem_free := by
    intro i
    rw [getElem?_vacate]
    by_cases same : slot = i
    · subst same
      simp [ValueList.vacate, found, vacated]
    · simpa [ValueList.vacate, same, Ne.symm same] using tidy.mem_free i

end ValueList

end

/-! ### Heaps -/

open Array

/-- A change of a cell that keeps its owner and its exemptions. -/
structure Cell.KeepsOwner (f : Cell → Cell) : Prop where
  binding : ∀ c, (f c).binding = c.binding
  unowned : ∀ c, (f c).unowned = c.unowned

namespace Heap

variable {h h' : Heap} {l : ListId} {id : Nat} {f : Cell → Cell}

@[simp] theorem getElem?_modifyCell (h : Heap) (id i : Nat) (f : Cell → Cell) :
    (h.modifyCell id f).cells[i]? = if id = i then h.cells[i]?.map f else h.cells[i]? :=
  getElem?_modify

@[simp] theorem size_cells_modifyCell (h : Heap) (id : Nat) (f : Cell → Cell) :
    (h.modifyCell id f).cells.size = h.cells.size := by simp [modifyCell]

@[simp] theorem lists_modifyCell (h : Heap) (id : Nat) (f : Cell → Cell) :
    (h.modifyCell id f).lists = h.lists := rfl

@[simp] theorem list_modifyCell (h : Heap) (id : Nat) (f : Cell → Cell) (l : ListId) :
    (h.modifyCell id f).list l = h.list l := rfl

theorem write_eq (h : Heap) (id : Nat) (payload : Payload) : h.write id payload =
    h.modifyCell id fun c => { c with payload := some payload, digest := none } := by
  simp only [write, replace, forgetDigest, modifyCell, mk.injEq, and_true]
  apply ext_getElem?
  intro i
  simp only [getElem?_modify]
  split <;> simp [Function.comp_def]

@[simp] theorem cells_modifyList (h : Heap) (l : ListId) (f : ValueList → ValueList) :
    (h.modifyList l f).cells = h.cells := rfl

@[simp] theorem size_lists_modifyList (h : Heap) (l : ListId) (f : ValueList → ValueList) :
    (h.modifyList l f).lists.size = h.lists.size := by simp [modifyList]

theorem list_modifyList (valid : l.number < h.lists.size) (f : ValueList → ValueList) :
    (h.modifyList l f).list l = f (h.list l) := by
  simp [list, modifyList, valid, getElem_modify]

theorem list_modifyList_of_ne (ne : other ≠ l)
    (f : ValueList → ValueList) : (h.modifyList l f).list other = h.list other := by
  have apart : l.number ≠ other.number := fun same => ne (by cases l; cases other; simp_all)
  simp [list, modifyList, getElem?_modify, apart]

/-- A list that does not exist is empty and stays so. -/
theorem modifyList_of_missing (missing : ¬ l.number < h.lists.size)
    (f : ValueList → ValueList) : h.modifyList l f = h := by
  have unchanged : h.lists.modify l.number f = h.lists := by
    apply ext_getElem?
    intro i
    rw [getElem?_modify]
    split
    · subst i
      simp [getElem?_eq_none (Nat.le_of_not_lt missing)]
    · rfl
  simp [modifyList, unchanged]

theorem list_of_missing (missing : ¬ l.number < h.lists.size) : h.list l = {} := by
  simp [list, getElem?_eq_none (Nat.le_of_not_lt missing)]

theorem members_eq (h : Heap) (l : ListId) : h.members l = (h.list l).occupants := rfl

theorem binding?_congr (same : h'.cells[id]? = h.cells[id]?) :
    h'.binding? id = h.binding? id := by simp [binding?, same]

theorem payload?_congr (same : h'.cells[id]? = h.cells[id]?) :
    h'.payload? id = h.payload? id := by simp [payload?, same]

/-- Slots and cells agree on who owns what. -/
structure Consistent (h : Heap) : Prop where
  tidy : ∀ l, (h.list l).Tidy
  bound : ∀ {l : ListId} {slot : Nat} {generation : UInt32} {id : Nat},
    (h.list l).slots[slot]? = some ⟨generation, some id⟩ →
      h.binding? id = some ⟨l, slot, generation⟩
  occupied : ∀ {id : Nat} {b : Binding}, h.binding? id = some b →
    (h.list b.list).slots[b.slot]? = some ⟨b.generation, some id⟩
  exempt : ∀ {id : Nat}, h.unowned id = true → h.binding? id = none

namespace Consistent

theorem mem_members (sane : h.Consistent) :
    id ∈ h.members l ↔ ∃ b, h.binding? id = some b ∧ b.list = l := by
  rw [members_eq, ValueList.mem_occupants]
  constructor
  · rintro ⟨slot, generation, found⟩
    exact ⟨_, sane.bound found, rfl⟩
  · rintro ⟨b, bound, rfl⟩
    exact ⟨b.slot, b.generation, sane.occupied bound⟩

theorem list_valid (sane : h.Consistent) (bound : h.binding? id = some b) :
    b.list.number < h.lists.size := by
  by_contra missing
  have found := sane.occupied bound
  simp [list_of_missing missing] at found

section

variable (sane : h.Consistent)
include sane

theorem members_nodup (l : ListId) : (h.members l).Nodup := by
  rw [members, List.Nodup, List.pairwise_filterMap, List.pairwise_iff_getElem]
  intro i j iBound jBound before first firstHeld second secondHeld same
  subst same
  have found : ∀ k (bound : k < (h.list l).slots.toList.length),
      (h.list l).slots.toList[k].occupant = some first →
        h.binding? first = some ⟨l, k, (h.list l).slots.toList[k].generation⟩ := by
    intro k bound held
    apply sane.bound
    rw [← held]
    simp at bound
    simp [bound]
  have bindings := (found i iBound firstHeld).symm.trans (found j jBound secondHeld)
  simp only [Option.some.injEq, Binding.mk.injEq] at bindings
  omega

theorem mem_members_unique (first : id ∈ h.members l)
    (second : id ∈ h.members other) : l = other := by
  obtain ⟨b, bound, rfl⟩ := sane.mem_members.mp first
  obtain ⟨c, bound', rfl⟩ := sane.mem_members.mp second
  rw [bound] at bound'
  rw [Option.some.inj bound']

theorem not_unowned_of_mem (mem : id ∈ h.members l) : h.unowned id = false := by
  obtain ⟨b, bound, -⟩ := sane.mem_members.mp mem
  by_contra unowned
  simp [sane.exempt (by simpa using unowned)] at bound

theorem size_eq (l : ListId) :
    (h.list l).size = (h.members l).length := (sane.tidy l).size_eq

end

end Consistent

theorem consistent_empty : Consistent {} where
  tidy _ := ValueList.tidy_empty
  bound found := by simp [list] at found
  occupied bound := by simp [binding?] at bound
  exempt unowned := by simp [Heap.unowned] at unowned

/-- What says nothing about owners may change freely. -/
theorem Consistent.congr (sane : h.Consistent) (lists : ∀ l, h'.list l = h.list l)
    (bindings : ∀ id, h'.binding? id = h.binding? id)
    (unowned : ∀ id, h'.unowned id = true → h.unowned id = true ∨ h.binding? id = none) :
    h'.Consistent where
  tidy l := lists l ▸ sane.tidy l
  bound found := by
    rw [bindings]
    exact sane.bound (by rwa [lists] at found)
  occupied bound := by
    rw [lists]
    exact sane.occupied (by rwa [bindings] at bound)
  exempt exempt := by
    rw [bindings]
    exact (unowned _ exempt).elim sane.exempt fun unbound => unbound

theorem binding?_modifyCell (h : Heap) (id i : Nat) (kept : ∀ c, (f c).binding = c.binding) :
    (h.modifyCell id f).binding? i = h.binding? i := by
  simp only [binding?, getElem?_modifyCell]
  split
  · cases h.cells[i]? <;> simp [kept]
  · rfl

theorem unowned_modifyCell (h : Heap) (id i : Nat) (kept : ∀ c, (f c).unowned = c.unowned) :
    (h.modifyCell id f).unowned i = h.unowned i := by
  simp only [Heap.unowned, getElem?_modifyCell]
  split
  · cases h.cells[i]? <;> simp [kept]
  · rfl

theorem Consistent.modifyCell (sane : h.Consistent) (id : Nat) (keeps : Cell.KeepsOwner f) :
    (h.modifyCell id f).Consistent :=
  sane.congr (fun _ => rfl) (fun i => binding?_modifyCell h id i keeps.binding)
    fun i exempt => .inl (by rwa [unowned_modifyCell h id i keeps.unowned] at exempt)

end Heap

end Tenancy
