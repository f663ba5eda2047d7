import Mathlib.Algebra.Ring.Nat
import Tenancy.Proofs.Heap.Exchange

/-!
Dealings between value lists.

Who owns a payload is written down five times: in the payload, in the slot of the list with the
slot's generation, in the free slots, and in the size of the list. Whatever payloads and lists are
made, bound, given up, moved and freed, these agree, as long as words can number the slots.

A list keeps the numbers of its slots in words of 32 bits, and a number that is too large for one
stands for another slot. `Heap.Word` has the operations of lists with that loss. As long as no list
has `2 ^ 32` slots they are the operations without it.
-/

namespace Tenancy

open Array

/-! ### Slots that words number -/

namespace Heap

variable {h h' h'' : Heap} {l target source : ListId} {id n : Nat}

/-- What a word keeps of a number. -/
def word (n : Nat) : Nat := n.toUInt32.toNat

theorem word_of_lt (small : n < 2 ^ 32) : word n = n := UInt32.toNat_ofNat_of_lt' small

namespace Word

/-- The slot for the next payload, and the slots of the list with it. A new slot gets the word for its
number. -/
def vacancy (list : ValueList) : Nat × Array ListSlot :=
  match list.free with
  | slot :: _ => (slot, list.slots)
  | [] => (word list.slots.size, list.slots.push {})

def occupy (h : Heap) (l : ListId) (id : Nat) : Heap :=
  let list := h.list l
  let (slot, slots) := vacancy list
  (h.modifyList l fun _ =>
    { slots := slots.modify slot fun s => { s with occupant := some id }
      free := list.free.tail
      size := list.size + 1
      allocated := list.allocated + 1 }).modifyCell id fun c =>
    { c with binding := some ⟨l, slot, (slots[slot]?.getD {}).generation⟩ }

def adopt (h : Heap) (l : ListId) (id : Nat) : Heap :=
  if h.unowned id || (h.binding? id).isSome then h else occupy h l id

def bind (h : Heap) (l : ListId) (id : Nat) : Except Breach Heap :=
  if h.unowned id then .ok h
  else
    match h.binding? id with
    | none => .ok (occupy h l id)
    | some b => if b.list = l then .ok h else .error .boundElsewhere

def takeAll (h : Heap) (l : ListId) : List Nat × Heap :=
  let ids := h.members l
  (ids, (h.release ids).modifyList l fun list =>
    { list.emptied with free := List.range (word list.slots.size) })

def adoptAll (h : Heap) (l : ListId) (ids : List Nat) : Heap := ids.foldl (adopt · l ·) h

def append (h : Heap) (target source : ListId) : Heap :=
  let (ids, h) := takeAll h source
  adoptAll h target ids

def freeAll (h : Heap) (l : ListId) : Heap :=
  let (ids, h) := takeAll h l
  h.freeEach ids

end Word

/-- The number of every slot is a word, and so is the number of slots of every list. -/
def Few (h : Heap) : Prop := ∀ l, (h.list l).slots.size < 2 ^ 32

/-- No list loses slots. -/
def Widens (h h' : Heap) : Prop := ∀ l, (h.list l).slots.size ≤ (h'.list l).slots.size

theorem Few.of_widens (few : h'.Few) (widens : h.Widens h') : h.Few :=
  fun l => (widens l).trans_lt (few l)

namespace Widens

theorem refl (h : Heap) : h.Widens h := fun _ => le_rfl

theorem trans (first : h.Widens h') (second : h'.Widens h'') : h.Widens h'' :=
  fun l => (first l).trans (second l)

theorem of_lists (same : h'.lists = h.lists) : h.Widens h' := fun l => by simp [list, same]

theorem modifyList {f : ValueList → ValueList}
    (wider : (h.list l).slots.size ≤ (f (h.list l)).slots.size) : h.Widens (h.modifyList l f) := by
  intro other
  by_cases same : other = l
  · subst same
    by_cases valid : other.number < h.lists.size
    · rwa [list_modifyList valid]
    · rw [modifyList_of_missing valid]
  · rw [list_modifyList_of_ne same]

end Widens

theorem modifyList_congr {f g : ValueList → ValueList} (same : f (h.list l) = g (h.list l)) :
    h.modifyList l f = h.modifyList l g := by
  unfold modifyList
  congr 1
  apply ext_getElem?
  intro i
  rw [getElem?_modify, getElem?_modify]
  split
  · subst i
    cases found : h.lists[l.number]? with
    | none => rfl
    | some list => simpa [Heap.list, found] using same
  · rfl

namespace Word

/-! ### Lists grow -/

theorem occupy_widens (h : Heap) (l : ListId) (id : Nat) : h.Widens (occupy h l id) := by
  have wider : (h.list l).slots.size ≤ (vacancy (h.list l)).2.size := by
    unfold vacancy
    cases (h.list l).free <;> simp
  exact .modifyList (wider.trans_eq size_modify.symm)

theorem adoptAll_widens (h : Heap) (l : ListId) (ids : List Nat) : h.Widens (adoptAll h l ids) := by
  induction ids generalizing h with
  | nil => exact .refl h
  | cons id rest ih =>
    refine Widens.trans ?_ (ih (adopt h l id))
    unfold adopt
    split
    · exact .refl h
    · exact occupy_widens h l id

theorem takeAll_widens (h : Heap) (l : ListId) : h.Widens (takeAll h l).2 :=
  (Widens.of_lists (lists_release h _)).trans (.modifyList (by simp [ValueList.emptied]))

/-! ### Few slots -/

theorem occupy_eq (few : h.Few) (l : ListId) (id : Nat) : occupy h l id = h.occupy l id := by
  rw [occupy, Heap.occupy, modifyList_congr (g := fun _ => (h.list l).insert id) rfl]
  cases free : (h.list l).free with
  | nil =>
    have new : vacancy (h.list l) = ((h.list l).slots.size, (h.list l).slots.push {}) := by
      simp [vacancy, free, word_of_lt (few l)]
    have last : ((h.list l).slots.push {}).modify (h.list l).slots.size
        (fun s => { s with occupant := some id }) = (h.list l).slots.push ⟨0, some id⟩ := by
      apply ext_getElem?
      intro i
      grind
    simp [new, last, ValueList.nextSlot, ValueList.insert, free]
  | cons slot rest => simp [vacancy, ValueList.nextSlot, ValueList.insert, free]

theorem bind_eq (few : h.Few) (l : ListId) (id : Nat) : bind h l id = h.bind l id := by
  rw [bind, occupy_eq few]
  rfl

theorem takeAll_eq (few : h.Few) (l : ListId) : takeAll h l = h.takeAll l := by
  refine Prod.ext rfl (modifyList_congr ?_)
  have same : (h.release (h.members l)).list l = h.list l := by simp [list]
  rw [same, word_of_lt (few l)]
  rfl

theorem adoptAll_eq {ids : List Nat} (few : (adoptAll h l ids).Few) :
    adoptAll h l ids = h.adoptAll l ids := by
  induction ids generalizing h with
  | nil => rfl
  | cons id rest ih =>
    have first : adopt h l id = h.adopt l id := by
      rw [adopt, Heap.adopt, occupy_eq (few.of_widens (adoptAll_widens h l (id :: rest)))]
    calc adoptAll (adopt h l id) l rest = (adopt h l id).adoptAll l rest := ih few
      _ = (h.adopt l id).adoptAll l rest := by rw [first]

theorem append_widens (h : Heap) (target source : ListId) : h.Widens (append h target source) :=
  (takeAll_widens h source).trans (adoptAll_widens _ target _)

theorem append_eq (few : (append h target source).Few) :
    append h target source = h.append target source := by
  have taken := takeAll_eq (few.of_widens (append_widens h target source)) source
  calc append h target source = (takeAll h source).2.adoptAll target (h.members source) :=
        adoptAll_eq few
    _ = h.append target source := by rw [taken]; rfl

theorem freeAll_widens (h : Heap) (l : ListId) : h.Widens (freeAll h l) :=
  (takeAll_widens h l).trans (.of_lists (lists_freeEach ..))

theorem freeAll_eq (few : h.Few) (l : ListId) : freeAll h l = h.freeAll l := by
  rw [freeAll, takeAll_eq few]
  rfl

end Word

end Heap

/-! ### Dealings -/

namespace Heap

variable {h h' : Heap} {l target source : ListId} {id : Nat}

/-- One dealing with payloads and lists. A payload that another list owns is not bound. -/
inductive Deal (h : Heap) : Heap → Prop where
  | create (payload : Payload) (constant shared : Bool) :
      Deal h (h.create payload constant shared).2
  | newList : Deal h h.newList.2
  | exempt {id : Nat} {exemption : Exemption} {h' : Heap}
      (exempted : h.exempt id exemption = .ok h') : Deal h h'
  | bind {l : ListId} {id : Nat} {h' : Heap} (list : l.number < h.lists.size)
      (payload : id < h.cells.size) (bound : Word.bind h l id = .ok h') : Deal h h'
  | unbind (l : ListId) (id : Nat) : Deal h (h.unbind l id).2
  | append {target source : ListId} (list : target.number < h.lists.size)
      (different : target ≠ source) : Deal h (Word.append h target source)
  | takeAll (l : ListId) : Deal h (Word.takeAll h l).2
  | freeAll (l : ListId) : Deal h (Word.freeAll h l)
  | resetAllocated (l : ListId) : Deal h (h.resetAllocated l)

theorem Deal.widens (deal : h.Deal h') : h.Widens h' := by
  cases deal with
  | create => exact .refl h
  | newList => exact fun l => (list_newList h l ▸ le_rfl)
  | exempt exempted =>
    unfold Heap.exempt at exempted
    split at exempted
    · cases exempted
    · cases exempted
      exact .of_lists (lists_modifyCell ..)
  | bind _ _ bound =>
    unfold Word.bind at bound
    grind [Widens.refl, Word.occupy_widens]
  | unbind l id =>
    rcases h.unbind_cases l id with same | ⟨b, -, -, given⟩
    · rw [same]
      exact .refl h
    · rw [given]
      exact .modifyList size_modify.ge
  | append => exact Word.append_widens h _ _
  | takeAll l => exact Word.takeAll_widens h l
  | freeAll l => exact Word.freeAll_widens h l
  | resetAllocated l => exact .modifyList le_rfl

theorem Deal.consistent (deal : h.Deal h') (few : h'.Few) (sane : h.Consistent) :
    h'.Consistent := by
  have before := few.of_widens deal.widens
  cases deal with
  | create payload constant shared => exact sane.create payload constant shared
  | newList => exact sane.newList
  | @exempt id exemption _ exempted =>
    unfold Heap.exempt at exempted
    split at exempted
    · cases exempted
    · rename_i unbound
      cases exempted
      exact sane.exempted (by simpa using unbound) exemption
  | bind list payload bound =>
    rw [eq_adopt_of_bind ((Word.bind_eq before ..).symm.trans bound)]
    exact sane.adopt list payload
  | unbind l id => exact sane.unbind l id
  | append list _ => exact Word.append_eq few ▸ sane.append list _
  | takeAll l => exact Word.takeAll_eq before l ▸ sane.takeAll l
  | freeAll l => exact Word.freeAll_eq before l ▸ sane.freeAll l
  | resetAllocated l => exact sane.resetAllocated l

section

variable (sane : h.Consistent)
include sane

theorem Consistent.once {l' : ListId} {slot slot' : Nat} {s s' : ListSlot}
    (found : (h.list l).slots[slot]? = some s) (holds : s.occupant = some id)
    (found' : (h.list l').slots[slot']? = some s') (holds' : s'.occupant = some id) :
    l = l' ∧ slot = slot' := by
  obtain ⟨generation, occupant⟩ := s
  obtain ⟨generation', occupant'⟩ := s'
  subst holds holds'
  have same := (sane.bound found).symm.trans (sane.bound found')
  simp only [Option.some.injEq, Binding.mk.injEq] at same
  exact ⟨same.1, same.2.1⟩

end

/-- All payloads of one list have gone to another. -/
structure Moved (target source : ListId) (h h' : Heap) : Prop where
  /-- None is lost, and none is there twice. -/
  gathered : (h'.members target).Perm (h.members target ++ h.members source)
  emptied : h'.members source = []
  others : ∀ l, l ≠ target → l ≠ source → h'.list l = h.list l

theorem Consistent.moved (sane : h.Consistent) (list : target.number < h.lists.size)
    (ne : target ≠ source) : Moved target source h (h.append target source) := by
  have appended := sane.append list source
  have mem : ∀ l id, id ∈ (h.append target source).members l ↔
      (if h.owner? id = some source then some target else h.owner? id) = some l := by
    intro l id
    rw [appended.mem_members_iff_owner, owner?_append sane]
  constructor
  case gathered =>
    have apart : (h.members target).Disjoint (h.members source) := fun id here there =>
      ne (sane.mem_members_unique here there)
    have nodup := (sane.members_nodup target).append (sane.members_nodup source) apart
    refine (List.perm_ext_iff_of_nodup (appended.members_nodup target) nodup).mpr fun id => ?_
    rw [mem, List.mem_append, sane.mem_members_iff_owner, sane.mem_members_iff_owner]
    by_cases moves : h.owner? id = some source <;> simp [moves]
  case emptied =>
    refine List.eq_nil_iff_forall_not_mem.mpr fun id held => ?_
    rw [mem] at held
    split at held
    · exact ne (Option.some.inj held)
    · contradiction
  case others =>
    intro l notTarget notSource
    rw [append_eq, list_adoptAll_of_ne notTarget, list_takeAll_of_ne notSource]

theorem Deal.occupy (list : l.number < h.lists.size) (payload : id < h.cells.size)
    (ownable : h.unowned id = false) (unbound : h.binding? id = none) :
    h.Deal (Word.occupy h l id) :=
  .bind list payload (by simp [Word.bind, ownable, unbound])

end Heap

end Tenancy
