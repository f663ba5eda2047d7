import Tenancy.Proofs.Heap.Consistency

/-!
Cells without their slots.

Which slot of a list owns a payload is of no consequence outside of the list. An aspect of a cell has
the owner in its place. For each operation there is one statement of what becomes of the aspects and
one of why the heap stays consistent; nothing after this looks at slots again.
-/

namespace Tenancy

open List Option Heap ValueList

/-- All of a cell but the slot that owns it. -/
structure Aspect where
  payload : Option Payload
  constant : Bool
  shared : Bool
  owner : Option ListId
  digest : Option Digest

namespace Aspect

def unowned (a : Aspect) : Bool := a.constant || a.shared

def adopted (l : ListId) (a : Aspect) : Aspect :=
  if a.unowned || a.owner.isSome then a else { a with owner := some l }

def released (l : ListId) (a : Aspect) : Aspect :=
  if a.owner = some l then { a with owner := none } else a

def freed (a : Aspect) : Aspect := { a with payload := none, owner := none }

def moved (target source : ListId) (a : Aspect) : Aspect :=
  if a.owner = some source then { a with owner := some target } else a

def cleared (l : ListId) (a : Aspect) : Aspect := if a.owner = some l then a.freed else a

@[simp] theorem adopted_adopted (l : ListId) (a : Aspect) :
    (a.adopted l).adopted l = a.adopted l := by
  unfold adopted
  split <;> simp_all [unowned]

end Aspect

def Cell.aspect (c : Cell) : Aspect :=
  ⟨c.payload, c.constant, c.shared, c.binding.map Binding.list, c.digest⟩

namespace Heap

variable {h : Heap} {l other target : ListId} {id : Nat}

def aspect? (h : Heap) (id : Nat) : Option Aspect := h.cells[id]?.map Cell.aspect

def owner? (h : Heap) (id : Nat) : Option ListId := (h.binding? id).map Binding.list

theorem payload?_eq (h : Heap) (id : Nat) : h.payload? id = (h.aspect? id).bind Aspect.payload := by
  unfold payload? aspect?
  cases h.cells[id]? <;> rfl

theorem owner?_eq (h : Heap) (id : Nat) : h.owner? id = (h.aspect? id).bind Aspect.owner := by
  unfold owner? binding? aspect?
  cases h.cells[id]? <;> rfl

theorem unowned_eq (h : Heap) (id : Nat) : h.unowned id = (h.aspect? id).any Aspect.unowned := by
  unfold unowned aspect?
  cases h.cells[id]? <;> rfl

theorem constant_eq (h : Heap) (id : Nat) : h.constant id = (h.aspect? id).any Aspect.constant := by
  unfold constant aspect?
  cases h.cells[id]? <;> rfl

theorem digest_cell_eq (h : Heap) (id : Nat) :
    h.cells[id]?.bind Cell.digest = (h.aspect? id).bind Aspect.digest := by
  unfold aspect?
  cases h.cells[id]? <;> rfl

theorem aspect?_isSome : (h.aspect? id).isSome ↔ id < h.cells.size := by simp [aspect?]

theorem aspect?_eq_none : h.aspect? id = none ↔ h.cells.size ≤ id := by simp [aspect?]

theorem Consistent.mem_members_iff_owner (sane : h.Consistent) :
    id ∈ h.members l ↔ h.owner? id = some l := by
  rw [sane.mem_members, owner?, map_eq_some_iff]

theorem Consistent.not_unowned (sane : h.Consistent) (owned : h.owner? id = some l) :
    h.unowned id = false :=
  sane.not_unowned_of_mem (sane.mem_members_iff_owner.mpr owned)

theorem aspect?_modifyCell (h : Heap) (id i : Nat) {f : Cell → Cell} {g : Aspect → Aspect}
    (seen : ∀ c, (f c).aspect = g c.aspect) :
    (h.modifyCell id f).aspect? i = (h.aspect? i).map fun a => if i = id then g a else a := by
  unfold aspect?
  rw [getElem?_modifyCell]
  by_cases same : id = i
  · subst same
    simp [Function.comp_def, seen]
  · simp [same, Ne.symm same, Function.comp_def]

@[simp] theorem aspect?_modifyList (h : Heap) (l : ListId) (f : ValueList → ValueList) (i : Nat) :
    (h.modifyList l f).aspect? i = h.aspect? i := rfl

/-! ### New payloads and lists -/

theorem aspect?_create (h : Heap) (payload : Payload) (constant shared : Bool) (i : Nat) :
    (h.create payload constant shared).2.aspect? i =
      if i = h.cells.size then some ⟨some payload, constant, shared, none, none⟩
      else h.aspect? i := by
  simp only [aspect?, create, Array.getElem?_push]
  split <;> rfl

theorem Consistent.create (sane : h.Consistent) (payload : Payload)
    (constant shared : Bool) : (h.create payload constant shared).2.Consistent := by
  have fresh : h.binding? h.cells.size = none := by simp [binding?]
  refine sane.congr (fun _ => rfl) (fun i => ?_) fun i exempt => ?_
  · by_cases same : i = h.cells.size
    · subst same
      rw [fresh]
      simp [binding?, Heap.create]
    · simp [binding?, Heap.create, Array.getElem?_push, same]
  · by_cases same : i = h.cells.size
    · exact .inr (same ▸ fresh)
    · exact .inl (by simpa [Heap.unowned, Heap.create, Array.getElem?_push, same] using exempt)

theorem list_newList (h : Heap) (l : ListId) : h.newList.2.list l = h.list l := by
  simp only [list, newList, Array.getElem?_push]
  split
  · simp [*]
  · rfl

theorem Consistent.newList (sane : h.Consistent) : h.newList.2.Consistent :=
  sane.congr (list_newList h) (fun _ => rfl) fun _ exempt => .inl exempt

/-! ### Taking a payload into a list -/

theorem aspect?_occupy (h : Heap) (l : ListId) (id i : Nat) :
    (h.occupy l id).aspect? i =
      (h.aspect? i).map fun a => if i = id then { a with owner := some l } else a :=
  aspect?_modifyCell _ id i fun _ => rfl

theorem Consistent.occupy (sane : h.Consistent) (valid : l.number < h.lists.size)
    (within : id < h.cells.size) (unbound : h.binding? id = none)
    (ownable : h.unowned id = false) : (h.occupy l id).Consistent := by
  have tidy := sane.tidy l
  have newBinding : (h.occupy l id).binding? id =
      some ⟨l, (h.list l).nextSlot.1, (h.list l).nextSlot.2⟩ := by
    unfold binding? Heap.occupy
    rw [getElem?_modifyCell]
    simp [within]
  have oldBinding : ∀ i, i ≠ id → (h.occupy l id).binding? i = h.binding? i := by
    intro i ne
    apply binding?_congr
    simp [Heap.occupy, Ne.symm ne]
  have newList : (h.occupy l id).list l = (h.list l).insert id := list_modifyList valid _
  have oldList : ∀ other, other ≠ l → (h.occupy l id).list other = h.list other :=
    fun other ne => list_modifyList_of_ne ne _
  refine ⟨fun other => ?_, fun {other slot generation i} found => ?_, fun {i b} bound => ?_,
    fun {i} exempt => ?_⟩
  · by_cases same : other = l
    · rw [same, newList]
      exact tidy.insert id
    · rw [oldList other same]
      exact sane.tidy other
  · by_cases same : other = l
    · subst same
      rw [newList, tidy.getElem?_insert] at found
      split at found
      · obtain ⟨rfl, rfl⟩ : (h.list other).nextSlot.2 = generation ∧ id = i := by simpa using found
        simp_all
      · have bound := sane.bound found
        rw [oldBinding i (by rintro rfl; simp [unbound] at bound)]
        exact bound
    · rw [oldList other same] at found
      have bound := sane.bound found
      rw [oldBinding i (by rintro rfl; simp [unbound] at bound)]
      exact bound
  · by_cases same : i = id
    · subst same
      obtain rfl : Binding.mk l (h.list l).nextSlot.1 (h.list l).nextSlot.2 = b :=
        some.inj (newBinding.symm.trans bound)
      rw [newList, tidy.getElem?_insert]
      simp
    · rw [oldBinding i same] at bound
      have found := sane.occupied bound
      by_cases here : b.list = l
      · rw [here] at found
        rw [here, newList, tidy.getElem?_insert, if_neg]
        · exact found
        · intro taken
          rw [taken] at found
          exact tidy.not_occupied_nextSlot found
      · rw [oldList _ here]
        exact found
  · have kept : h.unowned i = true := by
      rw [Heap.occupy, unowned_modifyCell _ _ _ (by exact fun _ => rfl)] at exempt
      exact exempt
    rw [oldBinding i (by rintro rfl; simp [ownable] at kept)]
    exact sane.exempt kept

theorem aspect?_adopt (h : Heap) (l : ListId) (id i : Nat) :
    (h.adopt l id).aspect? i = (h.aspect? i).map fun a => if i = id then a.adopted l else a := by
  have owned : (h.binding? id).isSome = (h.aspect? id).any (·.owner.isSome) := by
    unfold binding? aspect?
    cases h.cells[id]? <;> simp [Cell.aspect]
  unfold adopt
  rw [unowned_eq, owned]
  by_cases same : i = id
  · subst same
    cases seen : h.aspect? i with
    | none => simp [seen, aspect?_occupy]
    | some a =>
      by_cases keeps : (a.unowned || a.owner.isSome) = true
      · simp_all [Aspect.adopted]
      · simp_all [Aspect.adopted, aspect?_occupy]
  · split
    · simp
    · simp [same, aspect?_occupy]

theorem Consistent.adopt (sane : h.Consistent) (valid : l.number < h.lists.size)
    (within : id < h.cells.size) : (h.adopt l id).Consistent := by
  unfold Heap.adopt
  split
  · exact sane
  · rename_i refused
    simp only [Bool.or_eq_true, not_or, Bool.not_eq_true, isSome_eq_false_iff,
      isNone_iff_eq_none] at refused
    exact sane.occupy valid within refused.2 refused.1

@[simp] theorem size_cells_adopt (h : Heap) (l : ListId) (id : Nat) :
    (h.adopt l id).cells.size = h.cells.size := by
  unfold adopt
  split <;> simp [occupy]

@[simp] theorem size_lists_adopt (h : Heap) (l : ListId) (id : Nat) :
    (h.adopt l id).lists.size = h.lists.size := by
  unfold adopt
  split <;> simp [occupy]

theorem list_adopt_of_ne (ne : other ≠ l) : (h.adopt l id).list other = h.list other := by
  unfold adopt
  split
  · rfl
  · exact list_modifyList_of_ne ne _

theorem list_place_of_ne (ne : other ≠ l) (payload : Payload) :
    (h.place l payload).2.list other = h.list other :=
  list_adopt_of_ne ne

/-- What no step changes is the same after all of them. -/
theorem view_foldl (view : Heap → α) {step : Heap → Nat → Heap}
    (kept : ∀ h id, view (step h id) = view h) (ids : List Nat) (h : Heap) :
    view (ids.foldl step h) = view h := by
  induction ids generalizing h with
  | nil => rfl
  | cons id rest ih => rw [foldl_cons, ih, kept]

@[simp] theorem size_cells_adoptAll (h : Heap) (l : ListId) (ids : List Nat) :
    (h.adoptAll l ids).cells.size = h.cells.size :=
  view_foldl (·.cells.size) (size_cells_adopt · l ·) ids h

@[simp] theorem size_lists_adoptAll (h : Heap) (l : ListId) (ids : List Nat) :
    (h.adoptAll l ids).lists.size = h.lists.size :=
  view_foldl (·.lists.size) (size_lists_adopt · l ·) ids h

theorem list_adoptAll_of_ne (ne : other ≠ l) (h : Heap) (ids : List Nat) :
    (h.adoptAll l ids).list other = h.list other :=
  view_foldl (·.list other) (fun _ _ => list_adopt_of_ne ne) ids h

theorem aspect?_adoptAll (h : Heap) (l : ListId) (ids : List Nat) (i : Nat) :
    (h.adoptAll l ids).aspect? i =
      (h.aspect? i).map fun a => if i ∈ ids then a.adopted l else a := by
  unfold adoptAll
  induction ids generalizing h with
  | nil => simp
  | cons id rest ih =>
    rw [foldl_cons, ih, aspect?_adopt, Option.map_map]
    congr 1
    funext a
    by_cases first : i = id <;> by_cases later : i ∈ rest <;> simp_all

theorem Consistent.adoptAll (sane : h.Consistent) (valid : l.number < h.lists.size)
    (within : ∀ id ∈ ids, id < h.cells.size) : (h.adoptAll l ids).Consistent := by
  unfold Heap.adoptAll
  induction ids generalizing h with
  | nil => exact sane
  | cons id rest ih =>
    apply ih (sane.adopt valid (within id (by simp)))
    · simpa using valid
    · intro other later
      simpa using within other (by simp [later])

/-! ### Giving up payloads -/

theorem getElem?_release (h : Heap) (ids : List Nat) (i : Nat) :
    (h.release ids).cells[i]? =
      h.cells[i]?.map fun c => if i ∈ ids then { c with binding := none } else c := by
  unfold release
  induction ids generalizing h with
  | nil => simp
  | cons id rest ih =>
    rw [foldl_cons, ih, getElem?_modifyCell]
    by_cases first : i = id
    · subst first
      cases h.cells[i]? <;> simp
    · simp [first, Ne.symm first]

@[simp] theorem lists_release (h : Heap) (ids : List Nat) : (h.release ids).lists = h.lists :=
  view_foldl lists (fun _ _ => lists_modifyCell ..) ids h

theorem takeAll_eq (h : Heap) (l : ListId) :
    h.takeAll l = (h.members l, (h.release (h.members l)).modifyList l emptied) := rfl

@[simp] theorem size_cells_takeAll (h : Heap) (l : ListId) :
    (h.takeAll l).2.cells.size = h.cells.size :=
  view_foldl (·.cells.size) (fun _ _ => size_cells_modifyCell ..) (h.members l) h

@[simp] theorem size_lists_takeAll (h : Heap) (l : ListId) :
    (h.takeAll l).2.lists.size = h.lists.size := by simp [takeAll_eq]

theorem list_takeAll_of_ne (ne : other ≠ l) (h : Heap) :
    (h.takeAll l).2.list other = h.list other := by
  rw [takeAll_eq, list_modifyList_of_ne ne]
  simp [list]

theorem members_takeAll (h : Heap) (l : ListId) : (h.takeAll l).2.members l = [] := by
  rw [takeAll_eq, members_eq]
  by_cases valid : l.number < h.lists.size
  · rw [list_modifyList (by simpa using valid), eq_nil_iff_forall_not_mem]
    intro id held
    obtain ⟨slot, generation, occupied⟩ := mem_occupants.mp held
    exact not_occupied_emptied occupied
  · rw [list_of_missing (by simpa using valid)]
    rfl

theorem Consistent.aspect?_takeAll (sane : h.Consistent) (l : ListId) (i : Nat) :
    (h.takeAll l).2.aspect? i = (h.aspect? i).map (Aspect.released l) := by
  have owned : i ∈ h.members l ↔ h.owner? i = some l := sane.mem_members_iff_owner
  rw [owner?_eq] at owned
  rw [takeAll_eq, aspect?_modifyList, aspect?, getElem?_release]
  cases found : h.cells[i]? with
  | none => simp [aspect?, found]
  | some c =>
    have seen : h.aspect? i = some c.aspect := by simp [aspect?, found]
    rw [seen, bind_some] at owned
    by_cases held : i ∈ h.members l
    · rw [seen, map_some, map_some, if_pos held, map_some, Aspect.released, if_pos (owned.mp held)]
      rfl
    · simp [seen, held, Aspect.released, mt owned.mpr held]

theorem Consistent.takeAll (sane : h.Consistent) (l : ListId) : (h.takeAll l).2.Consistent := by
  by_cases valid : l.number < h.lists.size
  case neg =>
    have nothing : h.members l = [] := by
      rw [members_eq, list_of_missing valid]
      rfl
    have unchanged : (h.takeAll l).2 = h := by
      rw [takeAll_eq, nothing]
      exact modifyList_of_missing valid _
    rwa [unchanged]
  have newList : (h.takeAll l).2.list l = (h.list l).emptied := by
    rw [takeAll_eq, list_modifyList (by simpa using valid)]
    simp [list]
  have taken : ∀ i, i ∈ h.members l → (h.takeAll l).2.binding? i = none := by
    intro i held
    rw [takeAll_eq, binding?, cells_modifyList, getElem?_release]
    cases h.cells[i]? <;> simp [held]
  have others : ∀ i, i ∉ h.members l → (h.takeAll l).2.binding? i = h.binding? i := by
    intro i elsewhere
    rw [takeAll_eq, binding?, cells_modifyList, getElem?_release, binding?]
    cases h.cells[i]? <;> simp [elsewhere]
  refine ⟨fun other => ?_, fun {other slot generation i} found => ?_, fun {i b} bound => ?_,
    fun {i} exempt => ?_⟩
  · by_cases same : other = l
    · rw [same, newList]
      exact tidy_emptied _
    · rw [list_takeAll_of_ne same]
      exact sane.tidy other
  · by_cases same : other = l
    · rw [same, newList] at found
      exact absurd found not_occupied_emptied
    · rw [list_takeAll_of_ne same] at found
      have bound := sane.bound found
      rw [others i fun held => same ?_]
      · exact bound
      · exact sane.mem_members_unique (sane.mem_members.mpr ⟨_, bound, rfl⟩) held
  · by_cases held : i ∈ h.members l
    · simp [taken i held] at bound
    · rw [others i held] at bound
      rw [list_takeAll_of_ne fun same => held (sane.mem_members.mpr ⟨b, bound, same⟩)]
      exact sane.occupied bound
  · by_cases held : i ∈ h.members l
    · exact taken i held
    · rw [others i held]
      apply sane.exempt
      rw [takeAll_eq, unowned, cells_modifyList, getElem?_release] at exempt
      rw [unowned]
      cases found : h.cells[i]? <;> simp_all

theorem mem_members_within (sane : h.Consistent) (held : id ∈ h.members l) : id < h.cells.size := by
  by_contra outside
  have owned := sane.mem_members_iff_owner.mp held
  simp [owner?, binding?, outside] at owned

theorem append_eq (h : Heap) (target source : ListId) :
    h.append target source = (h.takeAll source).2.adoptAll target (h.members source) := rfl

@[simp] theorem size_cells_append (h : Heap) (target source : ListId) :
    (h.append target source).cells.size = h.cells.size := by simp [append_eq]

@[simp] theorem size_lists_append (h : Heap) (target source : ListId) :
    (h.append target source).lists.size = h.lists.size := by simp [append_eq]

theorem list_append_of_ne (into : other ≠ target) (outOf : other ≠ source) (h : Heap) :
    (h.append target source).list other = h.list other := by
  rw [append_eq, list_adoptAll_of_ne into, list_takeAll_of_ne outOf]

theorem members_append (ne : source ≠ target) (h : Heap) :
    (h.append target source).members source = [] := by
  rw [append_eq, members_eq, list_adoptAll_of_ne ne]
  exact members_takeAll h source

theorem Consistent.append (sane : h.Consistent) (valid : target.number < h.lists.size)
    (source : ListId) : (h.append target source).Consistent := by
  rw [append_eq]
  apply (sane.takeAll source).adoptAll (by simpa using valid)
  intro id held
  simpa using mem_members_within sane held

theorem Consistent.aspect?_append (sane : h.Consistent) (target source : ListId) (i : Nat) :
    (h.append target source).aspect? i = (h.aspect? i).map (Aspect.moved target source) := by
  rw [append_eq, aspect?_adoptAll, sane.aspect?_takeAll, Option.map_map]
  have owned : i ∈ h.members source ↔ h.owner? i = some source := sane.mem_members_iff_owner
  cases seen : h.aspect? i with
  | none => rfl
  | some a =>
    rw [owner?_eq, seen, bind_some] at owned
    by_cases held : i ∈ h.members source
    · have ownable := sane.not_unowned_of_mem held
      rw [unowned_eq, seen] at ownable
      have free : a.unowned = false := ownable
      simp [held, owned.mp held, Aspect.released, Aspect.adopted, Aspect.moved,
        Aspect.unowned] at free ⊢
      simp [free]
    · simp [held, mt owned.mpr held, Aspect.released, Aspect.moved]

/-! ### Freeing -/

@[simp] theorem cells_record (h : Heap) (stage : Stage) (b : Buffer) :
    (h.record stage b).cells = h.cells := by
  unfold record
  split <;> rfl

@[simp] theorem lists_record (h : Heap) (stage : Stage) (b : Buffer) :
    (h.record stage b).lists = h.lists := by
  unfold record
  split <;> rfl

@[simp] theorem aspect?_record (h : Heap) (stage : Stage) (b : Buffer) (i : Nat) :
    (h.record stage b).aspect? i = h.aspect? i := by simp [aspect?]

@[simp] theorem lists_free (h : Heap) (id : Nat) : (h.free id).lists = h.lists := by
  unfold free
  split <;> simp

@[simp] theorem size_cells_free (h : Heap) (id : Nat) : (h.free id).cells.size = h.cells.size := by
  unfold free
  split <;> simp

theorem getElem?_free (h : Heap) (id i : Nat) :
    (h.free id).cells[i]? = h.cells[i]?.map fun c =>
      if i = id then { c with payload := none, binding := none } else c := by
  unfold free
  by_cases same : i = id
  · subst same
    split <;> simp
  · split <;> simp [same, Ne.symm same]

theorem aspect?_free (h : Heap) (id i : Nat) :
    (h.free id).aspect? i = (h.aspect? i).map fun a => if i = id then a.freed else a := by
  rw [aspect?, getElem?_free, aspect?]
  by_cases same : i = id <;> cases h.cells[i]? <;> simp [same, Cell.aspect, Aspect.freed]

theorem Consistent.free (sane : h.Consistent) (unbound : h.binding? id = none) :
    (h.free id).Consistent := by
  have bindings : ∀ i, (h.free id).binding? i = h.binding? i := by
    intro i
    rw [binding?, getElem?_free]
    by_cases same : i = id
    · subst same
      rw [unbound]
      cases h.cells[i]? <;> simp
    · rw [binding?]
      cases h.cells[i]? <;> simp [same]
  refine sane.congr (fun _ => by simp [list]) bindings fun i exempt => .inl ?_
  rw [unowned, getElem?_free] at exempt
  rw [unowned]
  by_cases same : i = id <;> cases found : h.cells[i]? <;> simp_all [Cell.unowned]

@[simp] theorem lists_freeEach (h : Heap) (ids : List Nat) : (h.freeEach ids).lists = h.lists :=
  view_foldl lists lists_free ids h

@[simp] theorem size_cells_freeEach (h : Heap) (ids : List Nat) :
    (h.freeEach ids).cells.size = h.cells.size :=
  view_foldl (·.cells.size) size_cells_free ids h

theorem aspect?_freeEach (h : Heap) (ids : List Nat) (i : Nat) :
    (h.freeEach ids).aspect? i = (h.aspect? i).map fun a => if i ∈ ids then a.freed else a := by
  unfold freeEach
  induction ids generalizing h with
  | nil => simp
  | cons id rest ih =>
    rw [foldl_cons, ih, aspect?_free, Option.map_map]
    congr 1
    funext a
    by_cases first : i = id <;> by_cases later : i ∈ rest <;> simp_all [Aspect.freed]

theorem Consistent.freeEach (sane : h.Consistent)
    (unbound : ∀ id ∈ ids, h.binding? id = none) : (h.freeEach ids).Consistent := by
  unfold Heap.freeEach
  induction ids generalizing h with
  | nil => exact sane
  | cons id rest ih =>
    apply ih (sane.free (unbound id (by simp)))
    intro other later
    rw [binding?, getElem?_free]
    have before := unbound other (by simp [later])
    rw [binding?] at before
    by_cases same : other = id <;> cases found : h.cells[other]? <;> simp_all

theorem freeAll_eq (h : Heap) (l : ListId) :
    h.freeAll l = (h.takeAll l).2.freeEach (h.members l) := rfl

@[simp] theorem size_cells_freeAll (h : Heap) (l : ListId) :
    (h.freeAll l).cells.size = h.cells.size := by simp [freeAll_eq]

@[simp] theorem size_lists_freeAll (h : Heap) (l : ListId) :
    (h.freeAll l).lists.size = h.lists.size := by simp [freeAll_eq]

theorem Consistent.unbound_takeAll (sane : h.Consistent) (held : id ∈ h.members l) :
    (h.takeAll l).2.binding? id = none := by
  have seen := sane.aspect?_takeAll l id
  have owned := sane.mem_members_iff_owner.mp held
  rw [owner?_eq] at owned
  have owner : (h.takeAll l).2.owner? id = none := by
    rw [owner?_eq, seen]
    cases found : h.aspect? id with
    | none => rfl
    | some a => simp_all [Aspect.released]
  simpa [owner?] using owner

theorem list_freeAll_of_ne (ne : other ≠ l) (h : Heap) :
    (h.freeAll l).list other = h.list other := by
  rw [← list_takeAll_of_ne ne h, freeAll_eq]
  simp [list]

theorem members_freeAll (h : Heap) (l : ListId) : (h.freeAll l).members l = [] := by
  rw [← members_takeAll h l, freeAll_eq]
  simp [members_eq, list]

theorem Consistent.freeAll (sane : h.Consistent) (l : ListId) : (h.freeAll l).Consistent := by
  rw [freeAll_eq]
  exact (sane.takeAll l).freeEach fun id held => sane.unbound_takeAll held

theorem Consistent.aspect?_freeAll (sane : h.Consistent) (l : ListId) (i : Nat) :
    (h.freeAll l).aspect? i = (h.aspect? i).map (Aspect.cleared l) := by
  rw [freeAll_eq, aspect?_freeEach, sane.aspect?_takeAll, Option.map_map]
  have owned : i ∈ h.members l ↔ h.owner? i = some l := sane.mem_members_iff_owner
  cases seen : h.aspect? i with
  | none => rfl
  | some a =>
    rw [owner?_eq, seen, bind_some] at owned
    by_cases held : i ∈ h.members l
    · simp [held, owned.mp held, Aspect.released, Aspect.cleared, Aspect.freed]
    · simp [held, mt owned.mpr held, Aspect.released, Aspect.cleared]

theorem Consistent.resetAllocated (sane : h.Consistent) (l : ListId) :
    (h.resetAllocated l).Consistent := by
  by_cases valid : l.number < h.lists.size
  case neg =>
    rwa [Heap.resetAllocated, modifyList_of_missing valid]
  have newList : (h.resetAllocated l).list l = { h.list l with allocated := 0 } :=
    list_modifyList valid _
  have oldList : ∀ other, other ≠ l → (h.resetAllocated l).list other = h.list other :=
    fun other ne => list_modifyList_of_ne ne _
  have slots : ∀ other, ((h.resetAllocated l).list other).slots = (h.list other).slots := by
    intro other
    by_cases same : other = l
    · rw [same, newList]
    · rw [oldList other same]
  refine ⟨fun other => ?_, fun found => sane.bound (slots _ ▸ found),
    fun bound => slots _ ▸ sane.occupied bound, fun exempt => sane.exempt exempt⟩
  by_cases same : other = l
  · rw [same, newList]
    exact { sane.tidy l with }
  · rw [oldList other same]
    exact sane.tidy other

end Heap

end Tenancy
