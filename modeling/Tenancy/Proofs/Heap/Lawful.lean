import Tenancy.Heap.Copy
import Tenancy.Proofs.Action
import Tenancy.Proofs.Heap.Belonging

/-!
The actions of code change a heap by its operations only.

Whatever values it is given, an action of an operator, a container or a copy is a run of operations
on the heap, and of the lists it changes only the one that takes new payloads. This list has to
exist.

An operator and a copy put new payloads into a list and fill those, and otherwise keep digests and
records. Wherever this leads from one heap to the next, operators and copies lead. New buffers are
copies of buffers that are there, and what is written into a payload is of its kind.
-/

namespace Tenancy

open Tenancy.Action Motion List Heap Payload CopyM

/-- Operations on a heap that leave all lists but `owner` as they are. -/
structure Heap.Serves (owner : ListId) (h h' : Heap) : Prop where
  changes : h.Changes h'
  lists : ∀ l, l ≠ owner → h'.list l = h.list l

namespace Heap.Serves

variable {owner : ListId} {h h' h'' : Heap}

theorem refl (h : Heap) : Serves owner h h := ⟨.refl, fun _ _ => rfl⟩

theorem trans (first : Serves owner h h') (second : Serves owner h' h'') : Serves owner h h'' :=
  ⟨first.changes.trans second.changes,
    fun l different => (second.lists l different).trans (first.lists l different)⟩

theorem of_change (change : h.Change h') (same : h'.lists = h.lists) : Serves owner h h' :=
  ⟨.single change, fun l _ => by rw [list, same, list]⟩

end Heap.Serves

def Heap.motion (owner : ListId) : Motion Heap where
  Ready h := h.Sound ∧ owner.number < h.lists.size
  Leads := Serves owner
  refl := .refl
  trans := .trans
  ready ready serves :=
    ⟨serves.changes.sound ready.1, ready.2.trans_le (serves.changes.size_le ready.1).2⟩

namespace Heap

variable {h : Heap}

theorem place_changes (valid : owner.number < h.lists.size) (payload : Payload) :
    Changes h (h.place owner payload).2 := by
  refine .tail (.single (.create h payload false false)) (.adopt valid ?_)
  rw [live_eq, aspect?_create]
  simp

theorem place_serves (valid : owner.number < h.lists.size) (payload : Payload) :
    Serves owner h (h.place owner payload).2 :=
  ⟨place_changes valid payload, fun _ different => list_adopt_of_ne different⟩

theorem note_serves (owner : ListId) (h : Heap) (v : Value) : Serves owner h (h.note v) :=
  .of_change (.note h v) (lists_note h v)

theorem payload?_of_items? {id : Nat} {items : List Value}
    (found : h.items? (.ref ⟨.array, id⟩) = some items) : h.payload? id = some (.array items) := by
  unfold items? at found
  dsimp only at found
  split at found <;> cases found
  assumption

theorem payload?_of_entries? {id : Nat} {entries : List Entry}
    (found : h.entries? (.ref ⟨.mapping, id⟩) = some entries) :
    h.payload? id = some (.mapping entries) := by
  unfold entries? at found
  dsimp only at found
  split at found <;> cases found
  assumption

section Entries

variable {h : Heap} {key value v : Value} {entries : List Entry}

theorem mem_putAt {digest : Digest} {e : Entry} (mem : e ∈ h.putAt digest key value entries) :
    (e.key = key ∨ ∃ d ∈ entries, e.key = d.key) ∧
      (e.value = value ∨ ∃ d ∈ entries, e.value = d.value) := by
  induction entries with
  | nil =>
    obtain rfl : e = ⟨key, value, digest⟩ := by simpa [putAt] using mem
    exact ⟨.inl rfl, .inl rfl⟩
  | cons d rest ih =>
    unfold putAt at mem
    split at mem
    · rcases mem_cons.mp mem with rfl | later
      · exact ⟨.inr ⟨d, .head _, rfl⟩, .inl rfl⟩
      · exact ⟨.inr ⟨e, .tail _ later, rfl⟩, .inr ⟨e, .tail _ later, rfl⟩⟩
    · rcases mem_cons.mp mem with rfl | later
      · exact ⟨.inr ⟨e, .head _, rfl⟩, .inr ⟨e, .head _, rfl⟩⟩
      · refine (ih later).imp (Or.imp_right ?_) (Or.imp_right ?_)
        all_goals exact fun ⟨d', mem, same⟩ => ⟨d', .tail _ mem, same⟩

theorem holds_put (held : (mapping (h.put key value entries)).Holds v) :
    (mapping entries).Holds v ∨ v = key ∨ v = value := by
  cases held with
  | key mem =>
    rcases (mem_putAt mem).1 with same | ⟨d, before, same⟩
    · exact .inr (.inl same)
    · exact .inl (same ▸ .key before)
  | value mem =>
    rcases (mem_putAt mem).2 with same | ⟨d, before, same⟩
    · exact .inr (.inr same)
    · exact .inl (same ▸ .value before)

end Entries

end Heap

/-! ### What operators and copies do -/

/-- Motions that allow what operators and copies do: to make payloads for the list `owner`, buffers as
copies only, to write into containers that are new, and to keep digests. -/
structure Motion.Shapes (M : Motion Heap) (owner : ListId) (New : Nat → Prop) : Prop where
  place : ∀ (h : Heap) (payload : Payload), M.Ready h → payload.kind ≠ .buffer →
    M.Leads h (h.place owner payload).2
  duplicate : ∀ (h : Heap) (id : Nat) (b : Buffer), M.Ready h → h.payload? id = some (.buffer b) →
    M.Leads h ((h.record .copied b).place owner (.buffer b.duplicate)).2
  new : ∀ h : Heap, M.Ready h → New h.cells.size
  write : ∀ (h : Heap) (id : Nat) (old payload : Payload), M.Ready h → New id →
    h.payload? id = some old → payload.kind = old.kind → old.kind ≠ .buffer →
    M.Leads h (h.write id payload)
  note : ∀ (h : Heap) (v : Value), M.Ready h → M.Leads h (h.note v)

/-- Motions that allow to make any payloads for the list `owner`, to write anything into payloads that
are new, to keep digests and to record what happens to instances. -/
structure Motion.Crafts (M : Motion Heap) (owner : ListId) (New : Nat → Prop) : Prop where
  place : ∀ (h : Heap) (payload : Payload), M.Ready h → M.Leads h (h.place owner payload).2
  new : ∀ h : Heap, M.Ready h → New h.cells.size
  write : ∀ (h : Heap) (id : Nat) (payload : Payload), M.Ready h → New id →
    M.Leads h (h.write id payload)
  note : ∀ (h : Heap) (v : Value), M.Ready h → M.Leads h (h.note v)
  record : ∀ (h : Heap) (stage : Stage) (b : Buffer), M.Ready h → M.Leads h (h.record stage b)

theorem Motion.Crafts.shapes {M : Motion Heap}
    (crafts : M.Crafts owner New) : M.Shapes owner New where
  place h payload ready _ := crafts.place h payload ready
  duplicate h _ b ready _ := by
    have recorded := crafts.record h .copied b ready
    exact M.trans recorded (crafts.place _ _ (M.ready ready recorded))
  new := crafts.new
  write h id _ payload ready isNew _ _ _ := crafts.write h id payload ready isNew
  note := crafts.note

/-- Motions that allow what is done to payloads that are there: to write into containers what they hold
or what is stored, to overwrite the bytes of a buffer by as many, to keep digests and to forget them. -/
structure Motion.Edits (M : Motion Heap) (stores : Nat → Value → Prop) (overwrites : Nat → Prop) :
    Prop where
  write : ∀ (h : Heap) (id : Nat) (old payload : Payload), M.Ready h → h.payload? id = some old →
    payload.kind = old.kind → old.kind ≠ .buffer → h.constant id = false →
    (∀ v, payload.Holds v → old.Holds v ∨ stores id v) → M.Leads h (h.write id payload)
  bytes : ∀ (h : Heap) (id : Nat) (b : Buffer) (bytes : List UInt8), M.Ready h →
    h.payload? id = some (.buffer b) → bytes.length = b.bytes.length → overwrites id →
    M.Leads h (h.write id (.buffer { b with bytes }))
  note : ∀ (h : Heap) (v : Value), M.Ready h → M.Leads h (h.note v)
  forget : ∀ (h : Heap) (id : Nat), M.Ready h → M.Leads h (h.forgetDigest id)

theorem Heap.motion_edits (owner : ListId) :
    (motion owner).Edits (fun _ _ => True) fun _ => True where
  write _ _ _ _ _ _ _ _ _ _ := .of_change (.write _ _ _) rfl
  bytes _ _ _ _ _ _ _ _ := .of_change (.write _ _ _) rfl
  note h v _ := note_serves owner h v
  forget h id _ := .of_change (.forgetDigest h id) rfl

theorem Heap.motion_crafts (owner : ListId) : (motion owner).Crafts owner fun _ => True where
  place _ payload ready := place_serves ready.2 payload
  new _ _ := trivial
  write _ _ _ _ _ := .of_change (.write _ _ _) rfl
  note h v _ := note_serves owner h v
  record h stage b _ := .of_change (.record h stage b) (lists_record h stage b)

/-- Motions of the heap while values are copied. -/
def Motion.copying (M : Motion Heap) : Motion Copying where
  Ready s := M.Ready s.heap
  Leads s t := M.Leads s.heap t.heap
  refl s := M.refl s.heap
  trans := M.trans
  ready := M.ready

section Reading

open HeapM Operator

variable {M : Motion Heap} (note : ∀ (h : Heap) (v : Value), M.Ready h → M.Leads h (h.note v))

include note

theorem Motion.lookup_moves (entries : List Entry) (key : Value) : M.Moves (lookup entries key) := by
  intro h ready
  rw [lookup_apply, left_ok]
  split
  · exact note h key ready
  · exact M.refl h

theorem Motion.indexGet_moves (container key : Value) : M.Moves (indexGet container key) := by
  refine moves_get_bind fun h => ?_
  split
  · split
    · exact moves_throw _
    · exact (moves_ofExcept _).bind fun _ => moves_pure _
  · split
    · exact moves_throw _
    · exact (lookup_moves note _ _).bind fun _ => moves_pure _
  · split
    · exact moves_throw _
    · exact (moves_ofExcept _).bind fun _ => moves_pure _
  · split
    · exact moves_throw _
    · exact (moves_ofExcept _).bind fun _ => moves_pure _
  · exact moves_throw _

end Reading

section Containers

open HeapM

variable {M : Motion Heap} {h : Heap} {id : Nat}

theorem Motion.updateArray_leads (f : List Value → Except Fault (List Value))
    (write : ∀ items items', h.constant id = false → h.payload? id = some (.array items) →
      f items = .ok items' → M.Leads h (h.write id (.array items'))) :
    M.Leads h (left (updateArray (.ref ⟨.array, id⟩) f h)) := by
  rw [updateArray_apply]
  split
  · exact M.refl h
  · rename_i changeable
    split
    · exact M.refl h
    · rename_i items found
      split
      · exact write items _ (Bool.eq_false_iff.mpr changeable) (payload?_of_items? found) ‹_›
      · exact M.refl h

theorem Motion.mappingInsert_leads (key value : Value) (note : M.Leads h (h.note key))
    (write : ∀ entries, (h.note key).constant id = false →
      (h.note key).payload? id = some (.mapping entries) →
      M.Leads (h.note key) ((h.note key).write id (.mapping (h.put key value entries)))) :
    M.Leads h (left (mappingInsert (.ref ⟨.mapping, id⟩) key value h)) := by
  rw [mappingInsert_apply]
  split
  · exact M.refl h
  · rename_i changeable
    split
    · exact M.refl h
    · rename_i entries found
      refine M.trans note (write entries ?_
        ((payload?_note h key id).trans (payload?_of_entries? found)))
      rw [constant_note]
      exact Bool.eq_false_iff.mpr changeable

end Containers

namespace Motion.Shapes

open HeapM Operator

variable {M : Motion Heap} {owner : ListId} {New : Nat → Prop} {payload : Payload} {id : Nat}

section

variable (shapes : M.Shapes owner New)
include shapes

theorem place_moves (solid : payload.kind ≠ .buffer) :
    M.Moves (HeapM.place owner payload) := fun h ready => shapes.place h payload ready solid

theorem place_bind_moves (payload : Payload) (solid : payload.kind ≠ .buffer)
    (next : ∀ id, New id → M.Moves (f (.ref ⟨payload.kind, id⟩))) :
    M.Moves (HeapM.place owner payload >>= f) := by
  refine (shapes.place_moves solid).bind_where
    (Q := fun v => ∃ id, v = .ref ⟨payload.kind, id⟩ ∧ New id) (fun h v h' ready ran => ?_) ?_
  · rw [place_apply] at ran
    cases ran
    exact ⟨_, rfl, shapes.new h ready⟩
  · rintro _ ⟨id, rfl, isNew⟩
    exact next id isNew

theorem updateArray_moves (isNew : New id) (f : List Value → Except Fault (List Value)) :
    M.Moves (updateArray (.ref ⟨.array, id⟩) f) := fun h ready =>
  Motion.updateArray_leads f fun _ _ _ found _ =>
    shapes.write h id _ _ ready isNew found rfl (by simp [kind])

theorem mappingInsert_moves (isNew : New id) (key value : Value) :
    M.Moves (mappingInsert (.ref ⟨.mapping, id⟩) key value) := by
  intro h ready
  have noted := shapes.note h key ready
  exact Motion.mappingInsert_leads key value noted fun _ _ found =>
    shapes.write _ id _ _ (M.ready ready noted) isNew found rfl (by simp [kind])

theorem merge_moves (entries : List (Value × Value)) : M.Moves (merge owner entries) :=
  shapes.place_bind_moves (.mapping []) (by simp [kind]) fun _ isNew =>
    (moves_forM (fun _ => shapes.mappingInsert_moves isNew _ _) entries).bind fun _ => moves_pure _

theorem add_moves (a b : Value) : M.Moves (add owner a b) := by
  unfold add
  split
  · exact moves_pure _
  · split
    · exact moves_pure _
    · refine moves_get_bind fun h => ?_
      split
      · split
        · exact shapes.place_moves (by simp [kind])
        · exact moves_throw _
      · split
        · exact shapes.merge_moves _
        · exact moves_throw _
      all_goals first
        | exact moves_throw _
        | split
          · exact shapes.place_moves (by simp [kind])
          · exact moves_throw _

theorem sub_moves (a b : Value) : M.Moves (sub owner a b) := by
  unfold sub
  split
  · exact moves_pure _
  · split
    · exact moves_pure _
    · refine moves_get_bind fun h => ?_
      split
      · split
        · exact shapes.place_moves (by simp [kind])
        · exact moves_throw _
      · exact moves_throw _

theorem binary_moves (op : BinaryOp) (a b : Value) : M.Moves (binary owner op a b) := by
  cases op with
  | add => exact shapes.add_moves a b
  | sub => exact shapes.sub_moves a b
  | mul | div | rem => exact moves_ofExcept _
  | eq | ne => exact moves_get_bind fun _ => moves_pure _
  | lt | le | gt | ge => exact moves_get_bind fun _ => moves_ofExcept _

theorem typed_moves (op : BinaryOp) (flavour : Flavour)
    (a b : Value) : M.Moves (typed owner op flavour a b) := by
  unfold typed
  split
  · exact moves_pure _
  · exact shapes.binary_moves op a b

end

/-! Copies. -/

theorem onHeap_moves (moves : M.Moves act) : M.copying.Moves (onHeap act) := by
  intro s ready
  have leads := moves s.heap ready
  unfold onHeap
  split
  all_goals
    rename_i ran
    rwa [ran] at leads

section

variable (shapes : M.Shapes owner New)
include shapes

theorem begin_leads (ready : M.Ready s.heap) (found : s.heap.payload? id = some payload) :
    M.copying.Leads s (left (begin owner payload s)) := by
  cases payload with
  | buffer b => exact shapes.duplicate s.heap id b ready found
  | string _ | array _ | mapping _ | function _ _ =>
    exact onHeap_moves (shapes.place_moves (by simp [kind])) s ready

theorem begin_new (ready : M.copying.Ready s)
    (began : begin owner payload s = .ok c t) : ∃ id, c = .ref ⟨payload.kind, id⟩ ∧ New id := by
  have fresh : ∀ (h : Heap) (p : Payload), h.cells.size = s.heap.cells.size →
      ∃ id, (h.place owner p).1 = .ref ⟨p.kind, id⟩ ∧ New id := fun h p same =>
    ⟨h.cells.size, rfl, same ▸ shapes.new s.heap ready⟩
  cases payload with
  | buffer b =>
    cases began
    exact fresh (s.heap.record .copied b) (.buffer b.duplicate) (by rw [cells_record])
  | array _ =>
    cases began
    exact fresh s.heap (.array []) rfl
  | mapping _ =>
    cases began
    exact fresh s.heap (.mapping []) rfl
  | string _ | function _ _ =>
    cases began
    exact fresh s.heap _ rfl

theorem copy_moves (fuel : Nat) (v : Value) : M.copying.Moves (copy owner fuel v) := by
  induction fuel generalizing v with
  | zero => exact moves_throw _
  | succ fuel ih =>
    unfold copy
    split
    case h_2 => exact moves_pure _
    rename_i r
    intro s ready
    rw [get_bind_apply]
    split
    · exact M.refl s.heap
    cases s.memo.lookup r.id with
    | some copy => exact M.refl s.heap
    | none =>
      cases found : s.heap.payload? r.id with
      | none => exact M.refl s.heap
      | some payload =>
        have begun := shapes.begin_leads ready found
        refine leads_bind begun fun c t began => ?_
        obtain ⟨id, rfl, isNew⟩ := shapes.begin_new ready began
        rw [began] at begun
        refine Moves.bind (fun s _ => M.refl s.heap) (fun _ => ?_) t (M.copying.ready ready begun)
        split
        · exact (moves_forM (fun item => (ih item).bind fun _ =>
            onHeap_moves (shapes.updateArray_moves isNew _)) _).bind fun _ => moves_pure _
        · exact (moves_forM (fun e : Entry => (ih e.key).bind fun _ => (ih e.value).bind fun _ =>
            onHeap_moves (shapes.mappingInsert_moves isNew _ _)) _).bind fun _ => moves_pure _
        · exact moves_pure _

theorem copyValue_moves (v : Value) : M.copying.Moves (copyValue owner v) :=
  fun s ready => shapes.copy_moves (s.heap.cells.size + 1) v s ready

theorem copyAll_moves (values : List Value) : M.Moves (copyAll owner values) := by
  intro h ready
  have leads := moves_mapM (M := M.copying) shapes.copyValue_moves values { heap := h } ready
  unfold copyAll
  split
  all_goals
    rename_i ran
    rwa [ran] at leads

theorem copyEach_leads (ready : M.Ready h)
    (values : List Value) : M.Leads h (h.copyEach owner values).2 := by
  show M.Leads h (values.foldl _ ([], (⟨h, []⟩ : Copying))).2.heap
  refine foldlRecOn values _
    (motive := fun r : List (Except Fault Value) × Copying => M.Leads h r.2.heap) (M.refl h) ?_
  rintro ⟨done, s⟩ leads v -
  have further := shapes.copyValue_moves v s (M.ready ready leads)
  dsimp only at leads ⊢
  cases ran : copyValue owner v s with
  | ok copy t =>
    rw [ran] at further
    exact M.trans leads further
  | error f t =>
    rw [ran] at further
    exact M.trans leads further

end

end Motion.Shapes

/-! ### What is done to payloads that are there -/

namespace Motion.Edits

open HeapM Operator

variable {M : Motion Heap} {stores : Nat → Value → Prop} {overwrites : Nat → Prop}
  {container key value : Value} (edits : M.Edits stores overwrites)

include edits

theorem updateArray_moves
    (stored : ∀ id items items', container = .ref ⟨.array, id⟩ → f items = .ok items' →
      ∀ v ∈ items', v ∈ items ∨ stores id v) : M.Moves (updateArray container f) := by
  by_cases isArray : ∃ id, container = .ref ⟨.array, id⟩
  · obtain ⟨id, rfl⟩ := isArray
    refine fun h ready => Motion.updateArray_leads f fun items items' changeable found changed =>
      edits.write h id _ _ ready found rfl (by simp [kind]) changeable fun v held => ?_
    cases held with
    | item mem => exact (stored id items items' rfl changed v mem).imp_left .item
  · unfold updateArray
    split
    · exact absurd ⟨_, rfl⟩ isArray
    · exact moves_throw _

theorem arrayPush_moves (stored : ∀ id, container = .ref ⟨.array, id⟩ → stores id value) :
    M.Moves (arrayPush container value) := by
  refine edits.updateArray_moves fun id items items' same changed v mem => ?_
  cases changed
  rcases mem_append.mp mem with before | new
  · exact .inl before
  · exact .inr (mem_singleton.mp new ▸ stored id same)

theorem mappingInsert_moves
    (stored : ∀ id, container = .ref ⟨.mapping, id⟩ → stores id key ∧ stores id value) :
    M.Moves (mappingInsert container key value) := by
  by_cases isMapping : ∃ id, container = .ref ⟨.mapping, id⟩
  · obtain ⟨id, rfl⟩ := isMapping
    intro h ready
    have noted := edits.note h key ready
    refine Motion.mappingInsert_leads key value noted fun _ changeable found =>
      edits.write _ id _ _ (M.ready ready noted) found rfl (by simp [kind]) changeable
        fun v held => ?_
    rcases holds_put held with before | rfl | rfl
    · exact .inl before
    · exact .inr (stored id rfl).1
    · exact .inr (stored id rfl).2
  · unfold mappingInsert
    split
    · exact absurd ⟨_, rfl⟩ isMapping
    · exact moves_throw _

theorem setByte_moves {id : Nat} (overwritten : overwrites id) (byte : UInt8) :
    M.Moves (setByte id container key byte) := by
  intro h ready
  rw [setByte_apply]
  have forgets := edits.forget h id ready
  split
  · rename_i b found
    split
    · exact M.trans forgets
        (edits.bytes _ id b _ (M.ready ready forgets) found length_set overwritten)
    · exact forgets
  · exact forgets

theorem indexSet_moves (element : ∀ id, container = .ref ⟨.array, id⟩ → stores id value)
    (entry : ∀ id, container = .ref ⟨.mapping, id⟩ → stores id key ∧ stores id value)
    (byte : ∀ id i, container = .ref ⟨.buffer, id⟩ → value = .integer i → overwrites id) :
    M.Moves (indexSet container key value) := by
  unfold indexSet
  split
  · refine edits.updateArray_moves fun id items items' same changed v mem => ?_
    unfold Except.map at changed
    split at changed <;> cases changed
    rcases mem_or_eq_of_mem_set mem with before | rfl
    · exact .inl before
    · exact .inr (element id same)
  · exact edits.mappingInsert_moves entry
  · split
    · exact edits.setByte_moves (byte _ _ rfl rfl) _
    · exact moves_throw _
  · exact moves_throw _
  · exact moves_throw _

theorem overwrite_moves (change : Overwrite)
    (overwritten : ∀ id, container = .ref ⟨.buffer, id⟩ → overwrites id) :
    M.Moves (overwrite container change) := by
  unfold overwrite
  split
  · rename_i id
    intro h ready
    have forgets := edits.forget h id ready
    rw [modify_bind_apply, get_bind_apply]
    cases found : (h.forgetDigest id).payload? id with
    | none => exact forgets
    | some payload =>
      cases payload with
      | buffer b =>
        exact M.trans forgets (edits.bytes _ id b _ (M.ready ready forgets) found
          (change.length_apply _) (overwritten id rfl))
      | string | array | mapping | function => exact forgets
  · exact moves_pure _

end Motion.Edits

/-! ### Operations on the heap -/

namespace HeapM

variable {owner : ListId}

theorem place_moves (payload : Payload) : (motion owner).Moves (place owner payload) :=
  fun h ready => (motion_crafts owner).place h payload ready

end HeapM

namespace Operator

variable {owner : ListId}

theorem indexGet_moves (container key : Value) : (motion owner).Moves (indexGet container key) :=
  Motion.indexGet_moves (motion_crafts owner).note container key

theorem indexSet_moves (container key value : Value) :
    (motion owner).Moves (indexSet container key value) :=
  (motion_edits owner).indexSet_moves (fun _ _ => trivial) (fun _ _ => ⟨trivial, trivial⟩)
    fun _ _ _ _ => trivial

end Operator

namespace Heap

variable {owner : ListId}

theorem copyAll_moves (values : List Value) : (motion owner).Moves (copyAll owner values) :=
  (motion_crafts owner).shapes.copyAll_moves values

theorem copyValue_moves (v : Value) : (motion owner).Moves (copyValue owner v) := by
  intro h ready
  have serves := (motion_crafts owner).shapes.copyValue_moves v { heap := h } ready
  unfold copyValue
  split
  all_goals
    rename_i ran
    rwa [ran] at serves

/-! ### Drafts -/

theorem enter_serves (owner : ListId) (h : Heap) (entries : List (Value × Value)) :
    Serves owner h (h.enter entries).2 := by
  have fold : ∀ (done : List Entry) (h : Heap), Serves owner h
      (entries.foldl (fun r e => (r.2.put e.1 e.2 r.1, r.2.note e.1)) (done, h)).2 := by
    induction entries with
    | nil => exact fun _ => .refl
    | cons e rest ih =>
      intro done h
      exact (note_serves owner h e.1).trans (ih (h.put e.1 e.2 done) (h.note e.1))
  exact fold [] h

theorem draftPayload_serves (owner : ListId) (h : Heap) (draft : Draft) :
    Serves owner h (h.draftPayload draft).2 := by
  cases draft with
  | instances c count =>
    exact .of_change (.record h .constructed (.ofClass c count)) (lists_record h _ _)
  | mapping entries => exact enter_serves owner h entries
  | string _ | buffer _ | array _ | function _ _ => exact .refl h

theorem make_changes (sound : h.Sound) (valid : ∀ l, ownership = .owned l → l.number < h.lists.size)
    (draft : Draft) : Changes h (h.make ownership draft).2 := by
  have drafted := (draftPayload_serves ⟨0⟩ h draft).changes
  refine .trans drafted ?_
  unfold make
  cases ownership with
  | owned l =>
    exact place_changes ((valid l rfl).trans_le (drafted.size_le sound).2) _
  | loose => exact .single (.create _ _ _ _)
  | exempt exemption => exact .single (.create _ _ _ _)

theorem list_make_of_ne (h : Heap) (different : ownership ≠ .owned l) (draft : Draft) :
    (h.make ownership draft).2.list l = h.list l := by
  -- The draft changes no list: none but some other one, whichever that is.
  have drafted := (draftPayload_serves ⟨l.number + 1⟩ h draft).lists l fun same => by cases l; simp at same
  refine Eq.trans ?_ drafted
  unfold make
  cases ownership with
  | owned owner => exact list_adopt_of_ne fun same => different (same ▸ rfl)
  | loose | exempt _ => rfl

end Heap

/-! ### Contents -/

/-- All of a payload but its digest. -/
def Aspect.undigested (a : Aspect) : Aspect := { a with digest := none }

namespace Heap

variable {h h' : Heap} {owner : ListId} {n id : Nat}

def contents? (h : Heap) (id : Nat) : Option Aspect := (h.aspect? id).map Aspect.undigested

section

variable (same : h'.contents? id = h.contents? id)
include same

theorem payload?_of_contents : h'.payload? id = h.payload? id := by
  have seen : ∀ h : Heap, h.payload? id = (h.contents? id).bind Aspect.payload := fun h => by
    rw [payload?_eq, contents?, Option.bind_map]
    rfl
  rw [seen, seen, same]

theorem owner?_of_contents : h'.owner? id = h.owner? id := by
  have seen : ∀ h : Heap, h.owner? id = (h.contents? id).bind Aspect.owner := fun h => by
    rw [owner?_eq, contents?, Option.bind_map]
    rfl
  rw [seen, seen, same]

theorem constant_of_contents : h'.constant id = h.constant id := by
  have seen : ∀ h : Heap, h.constant id = (h.contents? id).any Aspect.constant := fun h => by
    rw [constant_eq, contents?, Option.any_map]
    rfl
  rw [seen, seen, same]

theorem unowned_of_contents : h'.unowned id = h.unowned id := by
  have seen : ∀ h : Heap, h.unowned id = (h.contents? id).any Aspect.unowned := fun h => by
    rw [unowned_eq, contents?, Option.any_map]
    rfl
  rw [seen, seen, same]

end

theorem contents?_of_mapped {f : Nat → Aspect → Aspect}
    (seen : ∀ i, h'.aspect? i = (h.aspect? i).map (f i))
    (same : ∀ a, (f id a).undigested = a.undigested) : h'.contents? id = h.contents? id := by
  rw [contents?, contents?, seen, Option.map_map]
  exact congrArg (Option.map · _) (funext same)

/-- The payloads from `n` on are of the list `owner`, and those before have the same contents. -/
structure Adds (owner : ListId) (n : Nat) (h h' : Heap) : Prop where
  serves : Serves owner h h'
  old : ∀ id < n, h'.contents? id = h.contents? id
  new : ∀ id, n ≤ id → (id < h.cells.size → h.owner? id = some owner) →
    id < h'.cells.size → h'.owner? id = some owner

theorem Adds.mapped {f : Nat → Aspect → Aspect} (serves : Serves owner h h')
    (seen : ∀ i, h'.aspect? i = (h.aspect? i).map (f i)) (owners : ∀ i a, (f i a).owner = a.owner)
    (old : ∀ i a, i < n → (f i a).undigested = a.undigested) : Adds owner n h h' where
  serves := serves
  old id below := contents?_of_mapped seen fun a => old id a below
  new id _ mine within := by
    rw [owner?_eq_of_mapped seen owners]
    exact mine (size_eq_of_mapped seen ▸ within)

/-- Operators and copies that began when there were `n` payloads. -/
def adding (owner : ListId) (n : Nat) : Motion Heap where
  Ready h := (motion owner).Ready h ∧ n ≤ h.cells.size
  Leads := Adds owner n
  refl h := ⟨.refl h, fun _ _ => rfl, fun _ _ mine => mine⟩
  trans first second :=
    { serves := first.serves.trans second.serves
      old id below := (second.old id below).trans (first.old id below)
      new id above mine := second.new id above (first.new id above mine) }
  ready ready adds :=
    ⟨(motion owner).ready ready.1 adds.serves,
      ready.2.trans (adds.serves.changes.size_le ready.1.1).1⟩

theorem adding_crafts (owner : ListId) (n : Nat) : (adding owner n).Crafts owner (n ≤ ·) where
  place h payload ready := by
    have more := extended_place h owner payload
    refine ⟨place_serves ready.1.2 payload, fun id below => ?_, fun id _ mine within => ?_⟩
    · rw [contents?, more.aspect?_old (by have := ready.2; omega), contents?]
    · by_cases isNew : id = h.cells.size
      · rw [isNew, more.owner?_new]
      · rw [more.owner?_old isNew]
        exact mine (by rw [more.cells] at within; omega)
  new _ ready := ready.2
  write h id payload _ above := by
    refine .mapped (.of_change (.write _ _ _) rfl) (aspect?_write h id payload) (fun i a => ?_)
      fun i a below => ?_
    · split <;> rfl
    · rw [if_neg (by omega)]
  note h v _ := by
    refine .mapped (note_serves owner h v) (aspect?_note h v) (fun i a => ?_) fun i a _ => ?_
    all_goals split <;> rfl
  record h stage b _ := by
    refine .mapped (f := fun _ a => a) (.of_change (.record h stage b) (lists_record h stage b))
      (fun i => ?_) (fun _ _ => rfl) fun _ _ _ => rfl
    rw [aspect?_record, Option.map_id']

end Heap

end Tenancy
