import Tenancy.Proofs.Heap.Exchange
import Tenancy.Proofs.Heap.Kinship
import Tenancy.Proofs.Machine.Local

/-!
What code can do to payloads.

Operators and copies make new payloads and fill those, so that what was there keeps its contents.
Pushing, inserting, assigning to an element and overwriting bytes reach into a payload that was there;
all that it holds afterwards it held before, or the operation has stored it. A collection frees payloads
of its list. Whether a payload is constant or shared never changes by any of these.
-/

namespace Tenancy

open Tenancy.Action Motion Exec

/-- The same payload if any, but for the bytes of a buffer. -/
inductive Payload.Resembles : Option Payload → Option Payload → Prop where
  | refl (p : Option Payload) : Resembles p p
  | buffer {b b' : Buffer} (cls : b'.cls = b.cls) (length : b'.bytes.length = b.bytes.length) :
      Resembles (some (.buffer b)) (some (.buffer b'))

namespace Payload.Resembles

variable {p q r : Option Payload}

theorem trans (first : Resembles p q) (second : Resembles q r) : Resembles p r := by
  cases first with
  | refl => exact second
  | buffer cls length =>
    cases second with
    | refl => exact .buffer cls length
    | buffer cls' length' => exact .buffer (cls'.trans cls) (length'.trans length)

theorem eq_of_not_buffer (resembles : Resembles p q) (solid : ∀ b, p ≠ some (.buffer b)) : q = p := by
  cases resembles with
  | refl => rfl
  | buffer => exact absurd rfl (solid _)

theorem of_buffer (resembles : Resembles p q) (before : p = some (.buffer b)) :
    ∃ b', q = some (.buffer b') ∧ b'.cls = b.cls ∧ b'.bytes.length = b.bytes.length := by
  cases resembles with
  | refl => exact ⟨b, before, rfl, rfl⟩
  | buffer cls length =>
    cases before
    exact ⟨_, rfl, cls, length⟩

end Payload.Resembles

namespace Heap

variable {h h' : Heap} {owner l : ListId} {n id : Nat} {v : Value}

theorem unowned_eq_of_mapped {f : Nat → Aspect → Aspect}
    (seen : ∀ i, h'.aspect? i = (h.aspect? i).map (f i))
    (unowned : ∀ i a, (f i a).unowned = a.unowned) (i : Nat) : h'.unowned i = h.unowned i := by
  rw [unowned_eq, unowned_eq, seen]
  cases h.aspect? i <;> simp [unowned]

theorem unowned_of_size_le (above : h.cells.size ≤ id) : h.unowned id = false :=
  Bool.eq_false_iff.mpr fun exempt => absurd (within_of_unowned exempt) (Nat.not_lt_of_le above)

/-! ### What is done to payloads that are there -/

/-- Nothing gets into a payload but what is stored, and constant ones stay as they are, save for bytes
that are overwritten. New payloads may be owned. -/
structure Edited (stores : Nat → Value → Prop) (overwrites : Nat → Prop) (h h' : Heap) : Prop where
  changes : h.Changes h'
  constant : ∀ id < h.cells.size, h'.constant id = h.constant id
  unowned : ∀ id < h.cells.size, h'.unowned id = h.unowned id
  owner : ∀ id < h.cells.size, ∀ l, h'.owner? id = some l → h.owner? id = some l
  ownable : ∀ id, h.cells.size ≤ id → h'.unowned id = false
  holds : ∀ id < h.cells.size, ∀ v, h'.Holds id v → h.Holds id v ∨ stores id v
  resembles : ∀ id, h.constant id = true → Payload.Resembles (h.payload? id) (h'.payload? id)
  fixed : ∀ id, h.constant id = true → ¬ overwrites id → h'.payload? id = h.payload? id

namespace Edited

variable {stores stores' : Nat → Value → Prop} {overwrites overwrites' : Nat → Prop}

theorem mono (edited : Edited stores overwrites h h') (more : ∀ id v, stores id v → stores' id v)
    (moreToo : ∀ id, overwrites id → overwrites' id) : Edited stores' overwrites' h h' :=
  { edited with
    holds := fun id within v held => (edited.holds id within v held).imp_right (more id v)
    fixed := fun id isConstant kept => edited.fixed id isConstant (mt (moreToo id) kept) }

theorem trans (first : Edited stores overwrites h h') (second : Edited stores overwrites h' h'')
    (sound : h.Sound) : Edited stores overwrites h h'' := by
  have grown := (first.changes.size_le sound).1
  have still : ∀ id, h.constant id = true → h'.constant id = true := fun id isConstant =>
    (first.constant id (within_of_constant isConstant)).trans isConstant
  refine ⟨first.changes.trans second.changes, fun id within => ?_, fun id within => ?_,
    fun id within l owned => ?_, fun id above => ?_, fun id within v held => ?_,
    fun id isConstant => ?_, fun id isConstant kept => ?_⟩
  · rw [second.constant id (by omega), first.constant id within]
  · rw [second.unowned id (by omega), first.unowned id within]
  · exact first.owner id within l (second.owner id (by omega) l owned)
  · by_cases within : id < h'.cells.size
    · rw [second.unowned id within, first.ownable id above]
    · exact second.ownable id (by omega)
  · rcases second.holds id (by omega) v held with before | stored
    · exact first.holds id within v before
    · exact .inr stored
  · exact (first.resembles id isConstant).trans (second.resembles id (still id isConstant))
  · rw [second.fixed id (still id isConstant) kept, first.fixed id isConstant kept]

theorem holds_of_constant (edited : Edited stores overwrites h h') (isConstant : h.constant id = true)
    (held : h'.Holds id v) : h.Holds id v := by
  obtain ⟨p, found, held⟩ := held
  have resembles := edited.resembles id isConstant
  rw [found] at resembles
  generalize before : h.payload? id = old at resembles
  cases resembles with
  | refl => exact ⟨p, before, held⟩
  | buffer => cases held

theorem of_contents (changes : h.Changes h')
    (old : ∀ id < h.cells.size, h'.contents? id = h.contents? id)
    (ownable : ∀ id, h.cells.size ≤ id → h'.unowned id = false) : Edited stores overwrites h h' where
  changes := changes
  constant id within := constant_of_contents (old id within)
  unowned id within := unowned_of_contents (old id within)
  owner id within l owned := by rwa [owner?_of_contents (old id within)] at owned
  ownable := ownable
  holds id within v held := by
    unfold Holds at held ⊢
    rw [payload?_of_contents (old id within)] at held
    exact .inl held
  resembles id isConstant := by
    rw [payload?_of_contents (old id (within_of_constant isConstant))]
    exact .refl _
  fixed id isConstant _ := payload?_of_contents (old id (within_of_constant isConstant))

theorem refl (h : Heap) : Edited stores overwrites h h :=
  of_contents .refl (fun _ _ => rfl) fun _ => unowned_of_size_le

theorem of_adds (sound : h.Sound) (adds : Adds owner h.cells.size h h') :
    Edited stores overwrites h h' := by
  refine of_contents adds.serves.changes adds.old fun id above => ?_
  by_cases within : id < h'.cells.size
  · have owned := adds.new id above (fun below => absurd below (by omega)) within
    exact (adds.serves.changes.sound sound).consistent.not_unowned owned
  · exact unowned_of_size_le (by omega)

theorem of_write {payload : Payload} (holds : ∀ v, payload.Holds v → h.Holds id v ∨ stores id v)
    (resembles : h.constant id = true → Payload.Resembles (h.payload? id) (some payload))
    (fixed : h.constant id = true → overwrites id) :
    Edited stores overwrites h (h.write id payload) := by
  have seen := aspect?_write h id payload
  have size : (h.write id payload).cells.size = h.cells.size := size_eq_of_mapped seen
  refine ⟨.single (.write _ _ _), fun i _ => ?_, fun i _ => ?_, fun i _ l owned => ?_,
    fun i above => unowned_of_size_le (size ▸ above), fun i _ v held => ?_,
    fun i isConstant => ?_, fun i isConstant kept => ?_⟩
  · refine constant_eq_of_mapped seen (fun i a => ?_) i
    split <;> rfl
  · refine unowned_eq_of_mapped seen (fun i a => ?_) i
    split <;> rfl
  · rwa [owner?_eq_of_mapped seen (fun i a => by split <;> rfl)] at owned
  · rcases holds_of_write held with ⟨rfl, new⟩ | before
    · exact holds v new
    · exact .inl before
  · rw [payload?_write]
    split
    · obtain ⟨rfl, -⟩ := ‹i = id ∧ _›
      exact resembles isConstant
    · exact .refl _
  · rw [payload?_write, if_neg]
    rintro ⟨rfl, -⟩
    exact kept (fixed isConstant)

theorem note (h : Heap) (v : Value) : Edited stores overwrites h (h.note v) := by
  have seen := aspect?_note h v
  refine of_contents (.single (.note h v))
    (fun id _ => contents?_of_mapped seen fun a => by split <;> rfl) fun id above =>
    unowned_of_size_le (size_eq_of_mapped seen ▸ above)

theorem forgetDigest (h : Heap) (id : Nat) : Edited stores overwrites h (h.forgetDigest id) := by
  have seen := aspect?_forgetDigest h id
  refine of_contents (.single (.forgetDigest h id))
    (fun i _ => contents?_of_mapped seen fun a => by split <;> rfl) fun i above =>
    unowned_of_size_le (size_eq_of_mapped seen ▸ above)

theorem collect (sound : h.Sound) (l : ListId) (roots : List Value) :
    Edited stores overwrites h (h.collect l roots).2 := by
  classical
  have sane := sound.consistent
  have seen := fun i => sane.aspect?_collect l roots i
  have kept : ∀ id, h.constant id = true → (h.collect l roots).2.payload? id = h.payload? id := by
    intro id isConstant
    refine payload?_congr (sane.getElem?_collect ?_)
    rw [sane.owner?_of_constant isConstant]
    exact Option.some_ne_none l |>.symm
  refine ⟨.single (.collect h l roots), fun i _ => ?_, fun i _ => ?_, fun i _ l' owned => ?_,
    fun i above => unowned_of_size_le (size_eq_of_mapped seen ▸ above), fun i _ v held => ?_,
    fun i isConstant => by rw [kept i isConstant]; exact .refl _,
    fun i isConstant _ => kept i isConstant⟩
  · refine constant_eq_of_mapped seen (fun i a => ?_) i
    split <;> rfl
  · refine unowned_eq_of_mapped seen (fun i a => ?_) i
    split <;> rfl
  · exact (owner?_of_collect sane owned).1
  · exact .inl (holds_of_collect sane held).1

def motion (stores : Nat → Value → Prop) (overwrites : Nat → Prop) : Motion Heap where
  Ready := Sound
  Leads h h' := h.Sound → Edited stores overwrites h h'
  refl h _ := .refl h
  trans first second sound :=
    (first sound).trans (second ((first sound).changes.sound sound)) sound
  ready sound edits := (edits sound).changes.sound sound

theorem motion_edits : (motion stores overwrites).Edits stores overwrites where
  write h id old payload _ found _ _ changeable holds _ := by
    have still : h.constant id ≠ true := Bool.eq_false_iff.mp changeable
    refine .of_write (fun v held => ?_) (fun isConstant => absurd isConstant still)
      fun isConstant => absurd isConstant still
    exact (holds v held).imp_left fun before => ⟨old, found, before⟩
  bytes h id b bytes _ found length overwritten _ := by
    refine .of_write (by rintro v ⟨⟩) (fun _ => ?_) fun _ => overwritten
    rw [found]
    exact .buffer rfl length
  note h v _ _ := .note h v
  forget h id _ _ := .forgetDigest h id

end Edited

end Heap

/-! ### Failures, and what is there after a success -/

section Acting

open Heap HeapM

variable {container key value v : Value} {f : List Value → Except Fault (List Value)} {e : Fault}
  {h h' : Heap} {id : Nat}

theorem HeapM.updateArray_error (failed : updateArray container f h = .error e h') : h' = h := by
  by_cases isArray : ∃ id, container = .ref ⟨.array, id⟩
  · obtain ⟨id, rfl⟩ := isArray
    rw [updateArray_apply] at failed
    split at failed
    · cases failed
      rfl
    · split at failed
      · cases failed
        rfl
      · split at failed <;> cases failed
        rfl
  · unfold updateArray at failed
    split at failed
    · exact absurd ⟨_, rfl⟩ isArray
    · cases failed
      rfl

theorem HeapM.mappingInsert_error (failed : mappingInsert container key value h = .error e h') :
    h' = h := by
  by_cases isMapping : ∃ id, container = .ref ⟨.mapping, id⟩
  · obtain ⟨id, rfl⟩ := isMapping
    rw [mappingInsert_apply] at failed
    split at failed
    · cases failed
      rfl
    · split at failed <;> cases failed
      rfl
  · unfold mappingInsert at failed
    split at failed
    · exact absurd ⟨_, rfl⟩ isMapping
    · cases failed
      rfl

theorem Operator.indexSet_error (failed : indexSet container key value h = .error e h') :
    h' = h ∨ ∃ id, h' = h.forgetDigest id := by
  unfold indexSet at failed
  split at failed
  · exact .inl (updateArray_error failed)
  · exact .inl (mappingInsert_error failed)
  · split at failed
    · rename_i id _ _
      rw [setByte_apply] at failed
      split at failed
      · split at failed <;> cases failed
        exact .inr ⟨id, rfl⟩
      · cases failed
        exact .inr ⟨id, rfl⟩
    · cases failed
      exact .inl rfl
  · cases failed
    exact .inl rfl
  · cases failed
    exact .inl rfl

theorem HeapM.overwrite_ok (container : Value) (change : Overwrite) (h : Heap) :
    ∃ answer h', overwrite container change h = .ok answer h' := by
  unfold overwrite
  split
  · rename_i id
    rw [modify_bind_apply, get_bind_apply]
    cases (h.forgetDigest id).payload? id with
    | none => exact ⟨_, _, rfl⟩
    | some payload => cases payload <;> exact ⟨_, _, rfl⟩
  · exact ⟨_, _, rfl⟩

theorem Heap.holds_write (found : h.payload? id = some old) (held : new.Holds v) :
    (h.write id new).Holds id v := by
  have within : id < h.cells.size := within_of_live (by simp [live, found])
  exact ⟨new, by rw [payload?_write, if_pos ⟨rfl, within⟩], held⟩

theorem HeapM.updateArray_holds (ran : updateArray (.ref ⟨.array, id⟩) f h = .ok () h')
    (stored : ∀ items items', f items = .ok items' → v ∈ items') : h'.Holds id v := by
  rw [updateArray_apply] at ran
  split at ran
  · cases ran
  · split at ran
    · cases ran
    · split at ran <;> cases ran
      rename_i items found _ items' changed
      exact holds_write (payload?_of_items? found) (.item (stored items items' changed))

theorem Heap.exists_value_putAt (digest : Digest) (entries : List Entry) :
    ∃ e ∈ h.putAt digest key value entries, e.value = value := by
  induction entries with
  | nil => exact ⟨_, .head _, rfl⟩
  | cons e rest ih =>
    unfold putAt
    split
    · exact ⟨_, .head _, rfl⟩
    · obtain ⟨e', mem, same⟩ := ih
      exact ⟨e', .tail _ mem, same⟩

theorem HeapM.mappingInsert_holds (ran : mappingInsert (.ref ⟨.mapping, id⟩) key value h = .ok () h') :
    h'.Holds id value := by
  rw [mappingInsert_apply] at ran
  split at ran
  · cases ran
  · split at ran <;> cases ran
    rename_i entries found
    obtain ⟨e, mem, same⟩ : ∃ e ∈ h.put key value entries, e.value = value :=
      h.exists_value_putAt (h.digest key) entries
    have held : (Payload.mapping (h.put key value entries)).Holds e.value := .value mem
    rw [same] at held
    exact holds_write ((payload?_note h key id).trans (payload?_of_entries? found)) held

end Acting

/-! ### Operations -/

/-- What can be done with values: the operations on containers and bytes, the operators, copies,
collections, and the instruction that assigns to an element. -/
inductive Operation where
  | push (container value : Value)
  | insert (container key value : Value)
  | set (container key value : Value)
  | overwrite (container : Value) (change : Overwrite)
  | get (container key : Value)
  | binary (owner : ListId) (op : BinaryOp) (flavour : Flavour) (a b : Value)
  | neg (a : Value)
  | not (a : Value)
  | copyAll (target : ListId) (values : List Value)
  | copyEach (target : ListId) (values : List Value)
  | collect (list : ListId) (roots : List Value)
  | idxSet (s : State) (frame : Frame) (instructions : Array Instruction) (i : Instruction) (pc : Nat)

/-- The end of an action on the heap, without its answer. -/
def HeapM.ended {α : Type} : EStateM.Result Fault Heap α → EStateM.Result Trouble Heap Unit
  | .ok _ h => .ok () h
  | .error f h => .error (.fault f) h

@[simp] theorem HeapM.left_ended (r : EStateM.Result Fault Heap α) :
    left (ended r) = left r := by cases r <;> rfl

theorem HeapM.error_of_ended (failed : ended r = .error trouble h) : ∃ f, r = .error f h := by
  cases r with
  | ok => cases failed
  | error f =>
    cases failed
    exact ⟨f, rfl⟩

theorem HeapM.ok_of_ended (ran : ended r = .ok () h) : r = .ok () h := by
  cases r with
  | ok =>
    cases ran
    rfl
  | error => cases ran

def State.withHeap (s : State) (heap : Heap) : State := { s with world := { s.world with heap } }

namespace Operation

open HeapM

def run (op : Operation) (h : Heap) : EStateM.Result Trouble Heap Unit :=
  match op with
  | .push container value => ended (arrayPush container value h)
  | .insert container key value => ended (mappingInsert container key value h)
  | .set container key value => ended (Operator.indexSet container key value h)
  | .overwrite container change => ended (HeapM.overwrite container change h)
  | .get container key => ended (Operator.indexGet container key h)
  | .binary owner op flavour a b => ended (Operator.typed owner op flavour a b h)
  | .neg a => ended ((ofExcept (Operator.neg a) : HeapM Value) h)
  | .not a => ended ((pure (Operator.not a) : HeapM Value) h)
  | .copyAll target values => ended (Heap.copyAll target values h)
  | .copyEach target values => .ok () (h.copyEach target values).2
  | .collect list roots => .ok () (h.collect list roots).2
  | .idxSet s frame instructions i pc =>
    match execute frame instructions i pc .idxSet (s.withHeap h) with
    | .ok _ t => .ok () t.world.heap
    | .error trouble t => .error trouble t.world.heap

def list? : Operation → Option ListId
  | .binary owner _ _ _ _ => some owner
  | .copyAll target _ | .copyEach target _ => some target
  | _ => none

/-- The container, the key and the value of an assignment to an element. -/
def assignment? : Operation → Option (Value × Value × Value)
  | .set container key value => some (container, key, value)
  | .idxSet s frame _ i _ =>
    match read frame i.first s, read frame i.second s, read frame i.third s with
    | .ok container _, .ok key _, .ok value _ => some (container, key, value)
    | _, _, _ => none
  | _ => none

/-- The container and the value that an operation makes its element, unless it fails. -/
inductive Sets : Operation → Nat → Value → Prop where
  | push {id : Nat} {v : Value} : Sets (.push (.ref ⟨.array, id⟩) v) id v
  | insert {id : Nat} {k v : Value} : Sets (.insert (.ref ⟨.mapping, id⟩) k v) id v
  | element {op : Operation} {id : Nat} {k v : Value}
      (assigns : op.assignment? = some (.ref ⟨.array, id⟩, k, v)) : Sets op id v
  | entry {op : Operation} {id : Nat} {k v : Value}
      (assigns : op.assignment? = some (.ref ⟨.mapping, id⟩, k, v)) : Sets op id v

/-- What an operation stores in a payload, unless it fails. A key is not stored where an equal one is. -/
inductive Stores : Operation → Nat → Value → Prop where
  | value {op : Operation} {id : Nat} {v : Value} (sets : op.Sets id v) : Stores op id v
  | insertedKey {id : Nat} {k v : Value} : Stores (.insert (.ref ⟨.mapping, id⟩) k v) id k
  | assignedKey {op : Operation} {id : Nat} {k v : Value}
      (assigns : op.assignment? = some (.ref ⟨.mapping, id⟩, k, v)) : Stores op id k

/-- The buffers whose bytes an operation overwrites, unless it fails. -/
inductive Overwrites : Operation → Nat → Prop where
  | bytes {id : Nat} {change : Overwrite} : Overwrites (.overwrite (.ref ⟨.buffer, id⟩) change) id
  | element {op : Operation} {id : Nat} {k : Value} {i : Int64}
      (assigns : op.assignment? = some (.ref ⟨.buffer, id⟩, k, .integer i)) : Overwrites op id

end Operation

/-- The action changes nothing, and the heap has no part in it. -/
def Exec.Heedless {α : Type} (act : Exec α) : Prop :=
  ∀ (s : State) (h : Heap),
    (∃ a, act s = .ok a s ∧ act (s.withHeap h) = .ok a (s.withHeap h)) ∨
      ∃ trouble, act s = .error trouble s ∧ act (s.withHeap h) = .error trouble (s.withHeap h)

namespace Exec

variable {α : Type} {frame : Frame}

theorem heedless_pure (a : α) : Heedless (pure a) := fun _ _ => .inl ⟨a, rfl, rfl⟩

theorem heedless_fail (f : Fault) : Heedless (fail f : Exec α) := fun _ _ => .inr ⟨_, rfl, rfl⟩

theorem heedless_get_bind (same : ∀ s h, f (s.withHeap h) = f s)
    (each : ∀ s, Heedless (f s)) : Heedless (get >>= f) := by
  intro s h
  rw [get_bind_apply, get_bind_apply, same]
  exact each s s h

theorem stackGet_heedless (index : Nat) : Heedless (stackGet index) := by
  refine heedless_get_bind (fun _ _ => rfl) fun s => ?_
  dsimp only
  split
  · exact heedless_pure _
  · exact fun _ _ => .inr ⟨_, rfl, rfl⟩

theorem read_heedless (o : Operand) : Heedless (read frame o) := by
  unfold read
  dsimp only
  split
  · split
    · exact heedless_pure _
    · exact heedless_fail _
  · split
    · exact stackGet_heedless _
    · exact heedless_fail _
  · split
    · exact stackGet_heedless _
    · exact heedless_fail _
  · split
    · refine heedless_get_bind (fun _ _ => rfl) fun s => ?_
      split
      · exact heedless_pure _
      · exact heedless_fail _
    · exact heedless_fail _

end Exec

namespace Operation

open HeapM Heap

variable {op : Operation} {h : Heap} {container key value : Value}

theorem run_idxSet (s : State) (frame : Frame) (instrs : Array Instruction) (i : Instruction)
    (pc : Nat) : (∃ container key value, assignment? (.idxSet s frame instrs i pc) =
        some (container, key, value) ∧
      run (.idxSet s frame instrs i pc) h = ended (Operator.indexSet container key value h)) ∨
    assignment? (.idxSet s frame instrs i pc) = none ∧
      ∃ trouble, run (.idxSet s frame instrs i pc) h = .error trouble h := by
  have reads : ∀ o : Operand, Heedless (read frame o) := read_heedless
  have first := reads i.first s h
  have second := reads i.second s h
  have third := reads i.third s h
  simp only [assignment?, run, execute, bind_apply]
  rcases first with ⟨container, here, there⟩ | ⟨trouble, here, there⟩
  · rcases second with ⟨key, here', there'⟩ | ⟨trouble, here', there'⟩
    · rcases third with ⟨value, here'', there''⟩ | ⟨trouble, here'', there''⟩
      · refine .inl ⟨container, key, value, by simp only [here, here', here''], ?_⟩
        simp only [there, there', there'', onHeap_apply]
        rw [show (s.withHeap h).world.heap = h from rfl]
        cases Operator.indexSet container key value h <;> rfl
      · exact .inr ⟨by simp only [here, here', here''],
          trouble, by simp only [there, there', there'']; rfl⟩
    · exact .inr ⟨by simp only [here, here'], trouble, by simp only [there, there']; rfl⟩
  · exact .inr ⟨by simp only [here], trouble, by simp only [there]; rfl⟩

theorem run_of_assignment (assigns : op.assignment? = some (container, key, value)) :
    op.run h = ended (Operator.indexSet container key value h) := by
  cases op with
  | set =>
    cases assigns
    rfl
  | idxSet s frame instrs i pc =>
    rcases run_idxSet (h := h) s frame instrs i pc with ⟨_, _, _, reads, ran⟩ | ⟨unread, -⟩
    · rw [assigns] at reads
      cases reads
      exact ran
    · rw [assigns] at unread
      cases unread
  | _ => cases assigns

end Operation

section Leading

open HeapM

variable {M : Motion Heap} {op : Operation} {h : Heap}

theorem Motion.Shapes.operation_leads (shapes : M.Shapes l New) (takes : op.list? = some l)
    (ready : M.Ready h) : M.Leads h (left (op.run h)) := by
  cases op with
  | binary owner op flavour a b =>
    cases takes
    rw [Operation.run, left_ended]
    exact shapes.typed_moves op flavour a b h ready
  | copyAll target values =>
    cases takes
    rw [Operation.run, left_ended]
    exact shapes.copyAll_moves values h ready
  | copyEach target values =>
    cases takes
    exact shapes.copyEach_leads ready values
  | _ => cases takes

theorem Motion.Edits.operation_leads (edits : M.Edits op.Stores op.Overwrites) (ready : M.Ready h)
    (makes : ∀ l, op.list? = some l → M.Leads h (left (op.run h)))
    (collects : ∀ l roots, op = .collect l roots → M.Leads h (h.collect l roots).2) :
    M.Leads h (left (op.run h)) := by
  have assigned : ∀ container key value, op.assignment? = some (container, key, value) →
      M.Leads h (left (op.run h)) := by
    intro container key value assigns
    rw [Operation.run_of_assignment assigns, left_ended]
    refine edits.indexSet_moves (fun id same => ?_) (fun id same => ?_) (fun id i same isByte => ?_)
      h ready
    · exact .value (.element (same ▸ assigns))
    · exact ⟨.assignedKey (same ▸ assigns), .value (.entry (same ▸ assigns))⟩
    · exact .element (same ▸ isByte ▸ assigns)
  cases op with
  | push container value =>
    rw [Operation.run, left_ended]
    refine edits.arrayPush_moves (fun id same => ?_) h ready
    subst same
    exact .value .push
  | insert container key value =>
    rw [Operation.run, left_ended]
    refine edits.mappingInsert_moves (fun id same => ?_) h ready
    subst same
    exact ⟨.insertedKey, .value .insert⟩
  | set container key value => exact assigned container key value rfl
  | overwrite container change =>
    rw [Operation.run, left_ended]
    refine edits.overwrite_moves change (fun id same => ?_) h ready
    subst same
    exact .bytes
  | get container key =>
    rw [Operation.run, left_ended]
    exact Motion.indexGet_moves edits.note container key h ready
  | neg a =>
    rw [Operation.run, left_ended]
    exact moves_ofExcept (Operator.neg a) h ready
  | not a => exact M.refl h
  | binary owner | copyAll owner | copyEach owner => exact makes owner rfl
  | collect list roots => exact collects list roots rfl
  | idxSet s frame instrs i pc =>
    rcases Operation.run_idxSet (h := h) s frame instrs i pc with
      ⟨container, key, value, reads, -⟩ | ⟨-, trouble, ran⟩
    · exact assigned container key value reads
    · rw [ran]
      exact M.refl h

end Leading

namespace Operation

open HeapM Heap

variable {op : Operation} {h : Heap}

/-- What any operation does to payloads that are there. -/
theorem edited (op : Operation) (sound : h.Sound)
    (valid : ∀ l, op.list? = some l → l.number < h.lists.size) :
    Edited op.Stores op.Overwrites h (left (op.run h)) := by
  refine Edited.motion_edits.operation_leads sound (fun l takes _ => ?_)
    (fun l roots _ _ => .collect sound l roots) sound
  exact .of_adds sound ((adding_crafts l _).shapes.operation_leads takes
    ⟨⟨sound, valid l takes⟩, le_rfl⟩)

theorem edited_of_error (sound : h.Sound) (valid : ∀ l, op.list? = some l → l.number < h.lists.size)
    (failed : op.run h = .error trouble h') : Edited stores overwrites h h' := by
  have edited := op.edited sound valid
  rw [failed] at edited
  have unchanged : h' = h → Edited stores overwrites h h' := by
    rintro rfl
    exact .refl _
  have assigned : ∀ container key value, op.assignment? = some (container, key, value) →
      Edited stores overwrites h h' := by
    intro container key value assigns
    rw [run_of_assignment assigns] at failed
    obtain ⟨f, failed⟩ := error_of_ended failed
    rcases Operator.indexSet_error failed with same | ⟨id, rfl⟩
    · exact unchanged same
    · exact .forgetDigest h id
  cases op with
  | push container value =>
    obtain ⟨f, failed⟩ := error_of_ended failed
    exact unchanged (updateArray_error failed)
  | insert container key value =>
    obtain ⟨f, failed⟩ := error_of_ended failed
    exact unchanged (mappingInsert_error failed)
  | set container key value => exact assigned container key value rfl
  | overwrite container change =>
    obtain ⟨answer, after, ran⟩ := overwrite_ok container change h
    rw [run, ran] at failed
    cases failed
  | idxSet s frame instrs i pc =>
    rcases run_idxSet (h := h) s frame instrs i pc with
      ⟨container, key, value, reads, -⟩ | ⟨-, _, ran⟩
    · exact assigned container key value reads
    · rw [ran] at failed
      cases failed
      exact .refl h
  | get | binary | neg | not | copyAll | copyEach | collect =>
    refine edited.mono (fun id v stored => ?_) fun id overwritten => ?_
    · rcases stored with ⟨_ | _ | assigns | assigns⟩ | _ | assigns <;> cases assigns
    · rcases overwritten with _ | assigns
      cases assigns

theorem Sets.holds {id : Nat} {v : Value} {h' : Heap} (sets : op.Sets id v)
    (ran : op.run h = .ok () h') : h'.Holds id v := by
  cases sets with
  | push => exact updateArray_holds (ok_of_ended ran) fun items items' changed => by cases changed; simp
  | insert => exact mappingInsert_holds (ok_of_ended ran)
  | element assigns =>
    rw [run_of_assignment assigns] at ran
    refine updateArray_holds (ok_of_ended ran) fun items items' changed => ?_
    unfold Except.map at changed
    split at changed <;> cases changed
    rename_i i found
    exact List.mem_set (Operator.position_lt found) _
  | entry assigns =>
    rw [run_of_assignment assigns] at ran
    exact mappingInsert_holds (ok_of_ended ran)

end Operation

/-- The heap after operations one after the other, each even if those before it have failed. -/
def Heap.after (h : Heap) (ops : List Operation) : Heap := ops.foldl (fun h op => left (op.run h)) h

/-- What operations one after the other store in a payload, those that fail apart. -/
def Heap.Puts (h : Heap) : List Operation → Nat → Value → Prop
  | [], _, _ => False
  | op :: rest, id, v =>
    (op.Stores id v ∧ ∃ h', op.run h = .ok () h') ∨ (left (op.run h)).Puts rest id v

/-- What any number of operations do to payloads that are there. -/
theorem Heap.edited_after (sound : h.Sound) (ops : List Operation)
    (valid : ∀ op ∈ ops, ∀ l, op.list? = some l → l.number < h.lists.size) :
    Heap.Edited (h.Puts ops) (fun id => ∃ op ∈ ops, op.Overwrites id) h (h.after ops) := by
  induction ops generalizing h with
  | nil => exact .refl h
  | cons op rest ih =>
    have first : Edited (fun id v => op.Stores id v ∧ ∃ h', op.run h = .ok () h') op.Overwrites h
        (left (op.run h)) := by
      have edited := op.edited sound (valid op (.head _))
      cases ran : op.run h with
      | ok _ h' =>
        rw [ran] at edited
        exact edited.mono (fun id v stored => ⟨stored, h', rfl⟩) fun _ => id
      | error trouble h' => exact Operation.edited_of_error sound (valid op (.head _)) ran
    have second := ih (first.changes.sound sound) fun op' mem l takes =>
      (valid op' (.tail _ mem) l takes).trans_le (first.changes.size_le sound).2
    refine (first.mono (fun id v stored => .inl stored) fun id overwrites => ?_).trans
      (second.mono (fun id v stored => .inr stored) ?_) sound
    · exact ⟨op, .head _, overwrites⟩
    · exact fun id ⟨op', mem, overwrites⟩ => ⟨op', .tail _ mem, overwrites⟩

end Tenancy
