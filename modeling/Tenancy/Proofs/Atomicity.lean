import Tenancy.Proofs.Association

/-!
Operators either do what they are to do or nothing.

Whatever the operands are, each operator returns a value or a fault. A fault leaves the contents of
all payloads and all lists as they were. An arithmetic operator that returns a new payload has put
this one into its list and nothing else; an assignment has changed one element. What is kept of
digests is no part of the contents.
-/

namespace Tenancy

open Tenancy.Action Motion

namespace Heap

variable {h h' : Heap} {owner : ListId} {id : Nat} {container key value v : Value} {payload : Payload}

/-- Only digests differ. -/
structure Intact (h h' : Heap) : Prop where
  lists : h'.lists = h.lists
  events : h'.events = h.events
  contents : ∀ i, h'.contents? i = h.contents? i

/-- The payload `id` has been replaced. Of all else only digests differ. -/
structure Rewrites (id : Nat) (payload : Payload) (h h' : Heap) : Prop where
  lists : h'.lists = h.lists
  events : h'.events = h.events
  contents : ∀ i, h'.contents? i = (h.contents? i).map fun a =>
    if i = id then { a with payload := some payload } else a

/-- The value is a new payload and of the list `owner`. All others have the same contents, and there
are no more than before in any list. -/
structure Gains (owner : ListId) (v : Value) (h h' : Heap) : Prop where
  size : h'.cells.size = h.cells.size + 1
  result : ∃ p, v = .ref ⟨p.kind, h.cells.size⟩ ∧ h'.payload? h.cells.size = some p
  old : ∀ i < h.cells.size, h'.contents? i = h.contents? i
  members : ∀ i, i ∈ h'.members owner ↔ i ∈ h.members owner ∨ i = h.cells.size
  others : ∀ l, l ≠ owner → h'.list l = h.list l

/-- What an assignment to an element does: it changes an item of an array, the value of an entry or
a byte of a buffer, or it enters the key last. -/
inductive Assigns (h h' : Heap) : Value → Value → Value → Prop where
  | item {id : Nat} {items : List Value} {i : Int64} {value : Value}
      (found : h.payload? id = some (.array items)) (start : 0 ≤ i.toInt)
      (within : i.toInt < items.length) (changeable : h.constant id = false)
      (rewrites : h.Rewrites id (.array (items.set i.toInt.toNat value)) h') :
      Assigns h h' (.ref ⟨.array, id⟩) (.integer i) value
  | entry {id : Nat} {before after : List Entry} {e : Entry} {key value : Value}
      (found : h.payload? id = some (.mapping (before ++ e :: after)))
      (here : h.matchesAt (h.digest key) key e = true)
      (earlier : ∀ e' ∈ before, h.matchesAt (h.digest key) key e' = false)
      (changeable : h.constant id = false)
      (rewrites : h.Rewrites id (.mapping (before ++ { e with value } :: after)) h') :
      Assigns h h' (.ref ⟨.mapping, id⟩) key value
  | added {id : Nat} {entries : List Entry} {key value : Value}
      (found : h.payload? id = some (.mapping entries))
      (nowhere : ∀ e ∈ entries, h.matchesAt (h.digest key) key e = false)
      (changeable : h.constant id = false)
      (rewrites : h.Rewrites id (.mapping (entries ++ [⟨key, value, h.digest key⟩])) h') :
      Assigns h h' (.ref ⟨.mapping, id⟩) key value
  | byte {id : Nat} {b : Buffer} {i x : Int64} (found : h.payload? id = some (.buffer b))
      (start : 0 ≤ i.toInt) (within : i.toInt < b.bytes.length)
      (rewrites : h.Rewrites id
        (.buffer { b with bytes := b.bytes.set i.toInt.toNat x.toUInt64.toUInt8 }) h') :
      Assigns h h' (.ref ⟨.buffer, id⟩) (.integer i) (.integer x)

theorem Intact.refl (h : Heap) : h.Intact h := ⟨rfl, rfl, fun _ => rfl⟩

theorem intact_note (h : Heap) (v : Value) : h.Intact (h.note v) where
  lists := lists_note h v
  events := by
    unfold Heap.note Heap.keepDigest
    split <;> rfl
  contents i := contents?_of_mapped (aspect?_note h v) fun a => by split <;> rfl

theorem intact_forgetDigest (h : Heap) (id : Nat) : h.Intact (h.forgetDigest id) where
  lists := rfl
  events := rfl
  contents i := contents?_of_mapped (aspect?_forgetDigest h id) fun a => by split <;> rfl

theorem rewrites_write (h : Heap) (id : Nat) (payload : Payload) :
    h.Rewrites id payload (h.write id payload) where
  lists := rfl
  events := rfl
  contents i := by
    rw [contents?, contents?, aspect?_write, Option.map_map, Option.map_map]
    refine congrArg (Option.map · _) (funext fun a => ?_)
    simp only [Function.comp_apply]
    split <;> rfl

theorem Intact.rewrites (intact : h.Intact h') (rewrites : h'.Rewrites id payload h'') :
    h.Rewrites id payload h'' where
  lists := rewrites.lists.trans intact.lists
  events := rewrites.events.trans intact.events
  contents i := by rw [rewrites.contents, intact.contents]

theorem Adds.gains (adds : Adds owner h.cells.size h h') (sound : h.Sound)
    (size : h'.cells.size = h.cells.size + 1)
    (result : ∃ p, v = .ref ⟨p.kind, h.cells.size⟩ ∧ h'.payload? h.cells.size = some p) :
    h.Gains owner v h' where
  size := size
  result := result
  old := adds.old
  members i := by
    have sane := (adds.serves.changes.sound sound).consistent
    rw [sane.mem_members_iff_owner, sound.consistent.mem_members_iff_owner]
    rcases Nat.lt_trichotomy i h.cells.size with below | rfl | above
    · simp [owner?_of_contents (adds.old i below), below.ne]
    · simp [adds.new _ le_rfl (fun less => absurd less (Nat.lt_irrefl _)) (by omega)]
    · have outside : ∀ {t : Heap}, t.cells.size ≤ i → t.owner? i = none := fun beyond => by
        rw [owner?_eq, aspect?_eq_none.mpr beyond, Option.bind_none]
      simp [outside (t := h) (by omega), outside (t := h') (by omega), Nat.ne_of_gt above]
  others := adds.serves.lists

end Heap

namespace Operator

open Heap HeapM

variable {h h' : Heap} {owner : ListId} {container key value : Value} {α : Type}
  {P : Heap → Value → Heap → Prop}

/-- The action returns what is right by `P`, or it fails and does nothing. -/
def Returns (P : Heap → Value → Heap → Prop) (act : HeapM Value) : Prop :=
  ∀ h, Ends (P h) (fun _ h' => h' = h) (act h)

theorem returns_throw (e : Fault) : Returns P (throw e) := fun _ => rfl

theorem returns_get_bind (each : ∀ h, Returns P (f h)) :
    Returns P (get >>= f) := fun h => each h h

theorem returns_ofExcept_bind (x : Except Fault α)
    (each : ∀ a, Returns P (f a)) : Returns P ((ofExcept x : HeapM α) >>= f) := by
  intro h
  cases x with
  | ok a => exact each a h
  | error e => exact rfl

/-- The heap is the same, or the value is its new payload. -/
def Makes (h : Heap) (v : Value) (h' : Heap) : Prop :=
  h' = h ∨ h'.cells.size = h.cells.size + 1 ∧
    ∃ p, v = .ref ⟨p.kind, h.cells.size⟩ ∧ h'.payload? h.cells.size = some p

theorem pure_makes (v : Value) : Returns Makes (pure v) := fun _ => .inl rfl

theorem ofExcept_makes (x : Except Fault Value) : Returns Makes (ofExcept x) := by
  intro h
  cases x with
  | ok v => exact .inl rfl
  | error e => exact rfl

theorem place_makes (payload : Payload) : Returns Makes (HeapM.place owner payload) := by
  intro h
  have placed := extended_place h owner payload
  have found : (h.place owner payload).2.payload? h.cells.size = some payload := by
    rw [payload?_eq, placed.aspect?_new, Option.bind_some]
  exact .inr ⟨placed.cells, payload, rfl, found⟩

theorem merge_makes (pairs : List (Value × Value)) : Returns Makes (merge owner pairs) := by
  intro h
  obtain ⟨t, entries, ran, found, size⟩ :=
    merge_ok (I := fun _ t => t.cells.size = h.cells.size + 1) pairs
      (extended_place h owner (.mapping [])).cells fun _ p t _ _ _ _ size => by
        rw [entered, size_eq_of_mapped (aspect?_write (t.note p.1) _ _), size_cells_note, size]
  rw [ran]
  exact .inr ⟨size, _, rfl, found⟩

theorem add_makes (a b : Value) : Returns Makes (add owner a b) := by
  unfold add
  split
  · exact pure_makes _
  · split
    · exact pure_makes _
    · refine returns_get_bind fun h => ?_
      split
      · split
        · exact place_makes _
        · exact returns_throw _
      · split
        · exact merge_makes _
        · exact returns_throw _
      all_goals first
        | exact returns_throw _
        | split
          · exact place_makes _
          · exact returns_throw _

theorem sub_makes (a b : Value) : Returns Makes (sub owner a b) := by
  unfold sub
  split
  · exact pure_makes _
  · split
    · exact pure_makes _
    · refine returns_get_bind fun h => ?_
      split
      · split
        · exact place_makes _
        · exact returns_throw _
      · exact returns_throw _

theorem binary_makes (op : BinaryOp) (a b : Value) : Returns Makes (binary owner op a b) := by
  cases op with
  | add => exact add_makes a b
  | sub => exact sub_makes a b
  | mul | div | rem => exact ofExcept_makes _
  | lt | le | gt | ge => exact returns_get_bind fun _ => ofExcept_makes _
  | eq | ne => exact returns_get_bind fun _ => pure_makes _

theorem binary_gains (sound : h.Sound) (valid : owner.number < h.lists.size) (op : BinaryOp)
    (a b : Value) : Ends (fun v h' => h' = h ∨ h.Gains owner v h') (fun _ h' => h' = h)
      (binary owner op a b h) := by
  have makes : Ends (Makes h) (fun _ h' => h' = h) (binary owner op a b h) := binary_makes op a b h
  have adds := (adding_crafts owner h.cells.size).shapes.binary_moves op a b h
    ⟨⟨sound, valid⟩, le_rfl⟩
  cases ran : binary owner op a b h with
  | ok v t =>
    rw [ran] at makes adds
    exact makes.imp_right fun ⟨size, result⟩ => Adds.gains adds sound size result
  | error e t =>
    rw [ran] at makes
    exact makes

/-- The heap is the same but for digests. -/
def Peeks (h : Heap) (_ : Value) (h' : Heap) : Prop := h.Intact h'

theorem pure_peeks (v : Value) : Returns Peeks (pure v) := fun h => .refl h

theorem lookup_peeks (entries : List Entry) {f : Option Value → Value} :
    Returns Peeks (HeapM.lookup entries key >>= fun found => pure (f found)) := by
  intro h
  rw [bind_apply, lookup_apply]
  show h.Intact _
  split
  · exact h.intact_note key
  · exact .refl h

theorem indexGet_peeks (container key : Value) : Returns Peeks (indexGet container key) := by
  unfold indexGet
  refine returns_get_bind fun h => ?_
  split
  · split
    · exact returns_throw _
    · exact returns_ofExcept_bind _ fun _ => pure_peeks _
  · split
    · exact returns_throw _
    · exact lookup_peeks _
  · split
    · exact returns_throw _
    · exact returns_ofExcept_bind _ fun _ => pure_peeks _
  · split
    · exact returns_throw _
    · exact returns_ofExcept_bind _ fun _ => pure_peeks _
  · exact returns_throw _

theorem position_ok (found : position container key length = .ok i) :
    ∃ j : Int64, key = .integer j ∧ 0 ≤ j.toInt ∧ j.toInt < length ∧ i = j.toInt.toNat := by
  unfold position at found
  split at found
  · rename_i j
    split at found <;> cases found
    rename_i bounds
    have start : (0 : Int64).toInt ≤ j.toInt := Int64.le_iff_toInt_le.mp bounds.1
    rw [Int64.toInt_zero] at start
    exact ⟨j, rfl, start, bounds.2, rfl⟩
  · cases found

theorem indexSet_array_ends (id : Nat) (key value : Value) :
    Ends (fun _ h' => h.Assigns h' (.ref ⟨.array, id⟩) key value) (fun _ h' => h.Intact h')
      (indexSet (.ref ⟨.array, id⟩) key value h) := by
  unfold indexSet
  dsimp only
  rw [updateArray_apply]
  split
  · exact .refl h
  · rename_i changeable
    split
    · exact .refl h
    · rename_i items found
      cases addressed : position (.ref ⟨.array, id⟩) key items.length with
      | error e => exact .refl h
      | ok i =>
        obtain ⟨j, rfl, start, within, rfl⟩ := position_ok addressed
        exact .item (payload?_of_items? found) start within (by simpa using changeable)
          (rewrites_write h id _)

theorem indexSet_mapping_ends (id : Nat) (key value : Value) :
    Ends (fun _ h' => h.Assigns h' (.ref ⟨.mapping, id⟩) key value) (fun _ h' => h.Intact h')
      (indexSet (.ref ⟨.mapping, id⟩) key value h) := by
  unfold indexSet
  dsimp only
  rw [mappingInsert_apply]
  split
  · exact .refl h
  · rename_i closed
    have changeable : h.constant id = false := by simpa using closed
    split
    · exact .refl h
    · rename_i entries looked
      have found := payload?_of_entries? looked
      have rewrites := (h.intact_note key).rewrites
        (rewrites_write _ id (.mapping (h.put key value entries)))
      rcases putAt_cases h (h.digest key) key value entries with
        ⟨before, e, after, rfl, here, earlier, put⟩ | ⟨nowhere, put⟩
      · exact .entry found here earlier changeable (put ▸ rewrites)
      · exact .added found nowhere changeable (put ▸ rewrites)

theorem indexSet_buffer_ends (id : Nat) (key value : Value) :
    Ends (fun _ h' => h.Assigns h' (.ref ⟨.buffer, id⟩) key value) (fun _ h' => h.Intact h')
      (indexSet (.ref ⟨.buffer, id⟩) key value h) := by
  unfold indexSet
  dsimp only
  split
  · rename_i x
    rw [setByte_apply, payload?_forgetDigest]
    split
    · rename_i b found
      cases addressed : position (.ref ⟨.buffer, id⟩) key b.bytes.length with
      | error e => exact h.intact_forgetDigest id
      | ok i =>
        obtain ⟨j, rfl, start, within, rfl⟩ := position_ok addressed
        exact .byte found start within ((h.intact_forgetDigest id).rewrites (rewrites_write _ id _))
    · exact h.intact_forgetDigest id
  · exact .refl h

theorem indexSet_ends (container key value : Value) :
    Ends (fun _ h' => h.Assigns h' container key value) (fun _ h' => h.Intact h')
      (indexSet container key value h) := by
  cases container with
  | ref r =>
    obtain ⟨kind, id⟩ := r
    cases kind with
    | array => exact indexSet_array_ends id key value
    | mapping => exact indexSet_mapping_ends id key value
    | buffer => exact indexSet_buffer_ends id key value
    | string | function => exact .refl h
  | nil | integer _ | real _ | object _ => exact .refl h

/-- Whatever their operands are, operators return or fail, and one that fails leaves all contents and
lists alone. Arithmetic adds its result at most, and an assignment changes one element. -/
theorem operators_are_atomic (h : Heap) (owner : ListId) (possible : h.Possible)
    (valid : owner.number < h.lists.size) :
    (∀ op a b, Ends (fun v h' => h' = h ∨ h.Gains owner v h') (fun _ h' => h' = h)
      (binary owner op a b h)) ∧
    (∀ a, Ends (fun _ h' => h' = h) (fun _ h' => h' = h) ((ofExcept (neg a) : HeapM Value) h)) ∧
    (∀ container key, Ends (fun _ h' => h.Intact h') (fun _ h' => h' = h)
      (indexGet container key h)) ∧
    ∀ container key value, Ends (fun _ h' => h.Assigns h' container key value)
      (fun _ h' => h.Intact h') (indexSet container key value h) := by
  refine ⟨binary_gains possible.sound valid, fun a => ?_,
    fun container key => indexGet_peeks container key h, indexSet_ends⟩
  cases neg a with
  | ok | error => exact rfl

/-- A text with a number after it is new. A byte is set within the buffer, and none beyond its end. -/
theorem shelf_operators_are_atomic :
    shelf.Gains ⟨0⟩ (.ref ⟨.string, 4⟩)
      (left (binary ⟨0⟩ .add (.ref ⟨.string, 3⟩) (.integer 7) shelf)) ∧
    left (binary ⟨0⟩ .div (.integer 1) (.integer 0) shelf) = shelf ∧
    shelf.Assigns (left (indexSet (.ref ⟨.buffer, 1⟩) (.integer 1) (.integer 300) shelf))
      (.ref ⟨.buffer, 1⟩) (.integer 1) (.integer 300) ∧
    shelf.Intact (left (indexSet (.ref ⟨.buffer, 1⟩) (.integer 2) (.integer 300) shelf)) := by
  obtain ⟨arithmetic, -, -, assignment⟩ :=
    operators_are_atomic shelf ⟨0⟩ possible_shelf (by decide)
  refine ⟨(arithmetic .add (.ref ⟨.string, 3⟩) (.integer 7)).resolve_left fun same => ?_,
    arithmetic .div (.integer 1) (.integer 0),
    assignment (.ref ⟨.buffer, 1⟩) (.integer 1) (.integer 300),
    assignment (.ref ⟨.buffer, 1⟩) (.integer 2) (.integer 300)⟩
  have size := congrArg (fun h : Heap => h.cells.size) same
  revert size
  decide

end Operator

end Tenancy
