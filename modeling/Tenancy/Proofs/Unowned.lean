import Tenancy.Proofs.Heap.Usage

/-!
Constant payloads, and what payloads without an owner hold.

Whatever is done with the values of a heap, a constant payload stays as it is unless it is a buffer:
pushing, inserting and assigning are refused. Bytes of a constant buffer are overwritten like those
of any other, and nothing else of it ever changes.

A collection follows payloads of its list only, and a copy stops at payloads that nobody may own. Both
rely on it that such a payload leads to others of its kind. Constant containers never hold anything
else. A shared container takes whatever is stored in it: it keeps to payloads that nobody may own for
as long as those who store into it do, and no longer.
-/

namespace Tenancy

open Tenancy.Action Operator HeapM

/-! ### Constant payloads -/

namespace Operation

variable {op : Operation} {h : Heap} {r : Ref}

/-- An attempt to change an array, a mapping or a string. -/
inductive Attempts : Operation → Ref → Prop where
  | push {id : Nat} {v : Value} : Attempts (.push (.ref ⟨.array, id⟩) v) ⟨.array, id⟩
  | insert {id : Nat} {k v : Value} : Attempts (.insert (.ref ⟨.mapping, id⟩) k v) ⟨.mapping, id⟩
  | assign {op : Operation} {r : Ref} {k v : Value} (assigns : op.assignment? = some (.ref r, k, v))
      (kind : r.kind = .array ∨ r.kind = .mapping ∨ r.kind = .string) : Attempts op r

theorem Attempts.refused (attempts : op.Attempts r) (constant : h.constant r.id = true) :
    op.run h = .error (.fault (.readOnly (.payload r.kind))) h := by
  cases attempts with
  | push =>
    rw [run, arrayPush, updateArray_apply, if_pos constant]
    rfl
  | insert =>
    rw [run, mappingInsert_apply, if_pos constant]
    rfl
  | assign assigns kind =>
    obtain ⟨kind', id⟩ := r
    rw [run_of_assignment assigns]
    rcases kind with rfl | rfl | rfl
    · rw [indexSet, updateArray_apply, if_pos constant]
      rfl
    · rw [indexSet, mappingInsert_apply, if_pos constant]
      rfl
    · rfl

end Operation

namespace Heap

variable {h : Heap} {id : Nat}

theorem run_assignment_buffer {op : Operation} {b : Buffer} {i byte : Int64}
    (assigns : op.assignment? = some (.ref ⟨.buffer, id⟩, .integer i, .integer byte))
    (found : h.payload? id = some (.buffer b)) (start : 0 ≤ i) (stop : i.toInt < b.bytes.length) :
    ∃ h', op.run h = .ok () h' ∧ h'.payload? id =
      some (.buffer { b with bytes := b.bytes.set i.toInt.toNat byte.toUInt64.toUInt8 }) := by
  have within : id < (h.forgetDigest id).cells.size := within_of_live (by
    rw [live, payload?_forgetDigest, found]
    rfl)
  refine ⟨(h.forgetDigest id).write id
    (.buffer { b with bytes := b.bytes.set i.toInt.toNat byte.toUInt64.toUInt8 }), ?_, ?_⟩
  · rw [Operation.run_of_assignment assigns, indexSet, setByte_apply, payload?_forgetDigest, found]
    simp only [position, start, stop, and_self, if_true]
    rfl
  · rw [payload?_write, if_pos ⟨rfl, within⟩]

theorem run_overwrite (change : Overwrite) (found : h.payload? id = some (.buffer b)) :
    ∃ h', (Operation.overwrite (.ref ⟨.buffer, id⟩) change).run h = .ok () h' ∧ h'.payload? id =
      some (.buffer { b with bytes := change.apply b.bytes }) := by
  have within : id < (h.forgetDigest id).cells.size := within_of_live (by
    rw [live, payload?_forgetDigest, found]
    rfl)
  refine ⟨(h.forgetDigest id).write id (.buffer { b with bytes := change.apply b.bytes }), ?_, ?_⟩
  · rw [Operation.run, overwrite, modify_bind_apply, get_bind_apply, payload?_forgetDigest, found]
    rfl
  · rw [payload?_write, if_pos ⟨rfl, within⟩]

/-- What becomes of a constant payload by operations one after the other. -/
structure Constancy (h : Heap) (ops : List Operation) (id : Nat) : Prop where
  constant : (h.after ops).constant id = true
  /-- All but the bytes of a buffer stays, and those stay unless they are overwritten. -/
  fixed : (∀ b, h.payload? id ≠ some (.buffer b)) ∨ (∀ op ∈ ops, ¬ op.Overwrites id) →
    (h.after ops).payload? id = h.payload? id
  buffer : ∀ b, h.payload? id = some (.buffer b) → ∃ b', (h.after ops).payload? id =
    some (.buffer b') ∧ b'.cls = b.cls ∧ b'.bytes.length = b.bytes.length
  refused : ∀ (op : Operation) (r : Ref), op.Attempts r → r.id = id →
    op.run (h.after ops) = .error (.fault (.readOnly (.payload r.kind))) (h.after ops)
  /-- Functions have no elements. -/
  unindexed : ∀ (op : Operation) (k v : Value),
    op.assignment? = some (.ref ⟨.function, id⟩, k, v) → op.run (h.after ops) =
      .error (.fault (.notIndexable (.payload .function) k.type)) (h.after ops)
  /-- Bytes are overwritten as in any other buffer. -/
  overwritten : ∀ (b : Buffer) (change : Overwrite), (h.after ops).payload? id = some (.buffer b) →
    ∃ h', (Operation.overwrite (.ref ⟨.buffer, id⟩) change).run (h.after ops) = .ok () h' ∧
      h'.payload? id = some (.buffer { b with bytes := change.apply b.bytes })
  assigned : ∀ (op : Operation) (b : Buffer) (i byte : Int64),
    (h.after ops).payload? id = some (.buffer b) →
    op.assignment? = some (.ref ⟨.buffer, id⟩, .integer i, .integer byte) → 0 ≤ i →
    i.toInt < b.bytes.length → ∃ h', op.run (h.after ops) = .ok () h' ∧ h'.payload? id =
      some (.buffer { b with bytes := b.bytes.set i.toInt.toNat byte.toUInt64.toUInt8 })

/-- Constant payloads keep all but bytes. -/
theorem constants_keep_all_but_bytes (possible : h.Possible) (ops : List Operation)
    (valid : ∀ op ∈ ops, ∀ l, op.list? = some l → l.number < h.lists.size)
    (constant : h.constant id = true) : h.Constancy ops id := by
  have edited := edited_after possible.sound ops valid
  have still : (h.after ops).constant id = true :=
    (edited.constant id (within_of_constant constant)).trans constant
  have resembles := edited.resembles id constant
  refine ⟨still, ?_, fun b => resembles.of_buffer, ?_, fun op k v assigns => ?_,
    fun b change => run_overwrite change, ?_⟩
  · rintro (solid | kept)
    · exact resembles.eq_of_not_buffer solid
    · exact edited.fixed id constant fun ⟨op, member, overwrites⟩ => kept op member overwrites
  · rintro op r attempts rfl
    exact attempts.refused still
  · rw [Operation.run_of_assignment assigns]
    rfl
  · exact fun op b i byte found assigns start stop =>
      run_assignment_buffer assigns found start stop

/-- A constant array, a constant buffer and a text of the only list. -/
def vault : Heap :=
  let h := ({} : Heap).newList.2
  let h := (h.create (.array [.integer 1]) true false).2
  let h := (h.create (.buffer ⟨[1], none⟩) true false).2
  (h.create (.string "text") false false).2.adopt ⟨0⟩ 2

theorem possible_vault : vault.Possible := by
  refine .tail (.tail ?_ (.create _ (.string "text") false false)) (.adopt (by decide) (by decide))
  refine .tail (.tail ?_ (.create _ (.array [.integer 1]) true false))
    (.create _ (.buffer ⟨[1], none⟩) true false)
  exact .single (.newList {})

/-- Assigns to both constants, adds the array to itself, and collects. -/
def tampering : List Operation :=
  [.set (.ref ⟨.array, 0⟩) (.integer 0) (.ref ⟨.string, 2⟩),
    .set (.ref ⟨.buffer, 1⟩) (.integer 0) (.integer 9),
    .binary ⟨0⟩ .add .dynamic (.ref ⟨.array, 0⟩) (.ref ⟨.array, 0⟩),
    .collect ⟨0⟩ []]

theorem constant_array_of_vault_kept : vault.Possible ∧ vault.constant 0 = true ∧
    (vault.after tampering).items? (.ref ⟨.array, 0⟩) = some [.integer 1] ∧
    vault.Constancy tampering 0 := by
  refine ⟨possible_vault, by decide, by decide, ?_⟩
  exact constants_keep_all_but_bytes possible_vault tampering (by decide) (by decide)

/-- A byte of a constant buffer is assigned without a fault. -/
theorem constant_buffer_changes : vault.Possible ∧ vault.constant 1 = true ∧
    vault.bytes? (.ref ⟨.buffer, 1⟩) = some [1] ∧
    ∃ h, (Operation.set (.ref ⟨.buffer, 1⟩) (.integer 0) (.integer 9)).run vault = .ok () h ∧
      h.bytes? (.ref ⟨.buffer, 1⟩) = some [9] :=
  ⟨possible_vault, by decide, by decide, _, rfl, by decide⟩

end Heap

/-! ### Payloads without an owner -/

namespace Heap

variable {h h' : Heap} {id : Nat} {r : Ref}

/-- Payloads that nobody may own lead to such payloads only. -/
def Closed (h : Heap) : Prop :=
  ∀ (r : Ref) (id : Nat), h.unowned r.id = true → h.Accessible (.ref r) id → h.unowned id = true

theorem closed_iff : h.Closed ↔
    ∀ (id : Nat) (r : Ref), h.unowned id = true → h.Holds id (.ref r) → h.unowned r.id = true := by
  constructor
  · intro closed id r unowned held
    exact closed ⟨.array, id⟩ r.id unowned (.within (.here rfl) held)
  · intro closed r id unowned accessible
    induction accessible with
    | here same =>
      cases same
      exact unowned
    | within _ held ih => exact closed _ _ ih held

theorem closed_iff_children : (∀ id < h.cells.size, h.unowned id = true →
    ∀ v ∈ Marking.childrenOf h id, v.ref?.all (fun r => h.unowned r.id) = true) ↔ h.Closed := by
  rw [closed_iff]
  constructor
  · intro closed id r unowned held
    exact closed id (within_of_unowned unowned) unowned (.ref r) (mem_childrenOf.mpr held)
  · intro closed id _ unowned v child
    cases v with
    | ref r => exact closed id r unowned (mem_childrenOf.mp child)
    | nil | integer _ | real _ | object _ => rfl

instance : Decidable h.Closed := decidable_of_iff _ closed_iff_children

theorem Consistent.owner?_of_unowned (sane : h.Consistent) (unowned : h.unowned id = true) :
    h.owner? id = none := by
  rw [owner?, sane.exempt unowned]
  rfl

theorem Closed.getElem?_collect (closed : h.Closed) (sane : h.Consistent)
    (unowned : h.unowned r.id = true) (accessible : h.Accessible (.ref r) id) (l : ListId)
    (roots : List Value) : (h.collect l roots).2.cells[id]? = h.cells[id]? := by
  refine sane.getElem?_collect ?_
  rw [sane.owner?_of_unowned (closed r id unowned accessible)]
  exact (Option.some_ne_none l).symm

/-- What payloads that nobody may own hold after operations. -/
structure Closure (h h' : Heap) (ops : List Operation) : Prop where
  /-- Constant containers hold none that may be owned, whatever is done. -/
  constant : ∀ (id : Nat) (r : Ref), h.constant id = true → h'.Holds id (.ref r) →
    h'.unowned r.id = true ∧ h'.owner? r.id = none
  /-- Nor do shared ones, if none is stored in them. -/
  closed : (∀ (id : Nat) (r : Ref), h.Puts ops id (.ref r) → h.unowned id = true →
    h.constant id = false → h.unowned r.id = true) → h'.Closed
  unowned : h'.Closed → ∀ (id : Nat) (r : Ref), h'.unowned id = true → h'.Holds id (.ref r) →
    h'.owner? r.id = none
  collected : h'.Closed → ∀ (l : ListId) (roots : List Value) (r : Ref) (id : Nat),
    h'.unowned r.id = true → h'.Accessible (.ref r) id →
    (h'.collect l roots).2.cells[id]? = h'.cells[id]?
  /-- One that is stored in a container that nobody may own is there. -/
  opened : ∀ (op : Operation) (id : Nat) (r : Ref) (h'' : Heap), op.Sets id (.ref r) →
    op.run h' = .ok () h'' → h'.unowned id = true → h'.unowned r.id = false → ¬ h''.Closed

theorem list?_of_sets {op : Operation} (sets : op.Sets id v) : op.list? = none := by
  cases sets with
  | push | insert => rfl
  | element assigns | entry assigns => cases op <;> first | rfl | cases assigns

theorem Sound.not_closed_of_sets (sound : h.Sound) {op : Operation} (sets : op.Sets id (.ref r))
    (ran : op.run h = .ok () h') (unowned : h.unowned id = true) (ownable : h.unowned r.id = false) :
    ¬ h'.Closed := by
  have edited := op.edited sound fun l takes => by simp [list?_of_sets sets] at takes
  rw [ran] at edited
  have within := within_of_unowned unowned
  have still : h'.unowned r.id = false := by
    by_cases old : r.id < h.cells.size
    · exact (edited.unowned _ old).trans ownable
    · exact edited.ownable _ (Nat.le_of_not_lt old)
  intro closed
  have exempt := closed_iff.mp closed id r ((edited.unowned id within).trans unowned) (sets.holds ran)
  rw [still] at exempt
  cases exempt

/-- Operations leave payloads that nobody may own with such payloads only, unless they store others in
shared containers. -/
theorem operations_leave_unowned_closed (possible : h.Possible) (closed : h.Closed)
    (ops : List Operation) (valid : ∀ op ∈ ops, ∀ l, op.list? = some l → l.number < h.lists.size) :
    h.Closure (h.after ops) ops := by
  have sound := possible.sound
  have edited := edited_after sound ops valid
  have after : (h.after ops).Sound := edited.changes.sound sound
  have exempt : ∀ i, h.unowned i = true → (h.after ops).unowned i = true := fun i unowned =>
    (edited.unowned i (within_of_unowned unowned)).trans unowned
  have fixed : ∀ (id : Nat) (r : Ref), h.constant id = true → (h.after ops).Holds id (.ref r) →
      (h.after ops).unowned r.id = true := by
    intro id r constant held
    have unowned : h.unowned id = true := by
      rw [constant_eq] at constant
      rw [unowned_eq]
      cases seen : h.aspect? id <;> simp_all [Aspect.unowned]
    exact exempt _ (closed_iff.mp closed id r unowned (edited.holds_of_constant constant held))
  refine ⟨fun id r constant held => ?_, fun kept => ?_, fun isClosed id r unowned held => ?_,
    fun isClosed l roots r id unowned accessible =>
      isClosed.getElem?_collect after.consistent unowned accessible l roots,
    fun op id r h'' sets ran => after.not_closed_of_sets sets ran⟩
  · exact ⟨fixed id r constant held, after.consistent.owner?_of_unowned (fixed id r constant held)⟩
  · refine closed_iff.mpr fun id r unowned held => ?_
    have within : id < h.cells.size := by
      by_contra above
      rw [edited.ownable id (Nat.le_of_not_lt above)] at unowned
      cases unowned
    rw [edited.unowned id within] at unowned
    rcases edited.holds id within _ held with before | stored
    · exact exempt _ (closed_iff.mp closed id r unowned before)
    · by_cases constant : h.constant id = true
      · exact fixed id r constant held
      · exact exempt _ (kept id r stored unowned (by simpa using constant))
  · exact after.consistent.owner?_of_unowned (closed_iff.mp isClosed id r unowned held)

/-- A shared array, a constant text and a text of the only list. -/
def board : Heap :=
  let h := ({} : Heap).newList.2
  let h := (h.create (.array []) false true).2
  let h := (h.create (.string "rule") true false).2
  (h.create (.string "note") false false).2.adopt ⟨0⟩ 2

theorem possible_board : board.Possible := by
  refine .tail (.tail ?_ (.create _ (.string "note") false false)) (.adopt (by decide) (by decide))
  refine .tail (.tail ?_ (.create _ (.array []) false true)) (.create _ (.string "rule") true false)
  exact .single (.newList {})

/-- The constant text is pushed onto the shared array; all else is collected. -/
def posting : List Operation :=
  [.push (.ref ⟨.array, 0⟩) (.ref ⟨.string, 1⟩), .collect ⟨0⟩ []]

theorem puts_posting (stored : board.Puts posting id (.ref r)) : board.unowned r.id = true := by
  rcases stored with ⟨stores, -⟩ | ⟨stores, -⟩ | nothing
  · rcases stores with ⟨_ | _ | assigns | assigns⟩ | _ | assigns
    · decide
    all_goals cases assigns
  · rcases stores with ⟨_ | _ | assigns | assigns⟩ | _ | assigns
    all_goals cases assigns
  · exact nothing.elim

theorem posting_leaves_board_closed : board.Possible ∧ board.Closed ∧
    (board.after posting).items? (.ref ⟨.array, 0⟩) = some [.ref ⟨.string, 1⟩] ∧
    board.Closure (board.after posting) posting ∧ (board.after posting).Closed := by
  have closure : board.Closure (board.after posting) posting :=
    operations_leave_unowned_closed possible_board (by decide) posting (by decide)
  exact ⟨possible_board, by decide, by decide, closure,
    closure.closed fun _ _ stored _ _ => puts_posting stored⟩

/-- A text of the list is pushed onto the shared array, and a collection frees it there. -/
theorem shared_array_opened : board.Possible ∧ board.Closed ∧
    (board.after [.push (.ref ⟨.array, 0⟩) (.ref ⟨.string, 2⟩)]).owner? 2 = some ⟨0⟩ ∧
    ¬ (board.after [.push (.ref ⟨.array, 0⟩) (.ref ⟨.string, 2⟩)]).Closed ∧
    ∃ h, h = board.after [.push (.ref ⟨.array, 0⟩) (.ref ⟨.string, 2⟩), .collect ⟨0⟩ []] ∧
      h.items? (.ref ⟨.array, 0⟩) = some [.ref ⟨.string, 2⟩] ∧ h.live 2 = false :=
  ⟨possible_board, by decide, by decide, by decide, _, rfl, by decide, by decide⟩

end Heap

end Tenancy
