import Mathlib.Data.List.Forall2
import Mathlib.Data.List.Perm.Subperm
import Tenancy.Proofs.Heap.Twin

/-!
The states of copying.

Copying enters a payload once, makes its copy and remembers it before what it holds is copied. So at
any time some copies are complete and the containers on the way to the value at hand are not.
Underway, the heap has the sources as they were and one begun copy for each source in the memo. Until
a value is copied, the memo grows by complete copies only.
-/

namespace Tenancy

open Tenancy.Action Heap

/-! ### Payloads and their copies -/

namespace Payload

def begun : Payload → Payload
  | .array _ => .array []
  | .mapping _ => .mapping []
  | .buffer b => .buffer b.duplicate
  | payload => payload

/-- A copy at any time: only what a container holds may be missing. -/
inductive Begins : Payload → Payload → Prop where
  | string (text : String) : Begins (.string text) (.string text)
  | buffer (b : Buffer) : Begins (.buffer b) (.buffer b.duplicate)
  | array (items copies : List Value) : Begins (.array items) (.array copies)
  | mapping (entries copies : List Entry) : Begins (.mapping entries) (.mapping copies)
  | function (object : ObjectId) (name : String) :
      Begins (.function object name) (.function object name)

theorem begins_begun (p : Payload) : p.Begins p.begun := by
  cases p <;> constructor

/-- The text of a string or the bytes of a buffer. -/
def face : Payload → Option (String ⊕ List UInt8)
  | .string text => some (.inl text)
  | .buffer b => some (.inr b.bytes)
  | _ => none

theorem Begins.face {p p' : Payload} (begins : p.Begins p')
    (plain : ∀ b, p = .buffer b → b.cls = none) : p'.face = p.face := by
  cases begins with
  | buffer b => simp [Payload.face, Buffer.duplicate, plain b rfl]
  | string | array | mapping | function => rfl

end Payload

theorem Buffer.length_pieces (size count : Nat) (bytes : List UInt8) :
    (pieces size count bytes).length = count := by
  induction count generalizing bytes with
  | zero => rfl
  | succ count ih => rw [pieces, List.length_cons, ih]

theorem Buffer.length_of_mem_pieces {bytes piece : List UInt8} (whole : bytes.length = size * count)
    (mem : piece ∈ pieces size count bytes) : piece.length = size := by
  induction count generalizing bytes with
  | zero => cases mem
  | succ count ih =>
    rw [Nat.mul_succ] at whole
    rcases List.mem_cons.mp mem with rfl | later
    · rw [List.length_take]
      omega
    · refine ih ?_ later
      rw [List.length_drop]
      omega

theorem Buffer.length_duplicate {b : Buffer} {c : BufferClass} (isClass : b.cls = some c)
    (whole : c.instanceSize ∣ b.bytes.length) : b.duplicate.bytes.length = b.bytes.length := by
  have count : b.instanceCount = b.bytes.length / c.instanceSize := by
    rw [instanceCount, isClass]
  have each : ∀ piece ∈ pieces c.instanceSize b.instanceCount b.bytes,
      (c.duplicate piece).length = c.instanceSize := fun piece mem =>
    c.duplicate_length piece (length_of_mem_pieces (by rw [count, Nat.mul_div_cancel' whole]) mem)
  simp only [duplicate, isClass]
  rw [List.length_flatMap, List.map_congr_left each, List.map_const', List.sum_replicate_nat,
    length_pieces, count, Nat.div_mul_cancel whole]

namespace Heap

variable {h h' h'' : Heap} {l t : ListId} {id n : Nat} {v key : Value} {values : List Value}
  {entries : List Entry}

theorem sameContents_eq (h : Heap) (a b : Nat) :
    h.sameContents a b =
      match (h.payload? a).bind Payload.face, (h.payload? b).bind Payload.face with
      | some x, some y => x == y
      | _, _ => false := by
  unfold sameContents
  cases h.payload? a with
  | none => cases h.payload? b <;> rfl
  | some p =>
    cases h.payload? b with
    | none => cases p <;> rfl
    | some q => cases p <;> cases q <;> rfl

/-! ### What is to be copied -/

/-- The payloads that the copies of the values are made from. A payload without an owner by right is
not entered. -/
inductive Drawn (h : Heap) (values : List Value) : Nat → Prop where
  | source {r : Ref} (given : .ref r ∈ values) (ownable : h.unowned r.id = false) :
      Drawn h values r.id
  | within {id : Nat} {r : Ref} (drawn : Drawn h values id) (held : h.Holds id (.ref r))
      (ownable : h.unowned r.id = false) : Drawn h values r.id

/-- The values that are copied: those given, and all that is held by what they lead to. -/
def Met (h : Heap) (values : List Value) (v : Value) : Prop :=
  v ∈ values ∨ ∃ id, h.Drawn values id ∧ h.Holds id v

theorem Met.drawn (met : h.Met values (.ref r)) (ownable : h.unowned r.id = false) :
    h.Drawn values r.id := by
  rcases met with given | ⟨id, drawn, held⟩
  · exact .source given ownable
  · exact .within drawn held ownable

theorem Drawn.ownable (drawn : h.Drawn values id) : h.unowned id = false := by
  cases drawn <;> assumption

/-- A reference names a payload that is or was there, and by its kind. -/
def Refers (h : Heap) (v : Value) : Prop :=
  ∀ r, v = .ref r → r.id < h.cells.size ∧ ∀ p, h.payload? r.id = some p → p.kind = r.kind

/-- The value is not a buffer whose class makes the bytes of its copy. -/
def Plain (h : Heap) (v : Value) : Prop :=
  ∀ r b, v = .ref r → h.unowned r.id = false → h.payload? r.id = some (.buffer b) → b.cls = none

/-- No key equals one before it, and the copies of all keys have the contents of the keys. -/
structure Distinct (h : Heap) (entries : List Entry) : Prop where
  unequal : entries.Pairwise fun a b => h.equals b.key a.key = false
  plain : ∀ e ∈ entries, h.Plain e.key

/-! ### What copying leaves alone -/

/-- The cells of `h` are the same in `h'`. A digest may have been kept at one without an owner. -/
def Preserved (h h' : Heap) : Prop :=
  ∀ (id : Nat) (c : Cell), h.cells[id]? = some c →
    ∃ d, h'.cells[id]? = some { c with digest := d } ∧ (c.unowned = false → d = c.digest)

namespace Preserved

theorem refl (h : Heap) : h.Preserved h := fun _ c found => ⟨c.digest, found, fun _ => rfl⟩

theorem trans (first : h.Preserved h') (second : h'.Preserved h'') : h.Preserved h'' := by
  intro id c found
  obtain ⟨d, found', same⟩ := first id c found
  obtain ⟨d', found'', same'⟩ := second id _ found'
  exact ⟨d', found'', fun ownable => (same' ownable).trans (same ownable)⟩

theorem of_getElem? (same : ∀ id < h.cells.size, h'.cells[id]? = h.cells[id]?) :
    h.Preserved h' := by
  intro id c found
  obtain ⟨within, -⟩ := Array.getElem?_eq_some_iff.mp found
  exact ⟨c.digest, (same id within).trans found, fun _ => rfl⟩

section

variable (kept : h.Preserved h') (within : id < h.cells.size)
include kept within

theorem unowned : h'.unowned id = h.unowned id := by
  obtain ⟨d, found, -⟩ := kept id _ (Array.getElem?_eq_getElem within)
  simp [Heap.unowned, found, within, Cell.unowned]

theorem payload? : h'.payload? id = h.payload? id := by
  obtain ⟨d, found, -⟩ := kept id _ (Array.getElem?_eq_getElem within)
  simp [Heap.payload?, found, within]

theorem owner? : h'.owner? id = h.owner? id := by
  obtain ⟨d, found, -⟩ := kept id _ (Array.getElem?_eq_getElem within)
  simp [Heap.owner?, binding?, found, within]

end

theorem modifyCell (kept : h.Preserved h') (new : h.cells.size ≤ id) (f : Cell → Cell) :
    h.Preserved (h'.modifyCell id f) := by
  intro i c found
  obtain ⟨within, -⟩ := Array.getElem?_eq_some_iff.mp found
  obtain ⟨d, found', same⟩ := kept i c found
  refine ⟨d, ?_, same⟩
  rw [getElem?_modifyCell, if_neg (by omega)]
  exact found'

theorem keepDigest (kept : h.Preserved h') (exempt : h.unowned id = true) (d : Digest) :
    h.Preserved (h'.modifyCell id fun c => { c with digest := some d }) := by
  intro i c found
  obtain ⟨d', found', same⟩ := kept i c found
  by_cases here : id = i
  · subst here
    refine ⟨some d, ?_, fun ownable => ?_⟩
    · rw [getElem?_modifyCell, if_pos rfl, found']
      rfl
    · rw [Heap.unowned, found, Option.any_some, ownable] at exempt
      exact absurd exempt (by simp)
  · refine ⟨d', ?_, same⟩
    rw [getElem?_modifyCell, if_neg here]
    exact found'

end Preserved

theorem getElem?_place_of_ne (ne : id ≠ h.cells.size) (l : ListId) (payload : Payload) :
    (h.place l payload).2.cells[id]? = h.cells[id]? := by
  show ((h.create payload false false).2.adopt l h.cells.size).cells[id]? = _
  have created : (h.create payload false false).2.cells[id]? = h.cells[id]? := by
    simp [create, Array.getElem?_push, ne]
  unfold adopt
  split
  · exact created
  · unfold occupy
    rw [getElem?_modifyCell, if_neg (Ne.symm ne)]
    exact created

theorem Consistent.place (sane : h.Consistent) (valid : l.number < h.lists.size)
    (payload : Payload) : (h.place l payload).2.Consistent :=
  (sane.create payload false false).adopt valid (by simp [Heap.create])

theorem note_cases (h : Heap) (v : Value) : h.note v = h ∨ ∃ r d, v = .ref r ∧
    h.note v = h.modifyCell r.id fun c => { c with digest := some d } := by
  unfold note keepDigest
  split
  · exact .inr ⟨_, _, rfl, rfl⟩
  · exact .inr ⟨_, _, rfl, rfl⟩
  · exact .inl rfl

@[simp] theorem size_cells_note (h : Heap) (v : Value) : (h.note v).cells.size = h.cells.size := by
  rcases h.note_cases v with same | ⟨r, d, -, noted⟩
  · rw [same]
  · rw [noted, size_cells_modifyCell]

theorem mem_put (mem : e ∈ h.put key value entries) :
    (∃ e' ∈ entries, e'.key = e.key ∧ e'.digest = e.digest) ∨
      e.key = key ∧ e.digest = h.digest key := by
  unfold put at mem
  induction entries with
  | nil =>
    obtain rfl := List.mem_singleton.mp mem
    exact .inr ⟨rfl, rfl⟩
  | cons first rest ih =>
    rw [putAt] at mem
    split at mem
    · rcases List.mem_cons.mp mem with rfl | later
      · exact .inl ⟨first, by simp, rfl, rfl⟩
      · exact .inl ⟨e, by simp [later], rfl, rfl⟩
    · rcases List.mem_cons.mp mem with rfl | later
      · exact .inl ⟨e, by simp, rfl, rfl⟩
      · refine (ih later).imp_left ?_
        rintro ⟨e', mem', same⟩
        exact ⟨e', by simp [mem'], same⟩

theorem put_of_unequal (unequal : ∀ e ∈ entries, h.equals key e.key = false) :
    h.put key value entries = entries ++ [⟨key, value, h.digest key⟩] := by
  unfold put
  induction entries with
  | nil => rfl
  | cons e rest ih =>
    have here := unequal e (by simp)
    have later := ih fun e' mem => unequal e' (by simp [mem])
    simp [putAt, matchesAt, here, later]

/-! ### What copying does to digests -/

/-- Each key was entered with the digest that it has. -/
def Settled (h : Heap) (entries : List Entry) : Prop :=
  ∀ e ∈ entries, e.key.Within h.cells.size ∧ e.digest = h.digest e.key

theorem Settled.keep (settled : h.Settled entries) (size : h.cells.size ≤ h'.cells.size)
    (digests : ∀ v : Value, v.Within h.cells.size → h'.digest v = h.digest v) : h'.Settled entries := by
  intro e mem
  obtain ⟨within, digest⟩ := settled e mem
  exact ⟨within.mono size, digest.trans (digests e.key within).symm⟩

theorem Settled.put (settled : h.Settled entries) (within : key.Within h.cells.size) (value : Value) :
    h.Settled (h.put key value entries) := by
  intro e mem
  rcases mem_put mem with ⟨e', mem', sameKey, sameDigest⟩ | ⟨rfl, digest⟩
  · rw [← sameKey, ← sameDigest]
    exact settled e' mem'
  · exact ⟨within, digest⟩

theorem Settled.note (settled : h.Settled entries) (v : Value) : (h.note v).Settled entries :=
  settled.keep (by simp) fun w _ => digest_note h v w

/-- No digest of `h0` has changed in `h`, and the keys of new mappings are settled. -/
structure Filing (h0 h : Heap) : Prop where
  upToDate : h.UpToDate
  size : h0.cells.size ≤ h.cells.size
  digests : ∀ v : Value, v.Within h0.cells.size → h.digest v = h0.digest v
  settled : ∀ id entries, h0.cells.size ≤ id → h.payload? id = some (.mapping entries) →
    h.Settled entries

namespace Filing

variable {h0 : Heap}

theorem refl (upToDate : h.UpToDate) : h.Filing h := by
  refine ⟨upToDate, le_rfl, fun _ _ => rfl, fun id entries above found => ?_⟩
  have below := within_of_live (h := h) (by rw [live, found]; rfl)
  omega

section

variable (filing : h0.Filing h)
include filing

theorem place (l : ListId) (empty : ∀ entries, payload = .mapping entries → entries = []) :
    h0.Filing (h.place l payload).2 := by
  have extended := extended_place h l payload
  have digests : ∀ v : Value, v.Within h.cells.size →
      (h.place l payload).2.digest v = h.digest v := fun v within =>
    digest_congr fun r same => by rw [extended.aspect?_old (within r same).ne]
  refine ⟨(filing.upToDate.create payload false false).adopt l _,
    filing.size.trans extended.keeps.cells, fun v within => ?_,
    fun id entries above found => ?_⟩
  · exact (digests v (within.mono filing.size)).trans (filing.digests v within)
  · by_cases new : id = h.cells.size
    · rw [new, payload?_eq, extended.aspect?_new] at found
      obtain rfl := empty entries (Option.some.inj found)
      simp [Settled]
    · rw [payload?_eq, extended.aspect?_old new, ← payload?_eq] at found
      exact (filing.settled id entries above found).keep extended.keeps.cells digests

theorem note (v : Value) : h0.Filing (h.note v) := by
  refine ⟨filing.upToDate.note v, by simpa using filing.size, fun w within => ?_,
    fun id entries above found => ?_⟩
  · rw [digest_note, filing.digests w within]
  · rw [payload?_note] at found
    exact (filing.settled id entries above found).note v

theorem write (found : h.payload? id = some old)
    (spent : old.digest = .spent) (spent' : new.digest = .spent)
    (settled : ∀ entries, new = .mapping entries → h.Settled entries) :
    h0.Filing (h.write id new) := by
  have digests := filing.upToDate.digest_write found spent spent'
  have size : (h.write id new).cells.size = h.cells.size := by simp [Heap.write_eq]
  refine ⟨filing.upToDate.write id new, by simpa [size] using filing.size, fun v within => ?_,
    fun i entries above found' => ?_⟩
  · rw [digests, filing.digests v within]
  · rw [payload?_write] at found'
    split at found'
    · exact (settled entries (Option.some.inj found')).keep size.ge fun v _ => digests v
    · exact (filing.settled i entries above found').keep size.ge fun v _ => digests v

end

end Filing

end Heap

/-- What a value is copied to by way of the memo. -/
inductive CopyMemo.Sends (memo : CopyMemo) (h : Heap) : Value → Value → Prop where
  | scalar {v : Value} (scalar : v.ref? = none) : Sends memo h v v
  | kept {r : Ref} (exempt : h.unowned r.id = true) : Sends memo h (.ref r) (.ref r)
  | copied {r : Ref} {id : Nat} (ownable : h.unowned r.id = false)
      (remembered : (r.id, .ref ⟨r.kind, id⟩) ∈ memo) : Sends memo h (.ref r) (.ref ⟨r.kind, id⟩)

theorem CopyMemo.Sends.mono
    (sends : memo.Sends h v c) (more : memo ⊆ memo') : CopyMemo.Sends memo' h v c := by
  cases sends with
  | scalar scalar => exact .scalar scalar
  | kept exempt => exact .kept exempt
  | copied ownable remembered => exact .copied ownable (more remembered)

theorem CopyMemo.Sends.form {memo : CopyMemo} {v c : Value} (sends : memo.Sends h v c) :
    v.ref? = none ∧ c = v ∨ ∃ r id, v = .ref r ∧ c = .ref ⟨r.kind, id⟩ := by
  cases sends with
  | scalar scalar => exact .inl ⟨scalar, rfl⟩
  | @kept r _ => exact .inr ⟨r, r.id, rfl, rfl⟩
  | @copied r id _ _ => exact .inr ⟨r, id, rfl, rfl⟩

/-- A complete copy, where `R` says what the values in it are copied to. Keys that coincide are one
key of the copy, so what a mapping is copied to is told only when they are distinct. -/
inductive Payload.Copied (h : Heap) (R : Value → Value → Prop) : Payload → Payload → Prop where
  | string (text : String) : Copied h R (.string text) (.string text)
  | buffer (b : Buffer) : Copied h R (.buffer b) (.buffer b.duplicate)
  | array {items copies : List Value} (each : items.Forall₂ R copies) :
      Copied h R (.array items) (.array copies)
  | mapping {entries copies : List Entry}
      (each : h.Distinct entries →
        entries.Forall₂ (fun e c => R e.key c.key ∧ R e.value c.value) copies) :
      Copied h R (.mapping entries) (.mapping copies)
  | function (object : ObjectId) (name : String) :
      Copied h R (.function object name) (.function object name)

theorem Payload.Copied.mono {h : Heap} {R R' : Value → Value → Prop} {p p' : Payload}
    (copied : p.Copied h R p') (more : ∀ v c, R v c → R' v c) : p.Copied h R' p' := by
  cases copied with
  | string text => exact .string text
  | buffer b => exact .buffer b
  | array each => exact .array (each.imp more)
  | mapping each =>
    refine .mapping fun distinct => (each distinct).imp ?_
    exact fun e c both => ⟨more _ _ both.1, more _ _ both.2⟩
  | function object name => exact .function object name

/-! ### The states on the way -/

namespace Copying

variable {h0 : Heap} {t : ListId} {values : List Value} {s s' s'' : Copying} {m id : Nat}
  {e : Nat × Value} {opened : Nat → Prop}

/-- The source and the copy of a remembered pair. The copy has the number `m` or a later one. -/
def Shows (h0 : Heap) (R : Payload → Payload → Prop) (m : Nat) (s : Copying) (e : Nat × Value) :
    Prop :=
  ∃ p id p', h0.payload? e.1 = some p ∧ e.2 = .ref ⟨p.kind, id⟩ ∧ m ≤ id ∧
    s.heap.payload? id = some p' ∧ R p p'

/-- All that the source holds has been copied, and the copy holds these copies. -/
def Complete (h0 : Heap) (memo : CopyMemo) (p p' : Payload) : Prop :=
  p.Copied h0 (memo.Sends h0) p' ∧ ∀ v, p.Holds v → ∃ c, memo.Sends h0 v c

theorem Complete.mono {memo memo' : CopyMemo} {p p' : Payload} (complete : Complete h0 memo p p')
    (more : memo ⊆ memo') : Complete h0 memo' p p' := by
  refine ⟨complete.1.mono fun _ _ sends => sends.mono more, fun v held => ?_⟩
  obtain ⟨c, sends⟩ := complete.2 v held
  exact ⟨c, sends.mono more⟩

structure Underway (h0 : Heap) (t : ListId) (values : List Value) (s : Copying) : Prop where
  consistent : s.heap.Consistent
  valid : t.number < s.heap.lists.size
  preserved : h0.Preserved s.heap
  lists : ∀ l, l ≠ t → s.heap.list l = h0.list l
  cells : h0.cells.size ≤ s.heap.cells.size
  owned : ∀ id, h0.cells.size ≤ id → id < s.heap.cells.size → s.heap.owner? id = some t
  drawn : ∀ e ∈ s.memo, h0.Drawn values e.1
  once : (s.memo.map Prod.fst).Nodup
  shown : ∀ e ∈ s.memo, s.Shows h0 Payload.Begins h0.cells.size e
  apart : ∀ {a b : Nat} {k k' : Kind} {id : Nat}, (a, .ref ⟨k, id⟩) ∈ s.memo →
    (b, .ref ⟨k', id⟩) ∈ s.memo → a = b
  onto : ∀ id, h0.cells.size ≤ id → id < s.heap.cells.size → ∃ a k, (a, .ref ⟨k, id⟩) ∈ s.memo
  filing : h0.UpToDate → h0.Filing s.heap

/-- The memo has grown by complete copies, and payloads are as they were but for those opened. -/
structure Grows (h0 : Heap) (opened : Nat → Prop) (s s' : Copying) : Prop where
  cells : s.heap.cells.size ≤ s'.heap.cells.size
  kept : ∀ id < s.heap.cells.size, ¬ opened id → s'.heap.payload? id = s.heap.payload? id
  memo : ∃ more, s'.memo = more ++ s.memo ∧
    ∀ e ∈ more, s'.Shows h0 (Complete h0 s'.memo) s.heap.cells.size e

theorem Shows.within (shows : s.Shows h0 R m e)
    (same : e.2 = .ref ⟨k, id⟩) : id < s.heap.cells.size := by
  obtain ⟨q, id', p', -, same', -, found, -⟩ := shows
  rw [same] at same'
  cases same'
  exact within_of_live (by rw [live, found]; rfl)

namespace Grows

theorem subset (grows : Grows h0 opened s s') : s.memo ⊆ s'.memo := by
  obtain ⟨more, extended, -⟩ := grows.memo
  rw [extended]
  exact List.subset_append_right more s.memo

theorem refl (s : Copying) : Grows h0 opened s s :=
  ⟨le_rfl, fun _ _ _ => rfl, [], rfl, by simp⟩

theorem mono (grows : Grows h0 opened s s')
    (wider : ∀ id, opened id → opened' id) : Grows h0 opened' s s' :=
  ⟨grows.cells, fun id below shut => grows.kept id below (mt (wider id) shut), grows.memo⟩

/-- The copies made first are complete, so they are not among those opened before. -/
theorem trans (first : Grows h0 opened s s') (second : Grows h0 opened s' s'')
    (below : ∀ id, opened id → id < s.heap.cells.size) : Grows h0 opened s s'' where
  cells := first.cells.trans second.cells
  kept id less shut :=
    (second.kept id (less.trans_le first.cells) shut).trans (first.kept id less shut)
  memo := by
    obtain ⟨more, extended, complete⟩ := first.memo
    obtain ⟨later, extended', complete'⟩ := second.memo
    refine ⟨later ++ more, by rw [extended', extended, List.append_assoc], fun e mem => ?_⟩
    rcases List.mem_append.mp mem with new | old
    · obtain ⟨p, id, p', source, same, above, found, copied⟩ := complete' e new
      exact ⟨p, id, p', source, same, first.cells.trans above, found, copied⟩
    · obtain ⟨p, id, p', source, same, above, found, copied⟩ := complete e old
      have within : id < s'.heap.cells.size := (complete e old).within same
      have shut : ¬ opened id := fun isOpen => absurd (below id isOpen) (by omega)
      exact ⟨p, id, p', source, same, above, (second.kept id within shut).trans found,
        copied.mono second.subset⟩

/-- What is remembered in the end has been copied completely. -/
theorem complete (grows : Grows h0 (fun _ => False) { heap := h0 } s) :
    ∀ e ∈ s.memo, s.Shows h0 (Complete h0 s.memo) h0.cells.size e := by
  obtain ⟨more, extended, complete⟩ := grows.memo
  rw [List.append_nil] at extended
  intro e mem
  exact complete e (extended ▸ mem)

theorem write (s : Copying) (id : Nat) (payload : Payload) :
    Grows h0 (· = id) s { s with heap := s.heap.write id payload } where
  cells := by simp [Heap.write_eq]
  kept i _ shut := by rw [Heap.payload?_write, if_neg fun both => shut both.1]
  memo := ⟨[], rfl, by simp⟩

end Grows

namespace Underway

variable {a : Nat}

theorem start (sane : h0.Consistent) (valid : t.number < h0.lists.size) :
    Underway h0 t values { heap := h0 } where
  consistent := sane
  valid := valid
  preserved := .refl h0
  lists _ _ := rfl
  cells := le_rfl
  owned id above below := absurd below (by simpa using above)
  drawn _ mem := by simp at mem
  once := by simp
  shown _ mem := by simp at mem
  apart mem := by simp at mem
  onto id above below := absurd below (by simpa using above)
  filing upToDate := .refl upToDate

section

variable (underway : Underway h0 t values s)
include underway

/-- Every source is remembered once, so there are at most as many copies as there were payloads. -/
theorem length_memo_le : s.memo.length ≤ h0.cells.size := by
  have within : s.memo.map Prod.fst ⊆ List.range h0.cells.size := by
    intro a mem
    obtain ⟨e, remembered, rfl⟩ := List.mem_map.mp mem
    obtain ⟨p, -, -, source, -⟩ := underway.shown e remembered
    exact List.mem_range.mpr (within_of_live (by rw [live, source]; rfl))
  simpa using (List.subperm_of_subset underway.once within).length_le

theorem ofEvents (events : List ClassEvent) :
    Underway h0 t values { s with heap := { s.heap with events } } :=
  { underway with
    consistent := ⟨underway.consistent.tidy, underway.consistent.bound,
      underway.consistent.occupied, underway.consistent.exempt⟩
    filing := fun upToDate => { underway.filing upToDate with } }

theorem within (remembered : (a, .ref ⟨k, id⟩) ∈ s.memo) : id < s.heap.cells.size :=
  (underway.shown _ remembered).within rfl

theorem copy_of (remembered : (a, .ref ⟨k, id⟩) ∈ s.memo) :
    h0.cells.size ≤ id ∧ ∃ p p' : Payload, h0.payload? a = some p ∧ p.kind = k ∧
      s.heap.payload? id = some p' ∧ p.Begins p' := by
  obtain ⟨p, _, p', source, same, above, found, begins⟩ := underway.shown _ remembered
  cases same
  exact ⟨above, p, p', source, rfl, found, begins⟩

theorem place (source : h0.payload? a = some p) (drawn : h0.Drawn values a)
    (new : a ∉ s.memo.map Prod.fst) : Underway h0 t values ⟨(s.heap.place t p.begun).2,
      (a, .ref ⟨p.kind, s.heap.cells.size⟩) :: s.memo⟩ := by
  have extended := extended_place s.heap t p.begun
  have old : ∀ id < s.heap.cells.size, (s.heap.place t p.begun).2.cells[id]? = s.heap.cells[id]? :=
    fun id below => getElem?_place_of_ne below.ne t p.begun
  refine ⟨underway.consistent.place underway.valid _, ?_, ?_, ?_, ?_, ?_, ?_, ?_, ?_, ?_, ?_, ?_⟩
  · exact underway.valid.trans_le extended.lists.ge
  · exact underway.preserved.trans (.of_getElem? old)
  · intro l ne
    exact (list_place_of_ne ne _).trans (underway.lists l ne)
  · exact underway.cells.trans extended.keeps.cells
  · intro id above below
    by_cases isNew : id = s.heap.cells.size
    · rw [isNew, extended.owner?_new]
    · have less : id < s.heap.cells.size := by
        have := extended.cells
        simp only at below
        omega
      rw [extended.owner?_old isNew]
      exact underway.owned id above less
  · intro e mem
    rcases List.mem_cons.mp mem with rfl | before
    · exact drawn
    · exact underway.drawn e before
  · exact List.nodup_cons.mpr ⟨new, underway.once⟩
  · intro e mem
    rcases List.mem_cons.mp mem with rfl | before
    · refine ⟨p, _, p.begun, source, rfl, underway.cells, ?_, p.begins_begun⟩
      rw [payload?_eq, extended.aspect?_new]
      rfl
    · obtain ⟨q, id, q', source, same, above, found, begins⟩ := underway.shown e before
      have less := (underway.shown e before).within same
      exact ⟨q, id, q', source, same, above, (payload?_congr (old id less)).trans found, begins⟩
  · intro a b k k' id first second
    rcases List.mem_cons.mp first with isNew | before
    · cases isNew
      rcases List.mem_cons.mp second with isNew | before
      · cases isNew
        rfl
      · exact absurd (underway.within before) (Nat.lt_irrefl _)
    · rcases List.mem_cons.mp second with isNew | before'
      · cases isNew
        exact absurd (underway.within before) (Nat.lt_irrefl _)
      · exact underway.apart before before'
  · intro id above below
    by_cases isNew : id = s.heap.cells.size
    · exact ⟨a, p.kind, by simp [isNew]⟩
    · have less : id < s.heap.cells.size := by
        have := extended.cells
        simp only at below
        omega
      obtain ⟨b, k, remembered⟩ := underway.onto id above less
      exact ⟨b, k, List.mem_cons_of_mem _ remembered⟩
  · intro upToDate
    refine (underway.filing upToDate).place t fun entries isMapping => ?_
    cases p <;> simp_all [Payload.begun]

theorem modifyCell (keeps : Cell.KeepsOwner f)
    (preserved : h0.Preserved (s.heap.modifyCell id f))
    (filing : h0.UpToDate → h0.Filing (s.heap.modifyCell id f))
    (shown : ∀ e ∈ s.memo, Shows h0 Payload.Begins h0.cells.size
      { s with heap := s.heap.modifyCell id f } e) :
    Underway h0 t values { s with heap := s.heap.modifyCell id f } :=
  { underway with
    consistent := underway.consistent.modifyCell id keeps
    preserved := preserved
    cells := by simpa using underway.cells
    owned := fun i above below => by
      have owned := underway.owned i above (by simpa using below)
      unfold owner? at owned ⊢
      rwa [binding?_modifyCell _ _ _ keeps.binding]
    shown := shown
    onto := by simpa using underway.onto
    filing := filing }

theorem write (above : h0.cells.size ≤ id) (found : s.heap.payload? id = some old)
    (same : ∀ p : Payload, p.Begins old → p.Begins new)
    (filing : h0.UpToDate → h0.Filing (s.heap.write id new)) :
    Underway h0 t values { s with heap := s.heap.write id new } := by
  rw [write_eq] at filing ⊢
  refine underway.modifyCell ⟨fun _ => rfl, fun _ => rfl⟩ (underway.preserved.modifyCell above _)
    filing ?_
  rw [← write_eq]
  intro e mem
  obtain ⟨p, i, p', source, isRef, above, found', begins⟩ := underway.shown e mem
  by_cases here : i = id
  · subst here
    rw [found] at found'
    cases found'
    refine ⟨p, i, new, source, isRef, above, ?_, same p begins⟩
    exact (payload?_write ..).trans (if_pos ⟨rfl, (underway.shown e mem).within isRef⟩)
  · refine ⟨p, i, p', source, isRef, above, ?_, begins⟩
    exact (payload?_write ..).trans ((if_neg fun both => here both.1).trans found')

theorem note (sends : s.memo.Sends h0 v c) :
    Underway h0 t values { s with heap := s.heap.note c } := by
  have shown : ∀ e ∈ s.memo,
      Shows h0 Payload.Begins h0.cells.size { s with heap := s.heap.note c } e := by
    intro e mem
    obtain ⟨p, i, p', source, isRef, above, found, begins⟩ := underway.shown e mem
    exact ⟨p, i, p', source, isRef, above, (payload?_note _ _ _).trans found, begins⟩
  have filing : h0.UpToDate → h0.Filing (s.heap.note c) :=
    fun upToDate => (underway.filing upToDate).note c
  rcases note_cases s.heap c with same | ⟨r, d, rfl, noted⟩
  · rwa [same]
  rw [noted] at shown filing ⊢
  refine underway.modifyCell ⟨fun _ => rfl, fun _ => rfl⟩ ?_ filing shown
  cases sends with
  | scalar scalar => simp [Value.ref?] at scalar
  | kept exempt => exact underway.preserved.keepDigest exempt d
  | copied _ remembered =>
    exact underway.preserved.modifyCell (underway.copy_of remembered).1 _

theorem sent_within (sends : s.memo.Sends h0 v c) : c.Within s.heap.cells.size := by
  rintro r rfl
  cases sends with
  | scalar scalar => simp [Value.ref?] at scalar
  | kept exempt => exact (within_of_unowned exempt).trans_le underway.cells
  | copied _ remembered => exact underway.within remembered

end

end Underway

end Copying

end Tenancy
