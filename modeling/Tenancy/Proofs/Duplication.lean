import Tenancy.Proofs.Heap.Duplicate

/-!
Copies are isomorphic to their sources.

However the values share and cycle, copying them one after the other sends each payload that they
lead to, short of those without an owner by right, to one new payload of the target. It fails only
when it comes upon a payload that has been freed.
-/

namespace Tenancy

open Tenancy.Action List Heap Value

namespace Heap

variable {h : Heap} {values : List Value} {id : Nat} {v w : Value}

theorem equals_of_scalar (h h' : Heap) (scalar : v.ref? = none) : h.equals w v = h'.equals w v := by
  cases v <;> cases w <;> first | rfl | simp [ref?] at scalar

theorem equals_ref_scalar (r : Ref) (scalar : v.ref? = none) : h.equals (.ref r) v = false := by
  cases v <;> first | rfl | simp [ref?] at scalar

theorem equals_scalar_ref (r : Ref) (scalar : v.ref? = none) : h.equals v (.ref r) = false := by
  cases v <;> first | rfl | simp [ref?] at scalar

end Heap

namespace Copying.Underway

variable {h0 : Heap} {t : ListId} {values : List Value} {s : Copying} {v w c d : Value} {r r' q q' : Ref}

theorem payload?_eq (underway : Underway h0 t values s) {id : Nat} (within : id < h0.cells.size) :
    s.heap.payload? id = h0.payload? id :=
  underway.preserved.payload? within

/-! ### Keys that differ stay different -/

section

variable (underway : Underway h0 t values s)
include underway

theorem face_eq (sends : s.memo.Sends h0 (.ref r) (.ref r')) (plain : h0.Plain (.ref r)) :
    (s.heap.payload? r'.id).bind Payload.face = (h0.payload? r.id).bind Payload.face := by
  cases sends with
  | scalar scalar => simp [ref?] at scalar
  | kept exempt => rw [underway.payload?_eq (within_of_unowned exempt)]
  | copied ownable remembered =>
    obtain ⟨-, p, p', source, -, found, begins⟩ := underway.copy_of remembered
    rw [source, found]
    exact begins.face fun b isBuffer => plain r b rfl ownable (isBuffer ▸ source)

theorem id_eq_iff (first : s.memo.Sends h0 (.ref r) (.ref r'))
    (second : s.memo.Sends h0 (.ref q) (.ref q')) : q'.id = r'.id ↔ q.id = r.id := by
  cases first with
  | scalar scalar => simp [ref?] at scalar
  | kept exempt =>
    cases second with
    | scalar scalar => simp [ref?] at scalar
    | kept => exact Iff.rfl
    | copied ownable remembered =>
      have above := (underway.copy_of remembered).1
      have below := within_of_unowned exempt
      constructor
      · intro same
        simp only at same
        omega
      · intro same
        simp [same, exempt] at ownable
  | copied ownable remembered =>
    cases second with
    | scalar scalar => simp [ref?] at scalar
    | kept exempt =>
      have above := (underway.copy_of remembered).1
      have below := within_of_unowned exempt
      constructor
      · intro same
        simp only at same
        omega
      · intro same
        simp [← same, exempt] at ownable
    | copied _ remembered' =>
      constructor
      · intro same
        simp only at same
        subst same
        exact underway.apart remembered' remembered
      · intro same
        have pairs := inj_on_of_nodup_map underway.once remembered' remembered same
        simp only [Prod.mk.injEq, ref.injEq, Ref.mk.injEq] at pairs
        exact pairs.2.2

theorem equals_eq (first : s.memo.Sends h0 v c) (second : s.memo.Sends h0 w d) (plain : h0.Plain v)
    (plain' : h0.Plain w) : s.heap.equals d c = h0.equals w v := by
  rcases first.form with ⟨scalar, rfl⟩ | ⟨r, i, rfl, rfl⟩
  · rcases second.form with ⟨-, rfl⟩ | ⟨q, j, rfl, rfl⟩
    · exact equals_of_scalar s.heap h0 scalar
    · rw [equals_ref_scalar _ scalar, equals_ref_scalar _ scalar]
  · rcases second.form with ⟨scalar, rfl⟩ | ⟨q, j, rfl, rfl⟩
    · rw [equals_scalar_ref _ scalar, equals_scalar_ref _ scalar]
    · have ids : (j == i) = (q.id == r.id) := by
        rw [Bool.eq_iff_iff, beq_iff_eq, beq_iff_eq]
        exact underway.id_eq_iff first second
      have contents : s.heap.sameContents j i = h0.sameContents q.id r.id := by
        rw [sameContents_eq, sameContents_eq, underway.face_eq first plain,
          underway.face_eq second plain']
      simp only [equals, ids, contents]

theorem writable {id : Nat} (above : h0.cells.size ≤ id)
    (below : id < s.heap.cells.size) : s.heap.constant id = false := by
  have ownable := underway.consistent.not_unowned (underway.owned id above below)
  rw [unowned_eq] at ownable
  rw [constant_eq]
  cases seen : s.heap.aspect? id with
  | none => rfl
  | some a =>
    rw [seen, Option.any_some, Aspect.unowned, Bool.or_eq_false_iff] at ownable
    simpa using ownable.1

end

end Copying.Underway

/-! ### A container while it is filled -/

/-- Since `s` the payload at `id` has been filled, and `Q` holds of it and of the memo. -/
structure Copying.Filling (h0 : Heap) (t : ListId) (values : List Value) (id : Nat) (s : Copying)
    (Q : CopyMemo → Payload → Prop) (s' : Copying) : Prop where
  underway : Underway h0 t values s'
  grows : Grows h0 (· = id) s s'
  filled : ∃ p, s'.heap.payload? id = some p ∧ Q s'.memo p

namespace Copying.Filling

variable {h0 : Heap} {t : ListId} {values : List Value} {s s' s'' : Copying} {id : Nat}
  {Q Q' : CopyMemo → Payload → Prop}

section

variable (filling : Filling h0 t values id s Q s')
include filling

theorem write (above : h0.cells.size ≤ id) (below : id < s.heap.cells.size)
    (found : s'.heap.payload? id = some old) (same : ∀ p : Payload, p.Begins old → p.Begins new)
    (filing : h0.UpToDate → h0.Filing (s'.heap.write id new)) (holds : Q' s'.memo new) :
    Filling h0 t values id s Q' { s' with heap := s'.heap.write id new } := by
  have below' := below.trans_le filling.grows.cells
  refine ⟨filling.underway.write above found same filing, ?_, new, ?_, holds⟩
  · exact filling.grows.trans (.write s' id new) (by rintro _ rfl; exact below)
  · rw [payload?_write, if_pos ⟨rfl, below'⟩]

theorem note (below : id < s.heap.cells.size) (sends : s'.memo.Sends h0 v c) :
    Filling h0 t values id s Q { s' with heap := s'.heap.note c } := by
  obtain ⟨p, found, holds⟩ := filling.filled
  refine ⟨filling.underway.note sends, filling.grows.trans ⟨(size_cells_note _ c).ge,
    fun id _ _ => payload?_note _ c id, [], rfl, by simp⟩ ?_, p, ?_, holds⟩
  · rintro _ rfl
    exact below
  · rw [payload?_note, found]

end

theorem close (cells : k.cells.size = s.heap.cells.size + 1)
    (kept : ∀ i < s.heap.cells.size, k.payload? i = s.heap.payload? i)
    (source : h0.payload? a = some p) (filling : Filling h0 t values s.heap.cells.size
      ⟨k, (a, .ref ⟨p.kind, s.heap.cells.size⟩) :: s.memo⟩ Q s')
    (complete : ∀ q, Q s'.memo q → Complete h0 s'.memo p q) : Grows h0 (fun _ => False) s s' where
  cells := by
    have := filling.grows.cells
    simp only at this
    omega
  kept i below _ := by
    rw [filling.grows.kept i (by simp only; omega) below.ne, kept i below]
  memo := by
    obtain ⟨more, extended, each⟩ := filling.grows.memo
    refine ⟨more ++ [(a, .ref ⟨p.kind, s.heap.cells.size⟩)], by simpa using extended, ?_⟩
    intro e mem
    rcases mem_append.mp mem with later | here
    · obtain ⟨q, i, q', source, same, above, found, copied⟩ := each e later
      exact ⟨q, i, q', source, same, by simp only at above; omega, found, copied⟩
    · obtain rfl := mem_singleton.mp here
      obtain ⟨q, found, holds⟩ := filling.filled
      exact ⟨p, _, q, source, rfl, le_rfl, found, complete q holds⟩

end Copying.Filling

/-- The copies of the first of the items are in the array. -/
def Payload.HasItems (h0 : Heap) (done : List Value) (memo : CopyMemo) (p : Payload) : Prop :=
  ∃ copies, p = .array copies ∧ done.Forall₂ (memo.Sends h0) copies

/-- The copies of the first of the entries are in the mapping, in their order if the keys of all of
them are distinct. -/
def Payload.HasEntries (h0 : Heap) (entries done : List Entry) (memo : CopyMemo) (p : Payload) :
    Prop :=
  (∀ e ∈ done, (∃ c, memo.Sends h0 e.key c) ∧ ∃ c, memo.Sends h0 e.value c) ∧
  ∃ copies, p = .mapping copies ∧ (h0.Distinct entries →
    done.Forall₂ (fun e c => memo.Sends h0 e.key c.key ∧ memo.Sends h0 e.value c.value) copies)

namespace Payload

variable {h0 : Heap} {memo memo' : CopyMemo} {p : Payload}

theorem HasItems.mono (more : memo ⊆ memo') (has : HasItems h0 done memo p) :
    HasItems h0 done memo' p := by
  obtain ⟨copies, rfl, each⟩ := has
  exact ⟨copies, rfl, each.imp fun _ _ sends => sends.mono more⟩

theorem HasEntries.mono (more : memo ⊆ memo')
    (has : HasEntries h0 entries done memo p) : HasEntries h0 entries done memo' p := by
  obtain ⟨all, copies, rfl, each⟩ := has
  refine ⟨fun e mem => ?_, copies, rfl, fun distinct => (each distinct).imp ?_⟩
  · obtain ⟨⟨c, key⟩, d, value⟩ := all e mem
    exact ⟨⟨c, key.mono more⟩, d, value.mono more⟩
  · exact fun e c both => ⟨both.1.mono more, both.2.mono more⟩

theorem HasItems.complete (has : HasItems h0 items memo p) :
    Copying.Complete h0 memo (.array items) p := by
  obtain ⟨copies, rfl, each⟩ := has
  refine ⟨.array each, fun v held => ?_⟩
  cases held with
  | item mem =>
    obtain ⟨i, within, rfl⟩ := mem_iff_getElem.mp mem
    exact ⟨_, each.get within (each.length_eq ▸ within)⟩

theorem HasEntries.complete (has : HasEntries h0 entries entries memo p) :
    Copying.Complete h0 memo (.mapping entries) p := by
  obtain ⟨all, copies, rfl, each⟩ := has
  refine ⟨.mapping each, fun v held => ?_⟩
  cases held with
  | key mem => exact (all _ mem).1
  | value mem => exact (all _ mem).2

end Payload

/-! ### Copying -/

namespace CopyM

open Copying

variable {h0 : Heap} {t : ListId} {values : List Value} {s : Copying} {id fuel : Nat} {v : Value}

/-- Copying came upon a payload that has been freed. -/
structure Stale (h0 : Heap) (t : ListId) (values : List Value) (f : Fault) (s : Copying) : Prop where
  underway : Underway h0 t values s
  fault : f = .freedValue
  freed : ∃ id, h0.Drawn values id ∧ h0.live id = false

/-- From `s` a value has been copied. -/
structure Duplicated (h0 : Heap) (t : ListId) (values : List Value) (v : Value) (s : Copying)
    (c : Value) (s' : Copying) : Prop where
  underway : Underway h0 t values s'
  grows : Grows h0 (fun _ => False) s s'
  sends : s'.memo.Sends h0 v c

theorem begin_apply (t : ListId) (p : Payload) (s : Copying) : ∃ events,
    begin t p s = .ok (.ref ⟨p.kind, s.heap.cells.size⟩)
      { s with heap := (place { s.heap with events } t p.begun).2 } := by
  cases p with
  | string | array | mapping | function => exact ⟨s.heap.events, rfl⟩
  | buffer b =>
    have recorded : ∃ events, s.heap.record .copied b = { s.heap with events } := by
      unfold record
      split
      · exact ⟨s.heap.events, rfl⟩
      · exact ⟨_, rfl⟩
    obtain ⟨events, same⟩ := recorded
    refine ⟨events, ?_⟩
    rw [← same]
    have cells : s.heap.cells.size = (s.heap.record .copied b).cells.size := by simp
    rw [cells]
    rfl

theorem arrayPush_apply (writable : s.heap.constant id = false)
    (found : s.heap.payload? id = some (.array copies)) (c : Value) :
    onHeap (HeapM.arrayPush (.ref ⟨.array, id⟩) c) s =
      .ok () { s with heap := s.heap.write id (.array (copies ++ [c])) } := by
  unfold onHeap HeapM.arrayPush
  simp [HeapM.updateArray_apply, writable, items?, found]

theorem mappingInsert_apply (writable : s.heap.constant id = false)
    (found : s.heap.payload? id = some (.mapping copies)) (key value : Value) :
    onHeap (HeapM.mappingInsert (.ref ⟨.mapping, id⟩) key value) s = .ok () { s with
        heap := (s.heap.note key).write id (.mapping (s.heap.put key value copies)) } := by
  unfold onHeap
  simp [HeapM.mappingInsert_apply, writable, entries?, found]

section Filling

variable (below : id < s.heap.cells.size) (above : h0.cells.size ≤ id)
  (enough : h0.cells.size < fuel + s.memo.length)
  (ih : ∀ v s, Underway h0 t values s → h0.Met values v → h0.cells.size < fuel + s.memo.length →
    Ends (Duplicated h0 t values v s) (Stale h0 t values) (copy t fuel v s))

include below enough ih in
theorem copy_filling (filling : Filling h0 t values id s Q s') (met : h0.Met values v)
    (mono : ∀ {memo memo' : CopyMemo} {p : Payload}, memo ⊆ memo' → Q memo p → Q memo' p) :
    Ends (fun c s'' => Filling h0 t values id s Q s'' ∧ s'.memo ⊆ s''.memo ∧ s''.memo.Sends h0 v c)
      (Stale h0 t values) (copy t fuel v s') := by
  obtain ⟨more, extended, -⟩ := filling.grows.memo
  have length := congrArg List.length extended
  rw [List.length_append] at length
  refine (ih v s' filling.underway met (by omega)).mono ?_
  rintro c s'' ⟨underway, grows, sends⟩
  obtain ⟨p, found, holds⟩ := filling.filled
  refine ⟨⟨underway, filling.grows.trans (grows.mono fun _ => False.elim)
    (by rintro _ rfl; exact below), p, ?_, mono grows.subset holds⟩, grows.subset, sends⟩
  rw [grows.kept id (below.trans_le filling.grows.cells) not_false, found]

include below above enough ih in
theorem fill_array (met : ∀ v ∈ items, h0.Met values v) (underway : Underway h0 t values s)
    (found : s.heap.payload? id = some (.array [])) :
    Ends (fun _ s' => Filling h0 t values id s (Payload.HasItems h0 items) s') (Stale h0 t values)
      ((items.forM fun item => do
        let item ← copy t fuel item
        onHeap (HeapM.arrayPush (.ref ⟨.array, id⟩) item)) s) := by
  apply ends_forM (I := fun done s' => Filling h0 t values id s (Payload.HasItems h0 done) s')
  · intro before item after s' split filling
    refine (copy_filling below enough ih filling (met item (by simp [split])) .mono).bind ?_
    rintro c s'' ⟨filling, -, sends⟩
    obtain ⟨_, found, copies, rfl, each⟩ := filling.filled
    have below' := below.trans_le filling.grows.cells
    rw [arrayPush_apply (filling.underway.writable above below') found]
    refine filling.write above below found ?_ (fun upToDate => ?_) ⟨_, rfl, ?_⟩
    · rintro p ⟨⟩
      constructor
    · exact (filling.underway.filing upToDate).write found rfl rfl (by simp)
    · exact rel_append each (.cons sends .nil)
  · exact ⟨underway, .refl s, _, found, [], rfl, .nil⟩

include below above enough ih in
theorem fill_mapping (met : ∀ e ∈ entries, h0.Met values e.key ∧ h0.Met values e.value)
    (underway : Underway h0 t values s) (found : s.heap.payload? id = some (.mapping [])) :
    Ends (fun _ s' => Filling h0 t values id s (Payload.HasEntries h0 entries entries) s')
      (Stale h0 t values)
      ((entries.forM fun e => do
        let key ← copy t fuel e.key
        let value ← copy t fuel e.value
        onHeap (HeapM.mappingInsert (.ref ⟨.mapping, id⟩) key value)) s) := by
  apply ends_forM
    (I := fun done s' => Filling h0 t values id s (Payload.HasEntries h0 entries done) s')
  · intro before e after s' split filling
    obtain ⟨metKey, metValue⟩ := met e (by simp [split])
    refine (copy_filling below enough ih filling metKey .mono).bind ?_
    rintro key s'' ⟨filling, -, sendsKey⟩
    refine (copy_filling below enough ih filling metValue .mono).bind ?_
    rintro value s''' ⟨filling, more, sendsValue⟩
    have sendsKey := sendsKey.mono more
    obtain ⟨_, found, all, copies, rfl, each⟩ := filling.filled
    have below' := below.trans_le filling.grows.cells
    rw [mappingInsert_apply (filling.underway.writable above below') found]
    refine (filling.note below sendsKey).write above below
      ((payload?_note _ _ _).trans found) ?_ (fun upToDate => ?_) ⟨?_, _, rfl, fun distinct => ?_⟩
    · rintro p ⟨⟩
      constructor
    · have filing := filling.underway.filing upToDate
      refine (filing.note key).write ((payload?_note _ _ _).trans found) rfl rfl ?_
      rintro _ ⟨⟩
      have settled := filing.settled id copies above found
      exact (settled.put (filling.underway.sent_within sendsKey) value).note key
    · intro e' mem
      rcases mem_append.mp mem with old | new
      · exact all e' old
      · obtain rfl := mem_singleton.mp new
        exact ⟨⟨key, sendsKey⟩, value, sendsValue⟩
    · -- The key equals none of those before it, and neither do their copies.
      have unequal : ∀ c ∈ copies, s'''.heap.equals key c.key = false := by
        intro c mem
        obtain ⟨i, within, rfl⟩ := mem_iff_getElem.mp mem
        have within' : i < before.length := (each distinct).length_eq ▸ within
        have sends := ((each distinct).get within' within).1
        have isEntry : before[i] ∈ entries := by simp [split]
        have ne := distinct.unequal
        rw [split, pairwise_append] at ne
        simp only [get_eq_getElem] at sends
        rw [filling.underway.equals_eq sends sendsKey (distinct.plain _ isEntry)
          (distinct.plain e (by simp [split]))]
        exact ne.2.2 _ (getElem_mem within') e (by simp)
      rw [put_of_unequal unequal]
      exact rel_append (each distinct) (.cons ⟨sendsKey, sendsValue⟩ .nil)
  · exact ⟨underway, .refl s, _, found, by simp, [], rfl, fun _ => .nil⟩

include ih in
theorem copy_entered (underway : Underway h0 t values s)
    (enough : h0.cells.size < fuel + (s.memo.length + 1)) (drawn : h0.Drawn values r.id)
    (source : h0.payload? r.id = some p) (kind : p.kind = r.kind)
    (unknown : r.id ∉ s.memo.map Prod.fst) :
    Ends (Duplicated h0 t values (.ref r) s) (Stale h0 t values) ((do
        let c ← begin t p
        remember r.id c
        match p with
        | .array items => items.forM fun item => do
          let item ← copy t fuel item
          onHeap (HeapM.arrayPush c item)
        | .mapping entries => entries.forM fun e => do
          let key ← copy t fuel e.key
          let value ← copy t fuel e.value
          onHeap (HeapM.mappingInsert c key value)
        | _ => pure ()
        return c) s) := by
  obtain ⟨events, begins⟩ := begin_apply t p s
  have extended := extended_place { s.heap with events } t p.begun
  have started := (underway.ofEvents events).place source drawn unknown
  have found : (place { s.heap with events } t p.begun).2.payload? s.heap.cells.size =
      some p.begun := by
    rw [payload?_eq]
    exact congrArg (·.bind Aspect.payload) extended.aspect?_new
  have below : s.heap.cells.size < (place { s.heap with events } t p.begun).2.cells.size := by
    rw [extended.cells]
    exact Nat.lt_succ_self _
  have met : ∀ v, p.Holds v → h0.Met values v :=
    fun v held => .inr ⟨r.id, drawn, p, source, held⟩
  have copied : ∀ {Q s'}, Filling h0 t values s.heap.cells.size
      ⟨(place { s.heap with events } t p.begun).2,
        (r.id, .ref ⟨p.kind, s.heap.cells.size⟩) :: s.memo⟩ Q s' →
      (∀ q, Q s'.memo q → Complete h0 s'.memo p q) →
      Duplicated h0 t values (.ref r) s (.ref ⟨p.kind, s.heap.cells.size⟩) s' := by
    intro Q s' filling complete
    refine ⟨filling.underway, filling.close extended.cells ?_ source complete, ?_⟩
    · intro i below
      exact payload?_congr (getElem?_place_of_ne (h := { s.heap with events }) below.ne _ _)
    · have remembered := filling.grows.subset (mem_cons_self ..)
      rw [kind] at remembered ⊢
      exact .copied drawn.ownable remembered
  rw [bind_apply, begins]
  dsimp only
  rw [remember, modify_bind_apply]
  cases p with
  | array items =>
    refine (fill_array below underway.cells enough ih (fun v mem => met v (.item mem)) started
      found).bind fun _ s' filling => ?_
    exact copied filling fun _ => Payload.HasItems.complete
  | mapping entries =>
    refine (fill_mapping below underway.cells enough ih
      (fun e mem => ⟨met _ (.key mem), met _ (.value mem)⟩) started found).bind
      fun _ s' filling => ?_
    exact copied filling fun _ => Payload.HasEntries.complete
  | string text =>
    refine copied (Q := fun _ q => q = .string text) ⟨started, .refl _, _, found, rfl⟩ ?_
    rintro _ rfl
    exact ⟨.string text, by rintro _ ⟨⟩⟩
  | buffer b =>
    refine copied (Q := fun _ q => q = .buffer b.duplicate) ⟨started, .refl _, _, found, rfl⟩ ?_
    rintro _ rfl
    exact ⟨.buffer b, by rintro _ ⟨⟩⟩
  | function object name =>
    refine copied (Q := fun _ q => q = .function object name) ⟨started, .refl _, _, found, rfl⟩ ?_
    rintro _ rfl
    exact ⟨.function object name, by rintro _ ⟨⟩⟩

end Filling

theorem copy_ends (refers : ∀ v, h0.Met values v → h0.Refers v) (fuel : Nat) (v : Value)
    (s : Copying) (underway : Underway h0 t values s) (met : h0.Met values v)
    (enough : h0.cells.size < fuel + s.memo.length) :
    Ends (Duplicated h0 t values v s) (Stale h0 t values) (copy t fuel v s) := by
  induction fuel generalizing v s with
  | zero =>
    have := underway.length_memo_le
    omega
  | succ fuel ih =>
    unfold copy
    split
    case h_2 scalar =>
      refine ⟨underway, .refl s, .scalar ?_⟩
      cases v with
      | ref r => exact absurd rfl (scalar r)
      | nil | integer _ | real _ | object _ => rfl
    rename_i r
    obtain ⟨within, kind⟩ := refers _ met r rfl
    rw [get_bind_apply, underway.preserved.unowned within, underway.payload?_eq within]
    split
    · rename_i exempt
      exact ⟨underway, .refl s, .kept exempt⟩
    rename_i ownable
    rw [Bool.not_eq_true] at ownable
    cases known : s.memo.lookup r.id with
    | some done =>
      obtain ⟨before, after, split, -⟩ := lookup_eq_some_iff.mp known
      have remembered : (r.id, done) ∈ s.memo := by simp [split]
      obtain ⟨p, i, -, source, same, -⟩ := underway.shown _ remembered
      simp only at source same
      rw [kind p source] at same
      subst same
      exact ⟨underway, .refl s, .copied ownable remembered⟩
    | none =>
      cases source : h0.payload? r.id with
      | none =>
        exact ⟨underway, rfl, r.id, met.drawn ownable, by rw [live, source]; rfl⟩
      | some p =>
        refine copy_entered ih underway (by omega) (met.drawn ownable) source (kind p source) ?_
        intro mem
        obtain ⟨e, remembered, same⟩ := mem_map.mp mem
        exact absurd (lookup_eq_none_iff.mp known e remembered) (by simp [same])

theorem mapM_ends (refers : ∀ v, h0.Met values v → h0.Refers v) (sane : h0.Consistent)
    (valid : t.number < h0.lists.size) :
    Ends (fun copies s => Underway h0 t values s ∧
        Grows h0 (fun _ => False) { heap := h0 } s ∧ values.Forall₂ (s.memo.Sends h0) copies)
      (Stale h0 t values) (values.mapM (copyValue t) { heap := h0 }) := by
  apply ends_mapM (I := fun before copies s => Underway h0 t values s ∧
    Grows h0 (fun _ => False) { heap := h0 } s ∧ before.Forall₂ (s.memo.Sends h0) copies)
  · rintro before v after copies s split ⟨underway, grows, each⟩
    have enough : h0.cells.size < s.heap.cells.size + 1 + s.memo.length := by
      have := underway.cells
      omega
    refine (copy_ends refers _ v s underway (.inl (by simp [split])) enough).mono ?_
    rintro c s' ⟨underway, grows', sends⟩
    refine ⟨underway, grows.trans grows' fun _ => False.elim, ?_⟩
    exact rel_append (each.imp fun _ _ sends => sends.mono grows'.subset) (.cons sends .nil)
  · exact ⟨.start sane valid, .refl _, .nil⟩

end CopyM

/-! ### The map of payloads -/

/-- What a value is copied to when payloads are sent to their copies by `f`. -/
def Heap.translate (h : Heap) (f : Nat → Nat) : Value → Value
  | .ref r => if h.unowned r.id then .ref r else .ref ⟨r.kind, f r.id⟩
  | v => v

/-- The payloads that the values lead to have been copied from `h` to `h'` by `f`. -/
structure Heap.Duplicates (h : Heap) (target : ListId) (values : List Value) (f : Nat → Nat)
    (copies : List Value) (h' : Heap) : Prop where
  injective : ∀ a b, h.Drawn values a → h.Drawn values b → f a = f b → a = b
  onto : ∀ id, (∃ a, h.Drawn values a ∧ f a = id) ↔ h.cells.size ≤ id ∧ id < h'.cells.size
  members : ∀ id, id ∈ h'.members target ↔
    id ∈ h.members target ∨ ∃ a, h.Drawn values a ∧ f a = id
  contents : ∀ a, h.Drawn values a → ∃ p p', h.payload? a = some p ∧
    h'.payload? (f a) = some p' ∧ p.Copied h (fun v c => h.translate f v = c) p'
  results : copies = values.map (h.translate f)

def CopyMemo.target (memo : CopyMemo) (a : Nat) : Nat :=
  match memo.lookup a with
  | some (.ref r) => r.id
  | _ => 0

namespace Copying.Underway

variable {h0 : Heap} {t : ListId} {values copies : List Value} {s : Copying} {v c : Value}

theorem target_eq (underway : Underway h0 t values s) {a id : Nat} {k : Kind}
    (remembered : (a, .ref ⟨k, id⟩) ∈ s.memo) : s.memo.target a = id := by
  obtain ⟨before, after, split⟩ := append_of_mem remembered
  have found : s.memo.lookup a = some (.ref ⟨k, id⟩) := by
    refine lookup_eq_some_iff.mpr ⟨before, after, split, fun e mem => ?_⟩
    have once := underway.once
    rw [split, map_append, nodup_append] at once
    have apart := once.2.2 e.1 (mem_map_of_mem mem) a (by simp)
    simpa using Ne.symm apart
  rw [CopyMemo.target, found]

theorem translate_eq (underway : Underway h0 t values s) (sends : s.memo.Sends h0 v c) :
    h0.translate s.memo.target v = c := by
  cases sends with
  | scalar scalar =>
    cases v with
    | ref r => simp [ref?] at scalar
    | nil | integer _ | real _ | object _ => rfl
  | kept exempt => simp [Heap.translate, exempt]
  | copied ownable remembered =>
    simp [Heap.translate, ownable, underway.target_eq remembered]

theorem remembered (grows : Grows h0 (fun _ => False) { heap := h0 } s)
    (each : values.Forall₂ (s.memo.Sends h0) copies) {a : Nat} (drawn : h0.Drawn values a) :
    ∃ c, (a, c) ∈ s.memo := by
  have sent : ∀ {r : Ref} {c : Value}, h0.unowned r.id = false → s.memo.Sends h0 (.ref r) c →
      (r.id, c) ∈ s.memo := by
    intro r c ownable sends
    cases sends with
    | scalar scalar => simp [ref?] at scalar
    | kept exempt => simp [ownable] at exempt
    | copied _ remembered => exact remembered
  induction drawn with
  | source given ownable =>
    obtain ⟨i, within, same⟩ := mem_iff_getElem.mp given
    have sends := each.get within (each.length_eq ▸ within)
    rw [get_eq_getElem, same] at sends
    exact ⟨_, sent ownable sends⟩
  | within _ held ownable ih =>
    obtain ⟨c, remembered⟩ := ih
    obtain ⟨p, -, -, source, -, -, -, -, all⟩ := grows.complete _ remembered
    obtain ⟨q, source', held⟩ := held
    rw [source] at source'
    cases source'
    obtain ⟨c', sends⟩ := all _ held
    exact ⟨c', sent ownable sends⟩

theorem duplicates (underway : Underway h0 t values s)
    (grows : Grows h0 (fun _ => False) { heap := h0 } s) (sane : h0.Consistent)
    (each : values.Forall₂ (s.memo.Sends h0) copies) :
    h0.Duplicates t values s.memo.target copies s.heap := by
  have sent : ∀ a, h0.Drawn values a →
      ∃ k, (a, .ref ⟨k, s.memo.target a⟩) ∈ s.memo := by
    intro a drawn
    obtain ⟨c, remembered⟩ := Underway.remembered grows each drawn
    obtain ⟨p, id, -, -, same, -⟩ := underway.shown _ remembered
    simp only at same
    subst same
    rw [underway.target_eq remembered]
    exact ⟨_, remembered⟩
  have onto : ∀ id, (∃ a, h0.Drawn values a ∧ s.memo.target a = id) ↔
      h0.cells.size ≤ id ∧ id < s.heap.cells.size := by
    intro id
    constructor
    · rintro ⟨a, drawn, rfl⟩
      obtain ⟨k, remembered⟩ := sent a drawn
      exact ⟨(underway.copy_of remembered).1, underway.within remembered⟩
    · rintro ⟨above, below⟩
      obtain ⟨a, k, remembered⟩ := underway.onto id above below
      exact ⟨a, underway.drawn _ remembered, underway.target_eq remembered⟩
  refine ⟨?_, onto, ?_, ?_, ?_⟩
  · intro a b drawnA drawnB same
    obtain ⟨k, rememberedA⟩ := sent a drawnA
    obtain ⟨k', rememberedB⟩ := sent b drawnB
    rw [same] at rememberedA
    exact underway.apart rememberedA rememberedB
  · intro id
    rw [underway.consistent.mem_members_iff_owner, sane.mem_members_iff_owner, onto]
    by_cases old : id < h0.cells.size
    · rw [underway.preserved.owner? old]
      constructor
      · exact .inl
      · rintro (owned | ⟨above, -⟩)
        · exact owned
        · omega
    · constructor
      · intro owned
        exact .inr ⟨by omega, within_of_owner? owned⟩
      · rintro (owned | ⟨above, below⟩)
        · exact absurd (within_of_owner? owned) old
        · exact underway.owned id above below
  · intro a drawn
    obtain ⟨k, remembered⟩ := sent a drawn
    obtain ⟨p, id, p', source, same, -, found, copied, -⟩ := grows.complete _ remembered
    simp only [ref.injEq, Ref.mk.injEq] at same
    rw [← same.2] at found
    exact ⟨p, p', source, found, copied.mono fun _ _ => underway.translate_eq⟩
  · have all : values.Forall₂ (fun v c => h0.translate s.memo.target v = c) copies :=
      each.imp fun _ _ => underway.translate_eq
    rw [← forall₂_map_left_iff, forall₂_eq_eq_eq] at all
    exact all.symm

end Copying.Underway

variable {h : Heap} {target : ListId} {values : List Value}

/-- Copying succeeds just when no payload that the values lead to has been freed. Then these payloads
are sent one to one onto the new ones, which are the ones that the target has gained. Whether it
succeeds or not, the sources and all other lists stay as they are. -/
theorem Heap.copies_isomorphic (consistent : h.Consistent) (valid : target.number < h.lists.size)
    (refers : ∀ v, h.Met values v → h.Refers v) :
    ((∃ copies h', copyAll target values h = .ok copies h') ↔
      ∀ id, h.Drawn values id → h.live id = true) ∧
    (∀ copies h', copyAll target values h = .ok copies h' →
      ∃ f, h.Duplicates target values f copies h') ∧
    h.Preserved (left (copyAll target values h)) ∧
    ∀ l, l ≠ target → (left (copyAll target values h)).list l = h.list l := by
  have ends := CopyM.mapM_ends refers consistent valid
  unfold copyAll
  revert ends
  cases values.mapM (CopyM.copyValue target) { heap := h } with
  | error f s =>
    rintro ⟨underway, -, id, drawn, freed⟩
    refine ⟨⟨fun ⟨_, _, failed⟩ => by simp at failed, fun live => ?_⟩, by simp,
      underway.preserved, underway.lists⟩
    rw [live id drawn] at freed
    exact absurd freed (by simp)
  | ok copies s =>
    rintro ⟨underway, grows, each⟩
    refine ⟨⟨fun _ id drawn => ?_, fun _ => ⟨copies, s.heap, rfl⟩⟩, ?_, underway.preserved,
      underway.lists⟩
    · obtain ⟨c, remembered⟩ := Copying.Underway.remembered grows each drawn
      obtain ⟨p, -, -, source, -⟩ := underway.shown _ remembered
      rw [live, source]
      rfl
    · intro copies' h' same
      cases same
      exact ⟨_, underway.duplicates grows consistent each⟩

namespace Heap

instance (h : Heap) (v : Value) : Decidable (h.Refers v) :=
  decidable_of_iff (v.ref?.all fun r => decide (r.id < h.cells.size) &&
      (h.payload? r.id).all fun p => decide (p.kind = r.kind)) <| by
    cases v with
    | nil | integer _ | real _ | object _ => simp [ref?, Refers]
    | ref r => cases found : h.payload? r.id <;> simp [ref?, Refers, found]

theorem Drawn.within_cells {id : Nat} (drawn : h.Drawn values id)
    (refers : ∀ v, h.Met values v → h.Refers v) : id < h.cells.size := by
  cases drawn with
  | source given _ => exact (refers _ (.inl given) _ rfl).1
  | within drawn held _ => exact (refers _ (.inr ⟨_, drawn, held⟩) _ rfl).1

def paired : Heap := ({} : Heap).newList.2.newList.2

/-- An array and a mapping that hold each other and themselves. One key of the mapping is a constant
string and the other a buffer. -/
def knot : Heap :=
  let h := (paired.place ⟨0⟩ (.array [])).2
  let h := (h.place ⟨0⟩ (.mapping [])).2
  let h := (h.place ⟨0⟩ (.buffer ⟨[1], none⟩)).2
  let h := (h.create (.string "key") true false).2
  let h := h.write 0
    (.array [.ref ⟨.array, 0⟩, .ref ⟨.mapping, 1⟩, .ref ⟨.mapping, 1⟩, .integer 5])
  h.write 1 (.mapping [⟨.ref ⟨.string, 3⟩, .ref ⟨.array, 0⟩, h.digest (.ref ⟨.string, 3⟩)⟩,
    ⟨.ref ⟨.buffer, 2⟩, .ref ⟨.mapping, 1⟩, h.digest (.ref ⟨.buffer, 2⟩)⟩])

theorem consistent_knot : knot.Consistent := by
  have empty : paired.Consistent := consistent_empty.newList.newList
  have placed := ((empty.place (l := ⟨0⟩) (by decide) (.array [])).place (l := ⟨0⟩) (by decide)
    (.mapping [])).place (l := ⟨0⟩) (by decide) (.buffer ⟨[1], none⟩)
  exact ((placed.create (.string "key") true false).write 0 _).write 1 _

theorem copies_isomorphic_knot :
    ∃ copies h' f, copyAll ⟨1⟩ [.ref ⟨.array, 0⟩, .ref ⟨.mapping, 1⟩] knot = .ok copies h' ∧
      knot.Duplicates ⟨1⟩ [.ref ⟨.array, 0⟩, .ref ⟨.mapping, 1⟩] f copies h' := by
  have held : ∀ id < 4, ∀ v ∈ Marking.childrenOf knot id, knot.Refers v := by decide +kernel
  have given : ∀ v ∈ [ref ⟨.array, 0⟩, .ref ⟨.mapping, 1⟩], knot.Refers v := by
    decide +kernel
  have live : ∀ id < 4, knot.live id = true := by decide +kernel
  have refers : ∀ v, knot.Met [.ref ⟨.array, 0⟩, .ref ⟨.mapping, 1⟩] v → knot.Refers v := by
    rintro v (member | ⟨id, -, isHeld⟩)
    · exact given v member
    · exact held id (within_of_holds isHeld) v (mem_childrenOf.mpr isHeld)
  have valid : (⟨1⟩ : ListId).number < knot.lists.size := by decide +kernel
  have isomorphic := copies_isomorphic consistent_knot valid refers
  obtain ⟨copies, h', copied⟩ :=
    isomorphic.1.mpr fun id drawn => live id (drawn.within_cells refers)
  obtain ⟨f, duplicates⟩ := isomorphic.2.1 copies h' copied
  exact ⟨copies, h', f, copied, duplicates⟩

/-- A mapping with two buffers as keys, of which the first has since come to equal the second. -/
def worn : HeapM Value := do
  let first ← HeapM.place ⟨0⟩ (.buffer ⟨[1], none⟩)
  let second ← HeapM.place ⟨0⟩ (.buffer ⟨[2], none⟩)
  let mapping ← HeapM.place ⟨0⟩ (.mapping [])
  HeapM.mappingInsert mapping first (.integer 1)
  HeapM.mappingInsert mapping second (.integer 2)
  Operator.indexSet first (.integer 0) (.integer 2)
  return mapping

/-- An array that holds a string that has been freed. -/
def hollow : HeapM Value := do
  let text ← HeapM.place ⟨0⟩ (.string "text")
  let array ← HeapM.place ⟨1⟩ (.array [text])
  modify (·.freeAll ⟨0⟩)
  return array

theorem exists_of_kinds {results : List (Except Fault Value)}
    (kinds : results.map Except.isOk = [false, true]) : ∃ f c, results = [.error f, .ok c] := by
  rcases results with _ | ⟨_ | _, _ | ⟨_ | _, _ | _⟩⟩ <;> simp [Except.isOk, Except.toBool] at kinds
  exact ⟨_, _, rfl⟩

/-- Keys that have come to be equal are one key of the copy. And a value that could not be copied can
be copied when it is met again: what is remembered of it does not hold what could not be copied. -/
theorem copies_not_isomorphic :
    (∃ m h copies h', worn paired = .ok m h ∧ copyAll ⟨1⟩ [m] h = .ok copies h' ∧
      (h.entries? m).map length = some 2 ∧
      copies.map (fun c => (h'.entries? c).map length) = [some 1]) ∧
    ∃ x h f c h', hollow paired = .ok x h ∧ copyEach ⟨0⟩ [x, x] h = ([.error f, .ok c], h') ∧
      (h.items? x).map length = some 1 ∧ (h'.items? c).map length = some 0 := by
  have merged : (match worn paired with
      | .ok m h =>
        match copyAll ⟨1⟩ [m] h with
        | .ok copies h' => decide ((h.entries? m).map length = some 2 ∧
            copies.map (fun c => (h'.entries? c).map length) = [some 1])
        | .error _ _ => false
      | .error _ _ => false) = true := by decide +kernel
  have resumed : (match hollow paired with
      | .ok x h => decide ((h.items? x).map length = some 1 ∧
          (copyEach ⟨0⟩ [x, x] h).1.map Except.isOk = [false, true] ∧
          ((copyEach ⟨0⟩ [x, x] h).1.filterMap Except.toOption).map (fun c =>
            ((copyEach ⟨0⟩ [x, x] h).2.items? c).map length) = [some 0])
      | .error _ _ => false) = true := by decide +kernel
  constructor
  · split at merged
    · rename_i m h made
      split at merged
      · rename_i copies h' copied
        exact ⟨m, h, copies, h', made, copied, of_decide_eq_true merged⟩
      · simp at merged
    · simp at merged
  · split at resumed
    · rename_i x h made
      obtain ⟨one, kinds, empty⟩ := of_decide_eq_true resumed
      generalize copied : copyEach ⟨0⟩ [x, x] h = r at kinds empty
      obtain ⟨results, h'⟩ := r
      obtain ⟨f, c, rfl⟩ := exists_of_kinds kinds
      exact ⟨x, h, f, c, h', made, copied, one, (cons.inj empty).1⟩
    · simp at resumed

end Heap

end Tenancy
