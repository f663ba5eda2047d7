import Tenancy.Proofs.Heap.Lawful

/-!
Actions on two heaps that go together.

A kinship says which heaps go together and which values may be used on them, such that the few
operations that change a heap leave them together. Then an action of an operator or a container does
the same on both heaps: the results are equal and may be used again, or the faults are equal.
-/

namespace Tenancy

open Tenancy.Action Coupling List Heap

/-- Heaps that agree outside of `G`, and the values that may be used on them by code that puts new
payloads into the list `l`. -/
structure Kinship (G : Nat → Prop) (l : ListId) extends Coupling Heap where
  Fits : Heap → Value → Prop
  agree : ∀ {h1 h2 : Heap}, Related h1 h2 → h1.Agree G h2
  /-- What agrees holds only what agrees. -/
  closed : ∀ {h1 h2 : Heap} {id : Nat} {v : Value}, Related h1 h2 → ¬ G id → h1.Holds id v → v.Avoids G
  avoids : ∀ {h : Heap} {v : Value}, Fits h v → v.Avoids G
  scalar : ∀ {h : Heap} {v : Value}, v.ref? = none → Fits h v
  keep : ∀ {h h' : Heap} {v : Value}, Leads h h' → Fits h v → Fits h' v
  place : ∀ {h1 h2 : Heap} {payload : Payload}, Related h1 h2 → l.number < h1.lists.size →
    (∀ v, payload.Holds v → Fits h1 v) →
    Related (h1.place l payload).2 (h2.place l payload).2 ∧ Leads h1 (h1.place l payload).2 ∧
      Fits (h1.place l payload).2 (h1.place l payload).1
  write : ∀ {h1 h2 : Heap} {r : Ref} (payload : Payload), Related h1 h2 → Fits h1 (.ref r) →
    (∀ v, payload.Holds v → h1.Holds r.id v ∨ h1.constant r.id = false ∧ Fits h1 v) →
    Related (h1.write r.id payload) (h2.write r.id payload) ∧ Leads h1 (h1.write r.id payload)
  note : ∀ {h1 h2 : Heap} {v : Value}, Related h1 h2 → v.Avoids G →
    Related (h1.note v) (h2.note v) ∧ Leads h1 (h1.note v)
  forgetDigest : ∀ {h1 h2 : Heap} {r : Ref}, Related h1 h2 → Fits h1 (.ref r) →
    Related (h1.forgetDigest r.id) (h2.forgetDigest r.id) ∧ Leads h1 (h1.forgetDigest r.id)

variable {G : Nat → Prop} {l : ListId} {h h1 h2 : Heap} {v container key value : Value}

/-! ### What containers hold -/

namespace Heap

variable {entries : List Entry}

theorem holds_of_items? (found : h.items? container = some items)
    (mem : v ∈ items) : ∃ r, container = .ref r ∧ h.Holds r.id v := by
  unfold items? at found
  split at found
  · split at found
    · rename_i live
      cases found
      exact ⟨_, rfl, _, live, .item mem⟩
    · simp at found
  · simp at found

theorem holds_of_entries? (found : h.entries? container = some entries)
    (mem : e ∈ entries) : ∃ r, container = .ref r ∧ h.Holds r.id e.key ∧ h.Holds r.id e.value := by
  unfold entries? at found
  split at found
  · split at found
    · rename_i live
      cases found
      exact ⟨_, rfl, ⟨_, live, .key mem⟩, ⟨_, live, .value mem⟩⟩
    · simp at found
  · simp at found

end Heap

namespace Operator

variable {a b : Value}

theorem joinText?_eq (agree : h1.Agree G h2) (avoids : v.Avoids G) :
    joinText? h2 v = joinText? h1 v := by
  unfold joinText?
  split
  · rfl
  · rfl
  · exact agree.text?_eq avoids

/-! Numbers and truth values are no payloads. -/

theorem ref?_ofBool (b : Bool) : (Value.ofBool b).ref? = none := by cases b <;> rfl

theorem ref?_mul (computed : mul a b = .ok v) : v.ref? = none := by
  unfold mul at computed
  split at computed
  · cases computed
    rfl
  · split at computed <;> cases computed
    rfl

theorem ref?_div (computed : div a b = .ok v) : v.ref? = none := by
  unfold div at computed
  split at computed
  · split at computed <;> cases computed
    rfl
  · split at computed
    · split at computed <;> cases computed
      rfl
    · cases computed

theorem ref?_rem (computed : rem a b = .ok v) : v.ref? = none := by
  unfold rem at computed
  split at computed
  · split at computed <;> cases computed
    rfl
  · cases computed

theorem ref?_neg (computed : neg a = .ok v) : v.ref? = none := by
  unfold neg at computed
  split at computed <;> cases computed <;> rfl

theorem ref?_compare (computed : compare h c a b = .ok v) : v.ref? = none := by
  unfold compare at computed
  split at computed
  · cases computed
    exact ref?_ofBool _
  · split at computed
    · cases computed
      exact ref?_ofBool _
    · split at computed
      · split at computed <;> cases computed
        exact ref?_ofBool _
      · cases computed

theorem ref?_shortcut (computed : shortcut flavour op a b = some v) : v.ref? = none := by
  unfold shortcut at computed
  split at computed
  all_goals first
    | (unfold integers at computed; split at computed)
    | (unfold reals at computed; split at computed)
    | (unfold testIntegers at computed; split at computed)
    | (unfold testReals at computed; split at computed)
    | skip
  all_goals first
    | (obtain ⟨n, -, rfl⟩ := Option.map_eq_some_iff.mp computed; rfl)
    | (cases computed; exact ref?_ofBool _)
    | cases computed

end Operator

namespace Kinship

/-- Values that may be used hold such values only. -/
def Deep (kin : Kinship G l) : Prop :=
  ∀ {h1 h2 : Heap} {r : Ref} {v : Value}, kin.Related h1 h2 → kin.Fits h1 (.ref r) →
    h1.Holds r.id v → kin.Fits h1 v

variable {kin : Kinship G l} {entries : List Entry} {a b : Value}

section

variable (deep : kin.Deep) (rel : kin.Related h1 h2) (fits : kin.Fits h1 container)
include deep rel fits

theorem Deep.item (found : h1.items? container = some items) (mem : v ∈ items) : kin.Fits h1 v := by
  obtain ⟨r, rfl, held⟩ := holds_of_items? found mem
  exact deep rel fits held

theorem Deep.entry (found : h1.entries? container = some entries) (mem : e ∈ entries) :
    kin.Fits h1 e.key ∧ kin.Fits h1 e.value := by
  obtain ⟨r, rfl, key, value⟩ := holds_of_entries? found mem
  exact ⟨deep rel fits key, deep rel fits value⟩

end

variable (kin)

/-! ### Containers -/

section

variable (rel : kin.Related h1 h2)
include rel

theorem place_couples (valid : l.number < h1.lists.size) (holds : ∀ v, payload.Holds v → kin.Fits h1 v) :
    kin.Couples h1 h2 (fun v h => kin.Fits h v) (HeapM.place l payload) (HeapM.place l payload) := by
  have same : (h2.place l payload).1 = (h1.place l payload).1 := by
    show Value.ref ⟨payload.kind, h2.cells.size⟩ = Value.ref ⟨payload.kind, h1.cells.size⟩
    rw [(kin.agree rel).cells]
  unfold Couples
  rw [HeapM.place_apply, HeapM.place_apply, same]
  obtain ⟨relatedToo, leads, fits⟩ := kin.place rel valid holds
  exact .ok relatedToo leads fits

theorem updateArray_couples (fits : kin.Fits h1 container)
    (gives : ∀ items items', f items = .ok items' → ∀ v ∈ items', v ∈ items ∨ kin.Fits h1 v) :
    kin.Couples h1 h2 (fun _ _ => True) (HeapM.updateArray container f)
      (HeapM.updateArray container f) := by
  have avoids := kin.avoids fits
  by_cases isArray : ∃ id, container = .ref ⟨.array, id⟩
  · obtain ⟨id, rfl⟩ := isArray
    unfold Couples
    rw [HeapM.updateArray_apply, HeapM.updateArray_apply, (kin.agree rel).constant_eq (avoids _ rfl),
      (kin.agree rel).items?_eq avoids]
    cases constant : h1.constant id with
    | true => exact couples_throw rel _
    | false =>
      cases found : h1.items? (.ref ⟨.array, id⟩) with
      | none => exact couples_throw rel _
      | some items =>
        dsimp only
        cases changed : f items with
        | error e => exact couples_throw rel e
        | ok items' =>
          obtain ⟨relatedToo, leads⟩ := kin.write (.array items') rel fits (by
            rintro v ⟨mem⟩
            rcases gives items items' changed v mem with before | new
            · obtain ⟨r, same, held⟩ := holds_of_items? found before
              cases same
              exact .inl held
            · exact .inr ⟨constant, new⟩)
          exact .ok relatedToo leads trivial
  · unfold HeapM.updateArray
    split
    · exact absurd ⟨_, rfl⟩ isArray
    · exact couples_throw rel _

theorem arrayPush_couples (fits : kin.Fits h1 container) (given : kin.Fits h1 value) :
    kin.Couples h1 h2 (fun _ _ => True) (HeapM.arrayPush container value)
      (HeapM.arrayPush container value) := by
  refine kin.updateArray_couples rel fits fun items items' pushed v mem => ?_
  cases pushed
  rcases mem_append.mp mem with before | new
  · exact .inl before
  · obtain rfl := mem_singleton.mp new
    exact .inr given

theorem mappingInsert_couples (fits : kin.Fits h1 container) (keyFits : kin.Fits h1 key)
    (valueFits : kin.Fits h1 value) :
    kin.Couples h1 h2 (fun _ _ => True) (HeapM.mappingInsert container key value)
      (HeapM.mappingInsert container key value) := by
  have avoids := kin.avoids fits
  by_cases isMapping : ∃ id, container = .ref ⟨.mapping, id⟩
  · obtain ⟨id, rfl⟩ := isMapping
    unfold Couples
    rw [HeapM.mappingInsert_apply, HeapM.mappingInsert_apply,
      (kin.agree rel).constant_eq (avoids _ rfl), (kin.agree rel).entries?_eq avoids]
    cases constant : h1.constant id with
    | true => exact couples_throw rel _
    | false =>
      cases found : h1.entries? (.ref ⟨.mapping, id⟩) with
      | none => exact couples_throw rel _
      | some entries =>
        dsimp only
        have keys : ∀ e ∈ entries, e.key.Avoids G := by
          intro e mem
          obtain ⟨_, ⟨⟩, held, -⟩ := holds_of_entries? found mem
          exact kin.closed rel (kin.avoids fits _ rfl) held
        rw [(kin.agree rel).put_eq (kin.avoids keyFits) keys]
        obtain ⟨noted, leads⟩ := kin.note rel (kin.avoids keyFits)
        have live : (h1.note key).payload? id = some (.mapping entries) := by
          rw [payload?_note]
          unfold entries? at found
          dsimp only at found
          split at found
          · cases found
            assumption
          · simp at found
        have writable : (h1.note key).constant id = false := by
          rw [← constant]
          exact constant_eq_of_mapped (aspect?_note h1 key) (fun i a => by split <;> rfl) id
        obtain ⟨written, leads'⟩ := kin.write (.mapping (h1.put key value entries)) noted
          (kin.keep leads fits) (by
            intro v held
            rcases holds_put held with before | rfl | rfl
            · exact .inl ⟨_, live, before⟩
            · exact .inr ⟨writable, kin.keep leads keyFits⟩
            · exact .inr ⟨writable, kin.keep leads valueFits⟩)
        exact .ok written (kin.trans leads leads') trivial
  · unfold HeapM.mappingInsert
    split
    · exact absurd ⟨_, rfl⟩ isMapping
    · exact couples_throw rel _

theorem lookup_couples (avoids : key.Avoids G)
    (fits : ∀ e ∈ entries, kin.Fits h1 e.key ∧ kin.Fits h1 e.value) :
    kin.Couples h1 h2 (fun found h => ∀ v, found = some v → kin.Fits h v)
      (HeapM.lookup entries key) (HeapM.lookup entries key) := by
  have known : ∀ v, h1.find? key entries = some v → kin.Fits h1 v := by
    intro v found
    unfold Heap.find? at found
    obtain ⟨e, chosen, rfl⟩ := Option.map_eq_some_iff.mp found
    refine (fits e ?_).2
    split at chosen
    · exact mem_of_find?_eq_some chosen
    · exact mem_of_find?_eq_some chosen
  unfold Couples
  rw [HeapM.lookup_apply, HeapM.lookup_apply,
    (kin.agree rel).find?_eq avoids fun e mem => kin.avoids (fits e mem).1]
  split
  · obtain ⟨noted, leads⟩ := kin.note rel avoids
    exact .ok noted leads fun v found => kin.keep leads (known v found)
  · exact .ok rel (kin.refl h1) known

end

/-! ### Operators -/

theorem merge_couples (rel : kin.Related h1 h2) (valid : l.number < h1.lists.size)
    {entries : List (Value × Value)} (fits : ∀ e ∈ entries, kin.Fits h1 e.1 ∧ kin.Fits h1 e.2) :
    kin.Couples h1 h2 (fun v h => kin.Fits h v) (Operator.merge l entries)
      (Operator.merge l entries) := by
  have nothing : ∀ v, (Payload.mapping []).Holds v → kin.Fits h1 v := by
    intro v held
    cases held with
    | key mem | value mem => simp at mem
  refine (kin.place_couples rel valid nothing).bind fun merged t1 t2 rel leads isNew => ?_
  refine Couples.bind (couples_forM (I := fun h => kin.Fits h merged) rel isNew ?_)
    fun _ u1 u2 rel _ fits => couples_pure rel fits
  intro e mem u1 u2 rel later fitsMerged
  have leads := kin.trans leads later
  have entry := fits e mem
  refine Meets.mono
    (kin.mappingInsert_couples rel fitsMerged (kin.keep leads entry.1) (kin.keep leads entry.2)) ?_
  exact fun _ _ after _ => kin.keep after fitsMerged

section

variable (deep : kin.Deep) (rel : kin.Related h1 h2) (valid : l.number < h1.lists.size)
include deep rel valid

theorem add_couples (first : kin.Fits h1 a) (second : kin.Fits h1 b) :
    kin.Couples h1 h2 (fun v h => kin.Fits h v) (Operator.add l a b) (Operator.add l a b) := by
  have agree := kin.agree rel
  unfold Operator.add
  split
  · exact couples_pure rel (kin.scalar rfl)
  · split
    · exact couples_pure rel (kin.scalar rfl)
    · refine couples_get_bind ?_
      rw [agree.items?_eq (kin.avoids first), agree.items?_eq (kin.avoids second),
        agree.entries?_eq (kin.avoids first), agree.entries?_eq (kin.avoids second),
        Operator.joinText?_eq agree (kin.avoids first), Operator.joinText?_eq agree (kin.avoids second)]
      split
      · split
        · rename_i xs ys foundFirst foundSecond
          refine kin.place_couples rel valid ?_
          rintro v ⟨mem⟩
          rcases mem_append.mp mem with left | right
          · exact deep.item rel first foundFirst left
          · exact deep.item rel second foundSecond right
        · exact couples_throw rel _
      · split
        · rename_i xs ys foundFirst foundSecond
          refine kin.merge_couples rel valid fun e mem => ?_
          obtain ⟨d, listed, rfl⟩ := mem_map.mp mem
          rcases mem_append.mp listed with left | right
          · exact deep.entry rel first foundFirst left
          · exact deep.entry rel second foundSecond right
        · exact couples_throw rel _
      all_goals first
        | exact couples_throw rel _
        | split
          · exact kin.place_couples rel valid (by rintro v ⟨⟩)
          · exact couples_throw rel _

theorem sub_couples (first : kin.Fits h1 a) (second : kin.Fits h1 b) :
    kin.Couples h1 h2 (fun v h => kin.Fits h v) (Operator.sub l a b) (Operator.sub l a b) := by
  have agree := kin.agree rel
  unfold Operator.sub
  split
  · exact couples_pure rel (kin.scalar rfl)
  · split
    · exact couples_pure rel (kin.scalar rfl)
    · refine couples_get_bind ?_
      rw [agree.items?_eq (kin.avoids first), agree.items?_eq (kin.avoids second)]
      split
      · split
        · rename_i xs ys foundFirst foundSecond
          have same : (xs.filter fun x => !ys.any (h2.equals · x)) =
              xs.filter fun x => !ys.any (h1.equals · x) := by
            refine filter_congr fun x mem => ?_
            have found : ∀ y ∈ ys, h2.equals y x = h1.equals y x := fun y other =>
              agree.equals_eq (kin.avoids (deep.item rel second foundSecond other))
                (kin.avoids (deep.item rel first foundFirst mem))
            rw [Bool.eq_iff_iff]
            simp only [Bool.not_eq_true', any_eq_false]
            exact forall₂_congr fun y other => by rw [found y other]
          rw [same]
          refine kin.place_couples rel valid ?_
          rintro v ⟨mem⟩
          exact deep.item rel first foundFirst (mem_of_mem_filter mem)
        · exact couples_throw rel _
      · exact couples_throw rel _

end

theorem compare_couples (rel : kin.Related h1 h2) (first : a.Avoids G) (second : b.Avoids G)
    (c : Comparison) : kin.Couples h1 h2 (fun v h => kin.Fits h v)
      (do ofExcept (Operator.compare (← get) c a b) : HeapM Value)
      (do ofExcept (Operator.compare (← get) c a b)) := by
  refine couples_get_bind ?_
  have same : Operator.compare h2 c a b = Operator.compare h1 c a b := by
    unfold Operator.compare
    rw [(kin.agree rel).text?_eq first, (kin.agree rel).text?_eq second]
  rw [same]
  exact couples_ofExcept rel fun v compared => kin.scalar (Operator.ref?_compare compared)

section

variable (deep : kin.Deep) (rel : kin.Related h1 h2)
include deep rel

section

variable (valid : l.number < h1.lists.size) (first : kin.Fits h1 a) (second : kin.Fits h1 b)
include valid first second

theorem binary_couples (op : BinaryOp) :
    kin.Couples h1 h2 (fun v h => kin.Fits h v) (Operator.binary l op a b)
      (Operator.binary l op a b) := by
  cases op with
  | add => exact kin.add_couples deep rel valid first second
  | sub => exact kin.sub_couples deep rel valid first second
  | mul =>
    exact couples_ofExcept rel fun v computed => kin.scalar (Operator.ref?_mul computed)
  | div =>
    exact couples_ofExcept rel fun v computed => kin.scalar (Operator.ref?_div computed)
  | rem =>
    exact couples_ofExcept rel fun v computed => kin.scalar (Operator.ref?_rem computed)
  | eq =>
    refine couples_get_bind ?_
    rw [Operator.equal, Operator.equal,
      (kin.agree rel).equals_eq (kin.avoids first) (kin.avoids second)]
    exact couples_pure rel (kin.scalar (Operator.ref?_ofBool _))
  | ne =>
    refine couples_get_bind ?_
    rw [Operator.notEqual, Operator.notEqual,
      (kin.agree rel).equals_eq (kin.avoids first) (kin.avoids second)]
    exact couples_pure rel (kin.scalar (Operator.ref?_ofBool _))
  | lt | le | gt | ge => exact kin.compare_couples rel (kin.avoids first) (kin.avoids second) _

theorem typed_couples (op : BinaryOp) (flavour : Flavour) :
    kin.Couples h1 h2 (fun v h => kin.Fits h v) (Operator.typed l op flavour a b)
      (Operator.typed l op flavour a b) := by
  unfold Operator.typed
  split
  · rename_i v computed
    exact couples_pure rel (kin.scalar (Operator.ref?_shortcut computed))
  · exact kin.binary_couples deep rel valid first second op

end

theorem indexGet_couples (fits : kin.Fits h1 container) (avoids : key.Avoids G) :
    kin.Couples h1 h2 (fun v h => kin.Fits h v) (Operator.indexGet container key)
      (Operator.indexGet container key) := by
  have agree := kin.agree rel
  have number : ∀ {h : Heap} (n : Int64), kin.Fits h (.integer n) := fun _ => kin.scalar rfl
  refine couples_get_bind ?_
  rw [agree.items?_eq (kin.avoids fits), agree.entries?_eq (kin.avoids fits),
    agree.text?_eq (kin.avoids fits), agree.bytes?_eq (kin.avoids fits)]
  split
  · split
    · exact couples_throw rel _
    · rename_i items found
      refine (couples_ofExcept (Q := fun _ _ => True) rel fun _ _ => trivial).bind
        fun i t1 t2 relatedToo leads _ => couples_pure relatedToo ?_
      rw [getD_eq_getElem?_getD]
      cases at? : items[i]? with
      | none => exact kin.scalar rfl
      | some v => exact kin.keep leads (deep.item rel fits found (mem_of_getElem? at?))
  · split
    · exact couples_throw rel _
    · rename_i entries found
      refine (kin.lookup_couples rel avoids fun e mem => deep.entry rel fits found mem).bind
        fun found t1 t2 relatedToo leads fits => couples_pure relatedToo ?_
      cases found with
      | none => exact kin.scalar rfl
      | some v => exact fits v rfl
  · split
    · exact couples_throw rel _
    · exact (couples_ofExcept (Q := fun _ _ => True) rel fun _ _ => trivial).bind
        fun i t1 t2 relatedToo _ _ => couples_pure relatedToo (number _)
  · split
    · exact couples_throw rel _
    · exact (couples_ofExcept (Q := fun _ _ => True) rel fun _ _ => trivial).bind
        fun i t1 t2 relatedToo _ _ => couples_pure relatedToo (number _)
  · exact couples_throw rel _

end

theorem setByte_couples (rel : kin.Related h1 h2) (fits : kin.Fits h1 (.ref r)) (byte : UInt8) :
    kin.Couples h1 h2 (fun _ _ => True) (Operator.setByte r.id container key byte)
      (Operator.setByte r.id container key byte) := by
  obtain ⟨forgot, leads⟩ := kin.forgetDigest rel fits
  unfold Couples
  rw [Operator.setByte_apply, Operator.setByte_apply,
    (kin.agree forgot).payload?_eq (kin.avoids fits r rfl)]
  split
  · split
    · obtain ⟨written, leads'⟩ :=
        kin.write (.buffer _) forgot (kin.keep leads fits) (by rintro v ⟨⟩)
      exact .ok written (kin.trans leads leads') trivial
    · exact .error forgot leads
  · exact .error forgot leads

theorem indexSet_couples (rel : kin.Related h1 h2) (fits : kin.Fits h1 container)
    (keyFits : kin.Fits h1 key) (valueFits : kin.Fits h1 value) :
    kin.Couples h1 h2 (fun _ _ => True) (Operator.indexSet container key value)
      (Operator.indexSet container key value) := by
  unfold Operator.indexSet
  split
  · refine kin.updateArray_couples rel fits fun items items' changed v mem => ?_
    unfold Except.map at changed
    split at changed <;> cases changed
    rcases mem_or_eq_of_mem_set mem with before | rfl
    · exact .inl before
    · exact .inr valueFits
  · exact kin.mappingInsert_couples rel fits keyFits valueFits
  · split
    · exact kin.setByte_couples rel fits _
    · exact couples_throw rel _
  · exact couples_throw rel _
  · exact couples_throw rel _

end Kinship

end Tenancy
