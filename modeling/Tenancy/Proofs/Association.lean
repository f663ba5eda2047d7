import Mathlib.Data.List.Induction
import Tenancy.Proofs.Hashing

/-!
Mappings as associations in order.

A mapping that is filled with pairs one after the other has one entry for each key, where the key was
entered first and with the value that was entered last. Anything may be done meanwhile, as long as
nobody writes to the keys: digests then only speed up the search. A merge enters all pairs of the one
mapping and then all pairs of the other.
-/

namespace Tenancy

open Tenancy.Action Motion List Operator HeapM

def Entry.pair (e : Entry) : Value × Value := (e.key, e.value)

namespace Heap

variable {h h' : Heap} {id : Nat} {k key value v a b : Value} {p q : Value × Value}
  {pairs done : List (Value × Value)} {keys keys' : List Value} {entries : List Entry}

/-! ### Keys and values in the order in which they were entered -/

/-- The keys that equal none before them. -/
def firsts (h : Heap) (keys : List Value) : List Value :=
  keys.foldl (fun kept k => if kept.any (h.equals k) then kept else kept ++ [k]) []

/-- The value was entered under the key or an equal one, and no other under an equal key since. -/
def Prevails (h : Heap) (pairs : List (Value × Value)) (q : Value × Value) : Prop :=
  ∃ before p after, pairs = before ++ p :: after ∧ p.2 = q.2 ∧
    (p.1 = q.1 ∨ h.equals p.1 q.1 = true) ∧ ∀ later ∈ after, h.equals later.1 q.1 = false

def Unequal (h : Heap) (keys : List Value) : Prop := keys.Pairwise fun a b => h.equals b a = false

theorem firsts_concat (h : Heap) (keys : List Value) (k : Value) : h.firsts (keys ++ [k]) =
    if (h.firsts keys).any (h.equals k) then h.firsts keys else h.firsts keys ++ [k] := by
  simp [firsts, foldl_append]

theorem unequal_firsts (h : Heap) (keys : List Value) : h.Unequal (h.firsts keys) := by
  induction keys using reverseRecOn with
  | nil => exact .nil
  | append_singleton keys k ih =>
    rw [firsts_concat]
    split
    · exact ih
    · rename_i new
      refine pairwise_append.mpr ⟨ih, pairwise_singleton _ _, fun a mem b last => ?_⟩
      obtain rfl := mem_singleton.mp last
      simpa using fun equal => new (any_eq_true.mpr ⟨a, mem, equal⟩)

theorem mem_firsts (mem : k ∈ h.firsts keys) : k ∈ keys := by
  induction keys using reverseRecOn with
  | nil => exact mem
  | append_singleton keys last ih =>
    rw [firsts_concat] at mem
    split at mem
    · exact mem_append_left _ (ih mem)
    · rcases mem_append.mp mem with earlier | here
      · exact mem_append_left _ (ih earlier)
      · exact mem_append_right _ here

theorem firsts_congr (same : ∀ a ∈ keys, ∀ b ∈ keys, h'.equals a b = h.equals a b) :
    h'.firsts keys = h.firsts keys := by
  induction keys using reverseRecOn with
  | nil => rfl
  | append_singleton keys k ih =>
    have alike : (h.firsts keys).any (h'.equals k) = (h.firsts keys).any (h.equals k) := by
      rw [Bool.eq_iff_iff, any_eq_true, any_eq_true]
      refine exists_congr fun a => and_congr_right fun mem => ?_
      rw [same k (by simp) a (by simp [mem_firsts mem])]
    rw [firsts_concat, firsts_concat,
      ih fun a before b before' => same a (by simp [before]) b (by simp [before']), alike]

theorem Prevails.concat (prevails : h.Prevails pairs q) (other : h.equals p.1 q.1 = false) :
    h.Prevails (pairs ++ [p]) q := by
  obtain ⟨before, p', after, rfl, same, key, later⟩ := prevails
  refine ⟨before, p', after ++ [p], by simp, same, key, fun p'' mem => ?_⟩
  rcases mem_append.mp mem with earlier | last
  · exact later p'' earlier
  · rwa [mem_singleton.mp last]

/-- Where no key of either list equals another of it, the new ones of the second come last. -/
theorem firsts_append (apart : h.Unequal keys) (apart' : h.Unequal keys') :
    h.firsts (keys ++ keys') = keys ++ keys'.filter fun b => !keys.any (h.equals b) := by
  induction keys' using reverseRecOn with
  | nil =>
    rw [append_nil, filter_nil, append_nil]
    induction keys using reverseRecOn with
    | nil => rfl
    | append_singleton keys k ih =>
      obtain ⟨earlier, -, last⟩ := pairwise_append.mp apart
      rw [firsts_concat, ih earlier, if_neg]
      simpa using fun a mem => last a mem k (by simp)
  | append_singleton keys' k ih =>
    obtain ⟨earlier, -, last⟩ := pairwise_append.mp apart'
    rw [← append_assoc, firsts_concat, ih earlier, filter_append, any_append, filter_singleton]
    have new : (keys'.filter fun b => !keys.any (h.equals b)).any (h.equals k) = false := by
      simpa using fun a mem _ => last a mem k (by simp)
    rw [new, Bool.or_false]
    cases keys.any (h.equals k) <;> simp

/-! ### Entries -/

/-- Nobody writes to the value meanwhile, if it is a string or a buffer. What is gone is not hashed
anew either. -/
def Undisturbed (h h' : Heap) (v : Value) : Prop :=
  ∀ r, v = .ref r → r.kind = .string ∨ r.kind = .buffer →
    h'.payload? r.id = h.payload? r.id ∧ (h.payload? r.id = none → h'.digest v = h.digest v)

theorem Undisturbed.trans (first : h.Undisturbed h' v) (second : h'.Undisturbed h'' v) :
    h.Undisturbed h'' v := by
  intro r same kind
  obtain ⟨payload, gone⟩ := first r same kind
  obtain ⟨payload', gone'⟩ := second r same kind
  refine ⟨payload'.trans payload, fun none => ?_⟩
  exact (gone' (payload.trans none)).trans (gone none)

theorem Refers.sameContents_of_kind {r s : Ref} (refers : h.Refers (.ref r))
    (kind : ¬ (r.kind = .string ∨ r.kind = .buffer)) : h.sameContents r.id s.id = false := by
  refine Bool.eq_false_iff.mpr fun same => ?_
  obtain ⟨p, -, found, -, -, seen⟩ := (h.sameContents_iff _ _).mp same
  rw [← (refers r rfl).2 p found] at kind
  exact kind (p.kind_of_face seen)

theorem Undisturbed.equals_eq (left : h.Undisturbed h' a) (right : h.Undisturbed h' b)
    (before : h.Refers a) (after : h'.Refers a) : h'.equals a b = h.equals a b := by
  cases a with
  | ref r =>
    cases b with
    | ref s =>
      by_cases alike : r.kind = s.kind
      · by_cases kind : r.kind = .string ∨ r.kind = .buffer
        · have same := (left r rfl kind).1
          have same' := (right s rfl (alike ▸ kind)).1
          simp only [equals, sameContents, same, same']
        · simp only [equals, before.sameContents_of_kind kind, after.sameContents_of_kind kind]
      · have apart : (r.kind == s.kind) = false := beq_eq_false_iff_ne.mpr alike
        simp only [equals, apart, Bool.false_and]
    | nil | integer _ | real _ | object _ => rfl
  | nil | integer _ | real _ | object _ => cases b <;> rfl

theorem Undisturbed.digest_eq (undisturbed : h.Undisturbed h' v) (upToDate : h.UpToDate)
    (upToDate' : h'.UpToDate) : h'.digest v = h.digest v := by
  cases v with
  | ref r =>
    by_cases kind : r.kind = .string ∨ r.kind = .buffer
    · obtain ⟨same, gone⟩ := undisturbed r rfl kind
      cases found : h.payload? r.id with
      | none => exact gone found
      | some p => rw [upToDate.digest_eq kind found, upToDate'.digest_eq kind (same.trans found)]
    · obtain ⟨k, id⟩ := r
      cases k <;> first | rfl | simp at kind
  | nil | integer _ | real _ | object _ => rfl

/-- The first entry that matches is given the value, or a new one comes last. -/
theorem putAt_cases (h : Heap) (digest : Digest) (key value : Value) (entries : List Entry) :
    (∃ before e after, entries = before ++ e :: after ∧ h.matchesAt digest key e = true ∧
      (∀ e' ∈ before, h.matchesAt digest key e' = false) ∧
      h.putAt digest key value entries = before ++ { e with value } :: after) ∨
    (∀ e ∈ entries, h.matchesAt digest key e = false) ∧
      h.putAt digest key value entries = entries ++ [⟨key, value, digest⟩] := by
  induction entries with
  | nil => exact .inr ⟨by simp, rfl⟩
  | cons first rest ih =>
    cases here : h.matchesAt digest key first with
    | true => exact .inl ⟨[], first, rest, rfl, here, by simp, by simp [putAt, here]⟩
    | false =>
      rcases ih with ⟨before, e, after, rfl, found, earlier, put⟩ | ⟨nowhere, put⟩
      · exact .inl ⟨first :: before, e, after, rfl, found,
          forall_mem_cons.mpr ⟨here, earlier⟩, by simp [putAt, here, put]⟩
      · exact .inr ⟨forall_mem_cons.mpr ⟨here, nowhere⟩, by simp [putAt, here, put]⟩

/-- The entries of a mapping once the pairs have been entered. Each has the digest that its key has. -/
structure Associates (h : Heap) (done : List (Value × Value)) (entries : List Entry) : Prop where
  refers : ∀ p ∈ done, h.Refers p.1
  order : entries.map Entry.key = h.firsts (done.map Prod.fst)
  last : ∀ e ∈ entries, h.Prevails done e.pair
  settled : ∀ e ∈ entries, e.digest = h.digest e.key

/-- With digests up to date a key is found where an equal one is. -/
theorem UpToDate.matchesAt_eq (upToDate : h.UpToDate) (refers : h.Refers key)
    (settled : e.digest = h.digest e.key) :
    h.matchesAt (h.digest key) key e = h.equals key e.key := by
  unfold matchesAt
  cases equal : h.equals key e.key with
  | false => rfl
  | true => simp [settled, upToDate.digest_eq_of_equals refers equal]

namespace Associates

section

variable (associates : h.Associates done entries)
include associates

theorem unequal : entries.Pairwise fun a b => h.equals b.key a.key = false := by
  have unequal := h.unequal_firsts (done.map Prod.fst)
  rw [← associates.order] at unequal
  exact pairwise_map.mp unequal

theorem mem_done (mem : e ∈ entries) : ∃ p ∈ done, p.1 = e.key := by
  have named := mem_map_of_mem (f := Entry.key) mem
  rw [associates.order] at named
  exact mem_map.mp (mem_firsts named)

theorem put (upToDate : h.UpToDate) (refers : h.Refers p.1) :
    h.Associates (done ++ [p]) (h.put p.1 p.2 entries) := by
  have looked : ∀ e ∈ entries, h.matchesAt (h.digest p.1) p.1 e = h.equals p.1 e.key :=
    fun e mem => upToDate.matchesAt_eq refers (associates.settled e mem)
  have entered : ∀ q : Value × Value, q.2 = p.2 → (p.1 = q.1 ∨ h.equals p.1 q.1 = true) →
      h.Prevails (done ++ [p]) q := fun q same key => ⟨done, p, [], rfl, same.symm, key, by simp⟩
  have old : ∀ e ∈ entries, h.equals p.1 e.key = false → h.Prevails (done ++ [p]) e.pair :=
    fun e mem => (associates.last e mem).concat
  have keys : h.firsts ((done ++ [p]).map Prod.fst) = if (entries.map Entry.key).any (h.equals p.1)
      then entries.map Entry.key else entries.map Entry.key ++ [p.1] := by
    rw [map_append, map_singleton, firsts_concat, associates.order]
  refine ⟨?_, ?_, ?_, fun e mem => ?_⟩
  · simpa [or_imp, forall_and, refers] using associates.refers
  · rw [keys, Heap.put]
    rcases putAt_cases h (h.digest p.1) p.1 p.2 entries with
      ⟨before, e, after, rfl, here, -, put⟩ | ⟨nowhere, put⟩
    · rw [put, if_pos]
      · simp
      · simp [← looked e (by simp), here]
    · rw [put, if_neg]
      · simp
      · simpa using fun e mem => looked e mem ▸ nowhere e mem
  · rw [Heap.put]
    rcases putAt_cases h (h.digest p.1) p.1 p.2 entries with
      ⟨before, e, after, rfl, here, earlier, put⟩ | ⟨nowhere, put⟩
    · have equal : h.equals p.1 e.key = true := looked e (by simp) ▸ here
      have apart := (pairwise_append.mp associates.unequal).2.1
      intro e' mem
      rw [put] at mem
      rcases mem_append.mp mem with sooner | rest
      · exact old e' (by simp [sooner]) (looked e' (by simp [sooner]) ▸ earlier e' sooner)
      · rcases mem_cons.mp rest with rfl | later
        · exact entered _ rfl (.inr equal)
        · refine old e' (by simp [later]) (Bool.eq_false_iff.mpr fun equal' => ?_)
          have unlike := (pairwise_cons.mp apart).1 e' later
          rw [equals_trans (equals_symm equal') equal] at unlike
          cases unlike
    · intro e mem
      rw [put] at mem
      rcases mem_append.mp mem with there | last
      · exact old e there (looked e there ▸ nowhere e there)
      · rw [mem_singleton.mp last]
        exact entered _ rfl (.inl rfl)
  · rcases mem_put mem with ⟨e', there, sameKey, sameDigest⟩ | ⟨key, digest⟩
    · rw [← sameKey, ← sameDigest]
      exact associates.settled e' there
    · rw [digest, key]

/-- Nothing comes of what is done meanwhile. -/
theorem keep (upToDate : h.UpToDate) (upToDate' : h'.UpToDate) (keeps : h.KeepsKinds h')
    (undisturbed : ∀ p ∈ done, h.Undisturbed h' p.1) : h'.Associates done entries := by
  have same : ∀ p ∈ done, ∀ q ∈ done, h'.equals p.1 q.1 = h.equals p.1 q.1 := by
    intro p left q right
    have refers := associates.refers p left
    exact (undisturbed p left).equals_eq (undisturbed q right) refers (keeps.refers refers)
  refine ⟨fun p mem => keeps.refers (associates.refers p mem), ?_, fun e mem => ?_, fun e mem => ?_⟩
  · rw [associates.order]
    exact (firsts_congr (by simpa using same)).symm
  all_goals obtain ⟨p, entered, key⟩ := associates.mem_done mem
  · obtain ⟨before, p', after, rfl, value, equal, later⟩ := associates.last e mem
    refine ⟨before, p', after, rfl, value, ?_, fun q mem' => ?_⟩
    · rwa [Entry.pair, ← key, same p' (by simp) p entered, key]
    · rw [Entry.pair, ← key, same q (by simp [mem']) p entered, key]
      exact later q mem'
  · rw [associates.settled e mem, ← key]
    exact ((undisturbed p entered).digest_eq upToDate upToDate').symm

theorem filed : h.Filed entries :=
  ⟨associates.unequal, fun _ => associates.settled⟩

end

end Associates

/-! ### A mapping that is filled -/

theorem entries?_of_payload? (found : h.payload? id = some (.mapping entries)) :
    h.entries? (.ref ⟨.mapping, id⟩) = some entries := by
  simp [entries?, found]

def entered (h : Heap) (id : Nat) (p : Value × Value) (entries : List Entry) : Heap :=
  (h.note p.1).write id (.mapping (h.put p.1 p.2 entries))

theorem constant_entered (p : Value × Value) (i : Nat) :
    (h.entered id p entries).constant i = h.constant i := by
  rw [← h.constant_note p.1 i, constant_eq, constant_eq, entered, aspect?_write]
  cases (h.note p.1).aspect? i with
  | none => rfl
  | some a =>
    simp only [Option.map_some, Option.any_some]
    split <;> rfl

section Entered

variable (found : h.payload? id = some (.mapping entries))

include found

theorem mappingInsert_ok (changeable : h.constant id = false) (p : Value × Value) :
    mappingInsert (.ref ⟨.mapping, id⟩) p.1 p.2 h = .ok () (h.entered id p entries) := by
  rw [mappingInsert_apply, changeable, entries?_of_payload? found]
  rfl

theorem payload?_entered (p : Value × Value) :
    (h.entered id p entries).payload? id = some (.mapping (h.put p.1 p.2 entries)) := by
  have within : id < h.cells.size := within_of_live (by simp [live, found])
  rw [entered, payload?_write, if_pos ⟨rfl, by simpa using within⟩]

theorem keepsKinds_entered (p : Value × Value) : h.KeepsKinds (h.entered id p entries) :=
  (KeepsKinds.note h p.1).trans (.write ((payload?_note h p.1 id).trans found) rfl)

/-- A mapping is neither a string nor a buffer. -/
theorem Refers.undisturbed_entered (refers : h.Refers v) (upToDate : h.UpToDate)
    (p : Value × Value) : h.Undisturbed (h.entered id p entries) v := by
  rintro r rfl kind
  have other : r.id ≠ id := by
    intro here
    have same := (refers r rfl).2 _ (here ▸ found)
    rw [← same] at kind
    simp [Payload.kind] at kind
  constructor
  · rw [entered, payload?_write, if_neg fun here => other here.1, payload?_note]
  · intro _
    rw [entered, (upToDate.note p.1).digest_write ((payload?_note h p.1 id).trans found) rfl rfl,
      digest_note]

theorem Associates.entered (associates : h.Associates done entries) (upToDate : h.UpToDate)
    (refers : h.Refers p.1) :
    (h.entered id p entries).Associates (done ++ [p]) (h.put p.1 p.2 entries) := by
  have put := associates.put upToDate refers
  exact put.keep upToDate ((upToDate.note p.1).write id _) (keepsKinds_entered found p)
    fun q mem => (put.refers q mem).undisturbed_entered found upToDate p

end Entered

/-- The mapping `id`, which was empty, has been filled with the pairs one after the other. Meanwhile
anything may have been done, save to the mapping and to its keys. -/
inductive Filled (id : Nat) : Heap → List (Value × Value) → Prop where
  | start {h : Heap} (possible : h.Possible) (found : h.payload? id = some (.mapping [])) :
      Filled id h []
  | insert {h h' : Heap} {done : List (Value × Value)} {p : Value × Value} (filled : Filled id h done)
      (refers : h.Refers p.1)
      (ran : mappingInsert (.ref ⟨.mapping, id⟩) p.1 p.2 h = .ok () h') :
      Filled id h' (done ++ [p])
  | meanwhile {h h' : Heap} {done : List (Value × Value)} (filled : Filled id h done)
      (changes : h.Changes h') (keeps : h.KeepsKinds h') (same : h'.payload? id = h.payload? id)
      (undisturbed : ∀ p ∈ done, h.Undisturbed h' p.1) : Filled id h' done

/-- However a mapping is filled, its entries are those of the pairs. -/
theorem Filled.associates (filled : Filled id h done) : h.Possible ∧
    ∃ entries, h.payload? id = some (.mapping entries) ∧ h.Associates done entries := by
  induction filled with
  | start possible found => exact ⟨possible, [], found, by simp, rfl, by simp, by simp⟩
  | @insert h h' done p filled refers ran ih =>
    obtain ⟨possible, entries, found, associates⟩ := ih
    rw [mappingInsert_apply] at ran
    split at ran
    · cases ran
    · rw [entries?_of_payload? found] at ran
      cases ran
      have changes : h.Changes (h.entered id p entries) :=
        .tail (.single (.note h p.1)) (.write _ _ _)
      exact ⟨Relation.ReflTransGen.trans possible changes, _, payload?_entered found p,
        associates.entered found possible.upToDate refers⟩
  | meanwhile filled changes keeps same undisturbed ih =>
    obtain ⟨possible, entries, found, associates⟩ := ih
    have after := Relation.ReflTransGen.trans possible changes
    exact ⟨after, entries, same.trans found,
      associates.keep possible.upToDate (Possible.upToDate after) keeps undisturbed⟩

/-! ### Merging -/

section Merging

variable {owner : ListId}

/-- Nothing fails in a merge: what holds of the new mapping and is kept by each insertion holds in
the end. -/
theorem merge_ok {I : List (Value × Value) → Heap → Prop} (pairs : List (Value × Value))
    (start : I [] (h.place owner (.mapping [])).2)
    (each : ∀ done p t entries, p ∈ pairs → t.payload? h.cells.size = some (.mapping entries) →
      mappingInsert (.ref ⟨.mapping, h.cells.size⟩) p.1 p.2 t =
        .ok () (t.entered h.cells.size p entries) →
      I done t → I (done ++ [p]) (t.entered h.cells.size p entries)) :
    ∃ t entries, merge owner pairs h = .ok (.ref ⟨.mapping, h.cells.size⟩) t ∧
      t.payload? h.cells.size = some (.mapping entries) ∧ I pairs t := by
  let J (done : List (Value × Value)) (t : Heap) : Prop :=
    (∃ entries, t.payload? h.cells.size = some (.mapping entries)) ∧
      t.constant h.cells.size = false ∧ I done t
  have placed := extended_place h owner (.mapping [])
  have begun : J [] (h.place owner (.mapping [])).2 := by
    refine ⟨⟨[], ?_⟩, ?_, start⟩
    · rw [payload?_eq, placed.aspect?_new, Option.bind_some]
    · rw [constant_eq, placed.aspect?_new, Option.any_some]
  have filled := ends_forM (E := fun _ _ => False) (I := J)
    (f := fun p => mappingInsert (.ref ⟨.mapping, h.cells.size⟩) p.1 p.2) pairs
    (fun done p _ t split ⟨⟨entries, found⟩, changeable, holds⟩ => by
      have inserted := mappingInsert_ok found changeable p
      rw [inserted]
      exact ⟨⟨_, payload?_entered found p⟩, (constant_entered p _).trans changeable,
        each done p t entries (by simp [split]) found inserted holds⟩) begun
  have merged : Ends (fun v t => v = .ref ⟨.mapping, h.cells.size⟩ ∧ J pairs t) (fun _ _ => False)
      (merge owner pairs h) := by
    refine Ends.bind (P := fun v t => v = .ref ⟨.mapping, h.cells.size⟩ ∧
      t = (h.place owner (.mapping [])).2) ⟨rfl, rfl⟩ ?_
    rintro _ _ ⟨rfl, rfl⟩
    exact filled.bind fun _ t holds => ⟨rfl, holds⟩
  cases ran : merge owner pairs h with
  | ok v t =>
    rw [ran] at merged
    obtain ⟨rfl, ⟨entries, found⟩, -, holds⟩ := merged
    exact ⟨t, entries, rfl, found, holds⟩
  | error e t =>
    rw [ran] at merged
    exact merged.elim

/-- Nothing that is there is disturbed by a new payload. -/
theorem Refers.undisturbed_place (refers : h.Refers v) (payload : Payload) :
    h.Undisturbed (h.place owner payload).2 v := by
  have placed := extended_place h owner payload
  rintro r rfl _
  have old : r.id ≠ h.cells.size := (refers r rfl).1.ne
  refine ⟨by rw [payload?_eq, payload?_eq, placed.aspect?_old old], fun _ => ?_⟩
  refine digest_congr fun s same => ?_
  cases same
  rw [placed.aspect?_old old]

/-- To merge two mappings is to fill a new one with the pairs of the first and then of the second. -/
theorem add_filled {i j : Nat} {xs ys : List Entry} (possible : h.Possible)
    (valid : owner.number < h.lists.size) (left : h.payload? i = some (.mapping xs))
    (right : h.payload? j = some (.mapping ys)) (refers : ∀ e ∈ xs ++ ys, h.Refers e.key) :
    ∃ t, add owner (.ref ⟨.mapping, i⟩) (.ref ⟨.mapping, j⟩) h =
        .ok (.ref ⟨.mapping, h.cells.size⟩) t ∧
      Filled h.cells.size t ((xs ++ ys).map Entry.pair) ∧ h.KeepsKinds t ∧
      ∀ v, h.Refers v → h.Undisturbed t v := by
  have merges : add owner (.ref ⟨.mapping, i⟩) (.ref ⟨.mapping, j⟩) h =
      merge owner ((xs ++ ys).map Entry.pair) h := by
    have looked : reals? (.ref ⟨.mapping, i⟩) (.ref ⟨.mapping, j⟩) = none := rfl
    unfold add
    simp only [looked, get_bind_apply, Value.type, entries?_of_payload? left,
      entries?_of_payload? right]
    rfl
  have placed := extended_place h owner (.mapping [])
  have keeps : h.KeepsKinds (h.place owner (.mapping [])).2 := by
    refine .of_payload? (by rw [placed.cells]; omega) fun id within => ?_
    rw [payload?_eq, payload?_eq, placed.aspect?_old within.ne]
  have begun : Filled h.cells.size (h.place owner (.mapping [])).2 [] :=
    .start (Relation.ReflTransGen.trans possible (place_changes valid _))
      (by rw [payload?_eq, placed.aspect?_new, Option.bind_some])
  obtain ⟨t, -, ran, -, holds⟩ := merge_ok (I := fun done t => Filled h.cells.size t done ∧
      h.KeepsKinds t ∧ ∀ v, h.Refers v → h.Undisturbed t v) ((xs ++ ys).map Entry.pair)
    ⟨begun, keeps, fun v refers => refers.undisturbed_place _⟩
    (fun done p t entries mem found inserted ⟨filled, keeps, undisturbed⟩ => by
      obtain ⟨e, given, rfl⟩ := mem_map.mp mem
      refine ⟨filled.insert (keeps.refers (refers e given)) inserted,
        keeps.trans (keepsKinds_entered found _), fun v refers => ?_⟩
      exact (undisturbed v refers).trans
        ((keeps.refers refers).undisturbed_entered found filled.associates.1.upToDate _))
  exact ⟨t, merges.trans ran, holds⟩

end Merging

/-- The entries of a mapping after pairs have been entered: no two keys are equal, each key is where
it was entered first, with the value that was entered last, and to ask for a key gives that value just
when an equal one is there. -/
structure Registers (h : Heap) (id : Nat) (done : List (Value × Value)) (entries : List Entry) :
    Prop where
  found : h.entries? (.ref ⟨.mapping, id⟩) = some entries
  unequal : entries.Pairwise fun a b => h.equals b.key a.key = false
  order : entries.map Entry.key = h.firsts (done.map Prod.fst)
  last : ∀ e ∈ entries, h.Prevails done e.pair
  get : ∀ k, h.Refers k → ∃ answer h',
    mappingGet (.ref ⟨.mapping, id⟩) k h = .ok answer h' ∧
      ∀ value, answer = some value ↔ h.HasKey k entries value
  insert : h.constant id = false → ∀ key value,
    ∃ h', mappingInsert (.ref ⟨.mapping, id⟩) key value h = .ok () h'

theorem Filled.registers (filled : Filled id h done) : ∃ entries, h.Registers id done entries := by
  obtain ⟨possible, entries, found, associates⟩ := filled.associates
  refine ⟨entries, entries?_of_payload? found, associates.unequal, associates.order, associates.last,
    fun k refers => ?_, fun changeable key value => ⟨_, mappingInsert_ok found changeable (key, value)⟩⟩
  refine ⟨h.find? k entries, if searched entries then h.note k else h, ?_, fun value => ?_⟩
  · unfold mappingGet
    rw [get_bind_apply, entries?_of_payload? found]
    exact lookup_apply entries k h
  · rw [find?_eq_some_iff, associates.filed.finds_iff possible.upToDate refers]

/-- Mappings are associations in the order of insertion, and a merge is one of both operands, where
the right one has its way. -/
theorem mappings_associate_in_order :
    (∀ (id : Nat) (h : Heap) (done : List (Value × Value)), Filled id h done →
      ∃ entries, h.Registers id done entries) ∧
    ∀ (h : Heap) (owner : ListId) (i j : Nat) (xs ys : List Entry), h.Possible →
      owner.number < h.lists.size → h.payload? i = some (.mapping xs) →
      h.payload? j = some (.mapping ys) → (∀ e ∈ xs ++ ys, h.Refers e.key) →
      h.Unequal (xs.map Entry.key) → h.Unequal (ys.map Entry.key) →
      ∃ entries h', Operator.add owner (.ref ⟨.mapping, i⟩) (.ref ⟨.mapping, j⟩) h =
          .ok (.ref ⟨.mapping, h.cells.size⟩) h' ∧
        h'.Registers h.cells.size ((xs ++ ys).map Entry.pair) entries ∧
        entries.map Entry.key = xs.map Entry.key ++
          (ys.map Entry.key).filter (fun k => !(xs.map Entry.key).any (h.equals k)) ∧
        h'.owner? h.cells.size = some owner ∧
        ∀ id < h.cells.size, h'.contents? id = h.contents? id := by
  refine ⟨fun _ _ _ filled => filled.registers, ?_⟩
  intro h owner i j xs ys possible valid left right refers unequal unequal'
  obtain ⟨t, ran, filled, keeps, undisturbed⟩ := add_filled possible valid left right refers
  obtain ⟨entries, registers⟩ := filled.registers
  have adds : Adds owner h.cells.size h t := by
    have leads := (adding_crafts owner h.cells.size).shapes.add_moves (.ref ⟨.mapping, i⟩)
      (.ref ⟨.mapping, j⟩) h ⟨⟨possible.sound, valid⟩, Nat.le_refl _⟩
    rwa [ran] at leads
  have within : h.cells.size < t.cells.size :=
    within_of_live (by simp [live, payload?_of_entries? registers.found])
  refine ⟨entries, t, ran, registers, ?_, ?_, adds.old⟩
  · have same : ∀ a ∈ (xs ++ ys).map Entry.key, ∀ b ∈ (xs ++ ys).map Entry.key,
        t.equals a b = h.equals a b := by
      simp only [mem_map]
      rintro _ ⟨x, member, rfl⟩ _ ⟨y, member', rfl⟩
      have named := refers x member
      exact (undisturbed _ named).equals_eq (undisturbed _ (refers y member')) named
        (keeps.refers named)
    have keys : ((xs ++ ys).map Entry.pair).map Prod.fst = (xs ++ ys).map Entry.key := by
      rw [map_map]
      rfl
    rw [registers.order, keys, firsts_congr same, map_append, firsts_append unequal unequal']
  · exact adds.new _ (Nat.le_refl _) (fun below => absurd below (Nat.lt_irrefl _)) within

/-- An integer, a buffer of `shelf` and the real that equals the integer. -/
def stock : List (Value × Value) :=
  [(.integer 1, .integer 10), (.ref ⟨.buffer, 1⟩, .integer 20),
    (.real ⟨0x3FF0000000000000⟩, .integer 30)]

def stocked : Heap :=
  stock.foldl (fun t p => left (mappingInsert (.ref ⟨.mapping, 0⟩) p.1 p.2 t)) shelf

/-- The value goes under the integer. Merged with itself the mapping has the same keys. -/
theorem stocked_associates_in_order :
    (∃ entries, stocked.Registers 0 stock entries ∧
      entries.map Entry.key = [.integer 1, .ref ⟨.buffer, 1⟩]) ∧
    ∃ entries h', Operator.add ⟨0⟩ (.ref ⟨.mapping, 0⟩) (.ref ⟨.mapping, 0⟩) stocked =
        .ok (.ref ⟨.mapping, 4⟩) h' ∧ h'.entries? (.ref ⟨.mapping, 4⟩) = some entries ∧
      entries.map Entry.key = [.integer 1, .ref ⟨.buffer, 1⟩] := by
  obtain ⟨filling, merging⟩ := mappings_associate_in_order
  have filled : Filled 0 stocked stock :=
    .insert (.insert (.insert (.start possible_shelf rfl) (by decide) rfl) (by decide) rfl)
      (by decide) rfl
  obtain ⟨entries, registers⟩ := filling 0 stocked stock filled
  obtain ⟨possible, entries', found, associates⟩ := filled.associates
  obtain rfl : entries' = entries :=
    Option.some.inj ((entries?_of_payload? found).symm.trans registers.found)
  have keys : entries'.map Entry.key = [.integer 1, .ref ⟨.buffer, 1⟩] := associates.order
  have refers : ∀ e ∈ entries' ++ entries', stocked.Refers e.key := by
    intro e member
    obtain ⟨p, given, key⟩ := associates.mem_done ((mem_append.mp member).elim id id)
    exact key ▸ associates.refers p given
  have unequal : stocked.Unequal (entries'.map Entry.key) := pairwise_map.mpr registers.unequal
  obtain ⟨merged, h', ran, registers', joined, -⟩ :=
    merging stocked ⟨0⟩ 0 0 entries' entries' possible (by decide) found found refers unequal unequal
  refine ⟨⟨entries', registers, keys⟩, merged, h', ran, registers'.found, ?_⟩
  rw [joined, keys]
  rfl

end Heap

end Tenancy
