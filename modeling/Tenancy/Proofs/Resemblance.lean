import Tenancy.Proofs.Bisimilarity

/-!
Copies are structurally equal to their sources.

To go from each source to its copy, or back, is a bisimulation: copying keeps the shape of
containers and the contents of strings and buffers. The keys of a mapping are the hard part, since
they are looked up. A copied key has to equal its source, which a container does not, and it has to
be found, for which neither key may have changed since it was entered.
-/

namespace Tenancy

open Tenancy.Action List Heap

theorem forall₂_left {α β : Type} {R : α → β → Prop} {xs : List α} {ys : List β}
    (each : xs.Forall₂ R ys) {x : α} (mem : x ∈ xs) : ∃ y ∈ ys, R x y := by
  obtain ⟨i, within, rfl⟩ := mem_iff_getElem.mp mem
  exact ⟨_, getElem_mem (each.length_eq ▸ within), each.get within (each.length_eq ▸ within)⟩

theorem pairwise_of_forall2 {α β : Type} {P : α → β → Prop} {R : α → α → Prop} {S : β → β → Prop}
    {xs : List α} {ys : List β} (each : xs.Forall₂ P ys) (apart : xs.Pairwise R)
    (carried : ∀ x x' y y', x ∈ xs → x' ∈ xs → P x y → P x' y' → R x x' → S y y') :
    ys.Pairwise S := by
  refine pairwise_iff_get.mpr fun i j before => ?_
  have withinI : i.1 < xs.length := i.2.trans_eq each.length_eq.symm
  have withinJ : j.1 < xs.length := j.2.trans_eq each.length_eq.symm
  exact carried _ _ _ _ (xs.get_mem ⟨i, withinI⟩) (xs.get_mem ⟨j, withinJ⟩)
    (each.get withinI i.2) (each.get withinJ j.2)
    (pairwise_iff_get.mp apart ⟨i, withinI⟩ ⟨j, withinJ⟩ before)

/-- The copy of such a key equals it: a container or a function that is copied differs from its
copy. -/
def Heap.Portable (h : Heap) (v : Value) : Prop :=
  ∀ r, v = .ref r → h.unowned r.id = true ∨ r.kind = .string ∨ r.kind = .buffer

/-- What has to hold of all that is copied for the copies to be equal to their sources. -/
structure Heap.Recognizable (h : Heap) (values : List Value) : Prop where
  refers : ∀ v, h.Met values v → h.Refers v
  comparable : ∀ v, h.Met values v → v.Comparable
  plain : ∀ v, h.Met values v → h.Plain v
  filed : ∀ id entries, h.Drawn values id → h.payload? id = some (.mapping entries) →
    h.Filed entries
  portable : ∀ id entries, h.Drawn values id → h.payload? id = some (.mapping entries) →
    ∀ e ∈ entries, h.Portable e.key

namespace Copying.Underway

variable {h0 : Heap} {t : ListId} {values : List Value} {s : Copying} {v w c d : Value}
  {entries : List Entry}

section

variable (underway : Underway h0 t values s)
include underway

theorem equals_old (refers : h0.Refers v)
    (refers' : h0.Refers w) : s.heap.equals v w = h0.equals v w := by
  cases v with
  | ref r =>
    cases w with
    | ref q =>
      have contents : s.heap.sameContents r.id q.id = h0.sameContents r.id q.id := by
        rw [sameContents_eq, sameContents_eq, underway.payload?_eq (refers r rfl).1,
          underway.payload?_eq (refers' q rfl).1]
      simp only [equals, contents]
    | nil | integer _ | real _ | object _ => rfl
  | nil | integer _ | real _ | object _ => cases w <;> rfl

theorem refers_old (refers : h0.Refers v) : s.heap.Refers v := by
  intro r same
  obtain ⟨within, kind⟩ := refers r same
  refine ⟨within.trans_le underway.cells, fun p found => kind p ?_⟩
  rwa [underway.payload?_eq within] at found

theorem refers_sent (refers : h0.Refers v) (sends : s.memo.Sends h0 v c) : s.heap.Refers c := by
  cases sends with
  | scalar | kept => exact underway.refers_old refers
  | copied _ remembered =>
    rintro _ ⟨⟩
    obtain ⟨-, p, p', -, kind, found, begins⟩ := underway.copy_of remembered
    refine ⟨underway.within remembered, fun q found' => ?_⟩
    rw [found] at found'
    cases found'
    rw [← kind]
    cases begins <;> rfl

theorem equals_sent (sends : s.memo.Sends h0 v c) (comparable : v.Comparable) (plain : h0.Plain v)
    (portable : h0.Portable v) : s.heap.equals v c = true := by
  cases sends with
  | scalar | kept => exact equals_refl comparable
  | @copied r id ownable remembered =>
    have kind := (portable r rfl).resolve_left (by simp [ownable])
    obtain ⟨-, p, p', source, kindP, found, begins⟩ := underway.copy_of remembered
    have face := begins.face fun b isBuffer => plain r b rfl ownable (isBuffer ▸ source)
    have within := within_of_live (h := h0) (by rw [live, source]; rfl)
    refine equals_ref_iff.mpr ⟨rfl, .inr ((s.heap.sameContents_iff _ _).mpr
      ⟨p, p', (underway.payload?_eq within).trans source, found, face.symm, ?_⟩)⟩
    rw [← kindP] at kind
    cases p <;> simp_all [Payload.kind, Payload.face]

theorem filed_source (upToDate : h0.UpToDate) (filed : h0.Filed entries)
    (refers : ∀ e ∈ entries, h0.Refers e.key) : s.heap.Filed entries where
  unequal := by
    refine filed.unequal.imp_of_mem fun {e e'} mem mem' unequal => ?_
    rwa [underway.equals_old (refers e' mem') (refers e mem)]
  settled several e mem := by
    rw [filed.settled several e mem]
    exact ((underway.filing upToDate).digests _ fun r same => (refers e mem r same).1).symm

theorem filed_copy (upToDate : h0.UpToDate) {id : Nat}
    {copies : List Entry} (distinct : h0.Distinct entries) (above : h0.cells.size ≤ id)
    (found : s.heap.payload? id = some (.mapping copies))
    (each : entries.Forall₂ (fun e c => s.memo.Sends h0 e.key c.key ∧
      s.memo.Sends h0 e.value c.value) copies) : s.heap.Filed copies where
  unequal := by
    refine pairwise_of_forall2 each distinct.unequal fun e e' c c' mem mem' sent sent' unequal => ?_
    rwa [underway.equals_eq sent.1 sent'.1 (distinct.plain e mem) (distinct.plain e' mem')]
  settled _ e mem := ((underway.filing upToDate).settled id copies above found e mem).2

end

/-- A value that is met, and its copy. -/
def Matched (h0 : Heap) (values : List Value) (s : Copying) (v c : Value) : Prop :=
  h0.Met values v ∧ s.memo.Sends h0 v c

variable (underway : Underway h0 t values s) (upToDate : h0.UpToDate)
  (recognizable : h0.Recognizable values)

include underway upToDate recognizable

theorem mappings_alike {a id : Nat} {copies : List Entry} (drawn : h0.Drawn values a)
    (source : h0.payload? a = some (.mapping entries)) (above : h0.cells.size ≤ id)
    (found : s.heap.payload? id = some (.mapping copies))
    (each : h0.Distinct entries → entries.Forall₂ (fun e c => s.memo.Sends h0 e.key c.key ∧
      s.memo.Sends h0 e.value c.value) copies) :
    s.heap.Like s.heap.Finds (Matched h0 values s) (.ref ⟨.mapping, a⟩) (.ref ⟨.mapping, id⟩) ∧
      s.heap.Like s.heap.Finds (fun c v => Matched h0 values s v c) (.ref ⟨.mapping, id⟩)
        (.ref ⟨.mapping, a⟩) := by
  have metKey : ∀ e ∈ entries, h0.Met values e.key :=
    fun e mem => .inr ⟨a, drawn, _, source, .key mem⟩
  have metValue : ∀ e ∈ entries, h0.Met values e.value :=
    fun e mem => .inr ⟨a, drawn, _, source, .value mem⟩
  have filed := recognizable.filed a entries drawn source
  have distinct : h0.Distinct entries :=
    ⟨filed.unequal, fun e mem => recognizable.plain e.key (metKey e mem)⟩
  have each := each distinct
  have refers : ∀ e ∈ entries, h0.Refers e.key :=
    fun e mem => recognizable.refers e.key (metKey e mem)
  have equal : ∀ e ∈ entries, ∀ c, s.memo.Sends h0 e.key c → s.heap.equals e.key c = true := by
    intro e mem c sends
    have portable := recognizable.portable a entries drawn source e mem
    exact underway.equals_sent sends (recognizable.comparable _ (metKey e mem))
      (recognizable.plain _ (metKey e mem)) portable
  have current := (underway.filing upToDate).upToDate
  have within := within_of_live (h := h0) (by rw [live, source]; rfl)
  have first : s.heap.entries? (.ref ⟨.mapping, a⟩) = some entries :=
    entries?_eq_some_iff.mpr ⟨a, rfl, (underway.payload?_eq within).trans source⟩
  have second : s.heap.entries? (.ref ⟨.mapping, id⟩) = some copies :=
    entries?_eq_some_iff.mpr ⟨id, rfl, found⟩
  constructor
  · refine .mapping first second each.length_eq fun e mem => ?_
    obtain ⟨c, mem', sendsKey, sendsValue⟩ := forall₂_left each mem
    have filed' := underway.filed_copy upToDate distinct above found each
    have refersKey := underway.refers_old (refers e mem)
    exact ⟨c.value, (filed'.finds_iff current refersKey).mpr
      ⟨c, mem', equal e mem c.key sendsKey, rfl⟩, metValue e mem, sendsValue⟩
  · refine .mapping second first each.length_eq.symm fun c mem => ?_
    obtain ⟨e, mem', sendsKey, sendsValue⟩ := forall₂_left each.flip mem
    have filed' := underway.filed_source upToDate filed refers
    have refersKey := underway.refers_sent (refers e mem') sendsKey
    have equal' := equals_symm (equal e mem' c.key sendsKey)
    exact ⟨e.value, (filed'.finds_iff current refersKey).mpr ⟨e, mem', equal', rfl⟩,
      metValue e mem', sendsValue⟩

theorem matched_alike (grows : Grows h0 (fun _ => False) { heap := h0 } s)
    (matched : Matched h0 values s v c) :
    s.heap.Like s.heap.Finds (Matched h0 values s) v c ∧
      s.heap.Like s.heap.Finds (fun c v => Matched h0 values s v c) c v := by
  obtain ⟨met, sends⟩ := matched
  have comparable := recognizable.comparable v met
  cases sends with
  | scalar | kept => exact ⟨.refl comparable, .refl comparable⟩
  | @copied r id ownable remembered =>
    obtain ⟨k, a⟩ := r
    have sends : s.memo.Sends h0 (.ref ⟨k, a⟩) (.ref ⟨k, id⟩) := .copied ownable remembered
    have drawn := met.drawn ownable
    have plain := recognizable.plain _ met
    obtain ⟨p, id', p', source, same, above, found, copied, -⟩ := grows.complete _ remembered
    obtain ⟨rfl, rfl⟩ : k = p.kind ∧ id = id' := by simpa using same
    have within := within_of_live (h := h0) (by rw [live, source]; rfl)
    have kept := (underway.payload?_eq within).trans source
    cases copied with
    | string | buffer =>
      have equal := underway.equals_sent sends comparable plain (by simp [Portable, Payload.kind])
      exact ⟨.flat (by simp [Value.Flat, Payload.kind]) equal,
        .flat (by simp [Value.Flat, Payload.kind]) (equals_symm equal)⟩
    | function object name =>
      have agree : s.heap.function? (.ref ⟨.function, a⟩) =
          s.heap.function? (.ref ⟨.function, id⟩) := by simp [function?, kept, found]
      exact ⟨.function agree, .function agree.symm⟩
    | @array items copies each =>
      have first : s.heap.items? (.ref ⟨.array, a⟩) = some items :=
        items?_eq_some_iff.mpr ⟨a, rfl, kept⟩
      have second : s.heap.items? (.ref ⟨.array, id⟩) = some copies :=
        items?_eq_some_iff.mpr ⟨id, rfl, found⟩
      have matched : items.Forall₂ (Matched h0 values s) copies := by
        obtain ⟨size, zipped⟩ := forall₂_iff_zip.mp each
        refine forall₂_iff_zip.mpr ⟨size, fun {x y} mem => ⟨?_, zipped mem⟩⟩
        exact .inr ⟨a, drawn, _, source, .item (of_mem_zip mem).1⟩
      exact ⟨.array first second matched, .array second first matched.flip⟩
    | mapping each =>
      exact mappings_alike underway upToDate recognizable drawn source above found each

end Copying.Underway

namespace Heap

variable {h h' : Heap} {target : ListId} {v c : Value}

/-- A copy and its source are structurally equal, both ways, however they share and cycle. The keys
of the mappings that are copied have to be unequal and to have the digests that they were entered
with, and none may be a container or a function that is copied. -/
theorem copy_deepEquals_source (possible : h.Possible) (valid : target.number < h.lists.size)
    (recognizable : h.Recognizable [v]) (copied : copyValue target v h = .ok c h') :
    h'.deepEquals c v = true ∧ h'.deepEquals v c = true := by
  have ends := CopyM.copy_ends recognizable.refers (h.cells.size + 1) v { heap := h }
    (.start possible.sound.consistent valid) (.inl (by simp)) (by simp)
  change Ends _ _ (CopyM.copyValue target v { heap := h }) at ends
  unfold copyValue at copied
  revert ends
  split at copied
  · rename_i s ran
    cases copied
    rw [ran]
    rintro ⟨underway, grows, sends⟩
    have alike := fun x y => Copying.Underway.matched_alike (v := x) (c := y) underway
      possible.upToDate recognizable grows
    have matched : Copying.Underway.Matched h [v] s v c := ⟨.inl (by simp), sends⟩
    constructor
    · exact Bisimilar.deepEquals ⟨_, fun y x matched => (alike x y matched).2, matched⟩
    · exact Bisimilar.deepEquals ⟨_, fun x y matched => (alike x y matched).1, matched⟩
  · cases copied

instance : (v : Value) → Decidable v.Comparable
  | .real r => decidable_of_iff (r.isNaN = false) (by simp [Value.Comparable])
  | .nil | .integer _ | .object _ | .ref _ => isTrue (by simp [Value.Comparable])

instance (h : Heap) : (v : Value) → Decidable (h.Portable v)
  | .ref r => decidable_of_iff (h.unowned r.id = true ∨ r.kind = .string ∨ r.kind = .buffer)
      (by simp [Portable])
  | .nil | .integer _ | .real _ | .object _ => isTrue (by simp [Portable])

theorem possible_knot : knot.Possible := by
  refine .tail (.tail ?_ (.write _ 0 _)) (.write _ 1 _)
  refine .tail ?_ (.create _ (.string "key") true false)
  refine .trans ?_ (place_changes (by decide +kernel) (.buffer ⟨[1], none⟩))
  refine .trans ?_ (place_changes (by decide +kernel) (.mapping []))
  refine .trans ?_ (place_changes (by decide +kernel) (.array []))
  exact .tail (.single (.newList {})) (.newList _)

theorem recognizable_knot : knot.Recognizable [.ref ⟨.array, 0⟩] := by
  have met : ∀ v, knot.Met [.ref ⟨.array, 0⟩] v → knot.Refers v ∧ v.Comparable := by
    have held : ∀ id < 4, ∀ v ∈ Marking.childrenOf knot id, knot.Refers v ∧ v.Comparable := by
      decide +kernel
    rintro v (mem | ⟨id, -, isHeld⟩)
    · obtain rfl := mem_singleton.mp mem
      decide +kernel
    · exact held id (within_of_holds isHeld) v (mem_childrenOf.mpr isHeld)
  refine ⟨fun v isMet => (met v isMet).1, fun v isMet => (met v isMet).2, ?_,
    fun id entries _ => forall_mapping (P := knot.Filed) (by decide +kernel) id entries,
    fun id entries _ => forall_mapping (P := fun entries => ∀ e ∈ entries, knot.Portable e.key)
      (by decide +kernel) id entries⟩
  rintro v - r b rfl - found
  have others : ∀ id < 4, id ≠ 2 → (knot.payload? id).map Payload.kind ≠ some .buffer := by
    decide +kernel
  have within : r.id < 4 := within_of_live (h := knot) (by rw [live, found]; rfl)
  have only : r.id = 2 := by
    by_contra other
    exact others r.id within other (by rw [found]; rfl)
  have plain : knot.payload? 2 = some (.buffer ⟨[1], none⟩) := rfl
  rw [only, plain] at found
  cases found
  rfl

theorem copy_deepEquals_source_knot : knot.Possible ∧ knot.Recognizable [.ref ⟨.array, 0⟩] ∧
    ∃ c h', copyValue ⟨1⟩ (.ref ⟨.array, 0⟩) knot = .ok c h' ∧ c ≠ .ref ⟨.array, 0⟩ ∧
      h'.deepEquals c (.ref ⟨.array, 0⟩) = true ∧ h'.deepEquals (.ref ⟨.array, 0⟩) c = true := by
  have outcome : (match copyValue ⟨1⟩ (.ref ⟨.array, 0⟩) knot with
      | .ok c _ => decide (c ≠ .ref ⟨.array, 0⟩)
      | .error _ _ => false) = true := by decide +kernel
  refine ⟨possible_knot, recognizable_knot, ?_⟩
  split at outcome
  · rename_i c h' copied
    exact ⟨c, h', copied, of_decide_eq_true outcome,
      copy_deepEquals_source possible_knot (by decide +kernel) recognizable_knot copied⟩
  · cases outcome

def boxed : HeapM Value := do
  let key ← HeapM.place ⟨0⟩ (.array [])
  let mapping ← HeapM.place ⟨0⟩ (.mapping [])
  HeapM.mappingInsert mapping key (.integer 1)
  return mapping

/-- The array is copied to another array, which is another key. -/
theorem copy_not_deepEquals_source : ∃ m h c h', boxed paired = .ok m h ∧
    copyValue ⟨1⟩ m h = .ok c h' ∧ h'.deepEquals c m = false ∧ h'.deepEquals m c = false := by
  have outcome : (match boxed paired with
      | .ok m h =>
        match copyValue ⟨1⟩ m h with
        | .ok c h' => decide (h'.deepEquals c m = false ∧ h'.deepEquals m c = false)
        | .error _ _ => false
      | .error _ _ => false) = true := by decide +kernel
  split at outcome
  · rename_i m h made
    split at outcome
    · rename_i c h' copied
      exact ⟨m, h, c, h', made, copied, of_decide_eq_true outcome⟩
    · cases outcome
  · cases outcome

end Heap

end Tenancy
