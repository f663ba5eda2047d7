import Tenancy.Proofs.Heap.Kinship
import Tenancy.Proofs.Heap.Twin

/-!
Copies on twin heaps.

While values are copied, what was there before them holds what it held. So the copies of clean values
are the same on twins, and they are local to the list that takes them.
-/

namespace Tenancy

open Tenancy.Action Coupling Heap

/-! ### Actions on twin heaps -/

/-- Twin heaps, whose changes leave sealed what is sealed. -/
def Heap.coupling (S : ListId) (G : Nat → Prop) : Coupling Heap where
  Related := Twin S G
  Leads := Respects S G
  refl := .refl S G
  trans := .trans

variable {S l : ListId} {G : Nat → Prop} {h h1 h2 : Heap} {v container key value : Value}

theorem Heap.Suits.owned (suits : h.Suits G l (.ref r))
    (writable : h.constant r.id = false) : h.owner? r.id = some l := by
  rcases suits.isLocal with steady | ⟨s, same, owned⟩
  · rw [steady.constant] at writable
    simp at writable
  · cases same
    exact owned

/-- Code that puts payloads into a list uses what is local to the list. -/
def Heap.kinship (S l : ListId) (G : Nat → Prop) : Kinship G l where
  toCoupling := coupling S G
  Fits h v := h.Suits G l v
  agree twin := twin.toAgree
  closed twin kept held := twin.closed _ _ kept held
  avoids suits := suits.avoids
  scalar := suits_of_ref?
  keep leads suits := suits.keep leads.toKeeps
  place {h1 h2 payload} twin valid holds := by
    obtain ⟨related, leads⟩ := twin.place valid holds
    refine ⟨related, leads, .inr ⟨_, rfl, (extended_place h1 l payload).owner?_new⟩, ?_⟩
    rintro r same inG
    cases same
    exact Nat.lt_irrefl _ (twin.within _ inG)
  write payload twin suits holds := twin.write _ payload fun v held =>
    (holds v held).imp_right fun ⟨writable, new⟩ =>
      ⟨new.avoids, l, suits.owned writable, new.isLocal⟩
  note twin avoids := twin.note avoids
  forgetDigest twin _ := twin.forgetDigest _

theorem HeapM.place_couples (twin : h1.Twin S G h2) (valid : l.number < h1.lists.size)
    (holds : ∀ v, payload.Holds v → h1.Suits G l v) :
    (coupling S G).Couples h1 h2 (fun v h => h.Suits G l v) (place l payload) (place l payload) :=
  (kinship S l G).place_couples twin valid holds

/-! ### Copies -/

variable {S t l : ListId} {G : Nat → Prop} {h h' h'' h0 h1 h2 : Heap} {s1 s2 : Copying} {n id : Nat}
  {v : Value}

/-- What is local to a guarded list is clean. -/
theorem Heap.Twin.clean (twin : Twin S G h1 h2) (guarded : l ≠ S) (suits : h1.Suits G l v) :
    h1.Clean v := by
  have reached : ∀ id, h1.Accessible v id → ∃ r : Ref, r.id = id ∧ h1.Suits G l (.ref r) := by
    intro id accessible
    induction accessible with
    | @here r same => exact ⟨r, rfl, same ▸ suits⟩
    | @within id r _ held ih =>
      obtain ⟨parent, rfl, suits⟩ := ih
      exact ⟨r, rfl, twin.child guarded suits held⟩
  intro id accessible
  obtain ⟨r, rfl, suits⟩ := reached id accessible
  rcases suits.isLocal with steady | ⟨s, same, owned⟩
  · obtain ⟨a, seen⟩ := Option.isSome_iff_exists.mp
      (aspect?_isSome.mpr (within_of_constant steady.constant))
    have constant : a.constant = true := by
      have := steady.constant
      rwa [constant_eq, seen] at this
    exact ⟨a, seen, fun _ => constant, fun _ _ held => (steady.child held).constant⟩
  · cases same
    obtain ⟨a, seen⟩ := Option.isSome_iff_exists.mp (aspect?_isSome.mpr (within_of_owner? owned))
    have ownable : a.unowned = false := by
      have := twin.first.consistent.not_unowned owned
      rwa [unowned_eq, seen] at this
    refine ⟨a, seen, fun unowned => ?_, fun constant => ?_⟩
    · simp [ownable] at unowned
    · simp [Aspect.unowned, constant] at ownable

/-- Copying on twins into the list `t`, of values in `h0`. -/
structure Copying.Alike (S : ListId) (G : Nat → Prop) (t : ListId) (h0 : Heap) (s1 s2 : Copying) :
    Prop where
  twin : s1.heap.Twin S G s2.heap
  memo : s2.memo = s1.memo
  copies : ∀ e ∈ s1.memo, s1.heap.Suits G t e.2
  respects : h0.Respects S G s1.heap
  sources : ∀ id < h0.cells.size, s1.heap.contents? id = h0.contents? id
  valid : t.number < s1.heap.lists.size

def Copying.coupling (S : ListId) (G : Nat → Prop) (t : ListId) (h0 : Heap) : Coupling Copying where
  Related := Copying.Alike S G t h0
  Leads s s' := s.heap.Respects S G s'.heap
  refl s := .refl S G s.heap
  trans := .trans

namespace CopyM

section

variable (alike : Copying.Alike S G t h0 s1 s2)
include alike

theorem onHeap_couples (couples : (coupling S G).Couples s1.heap s2.heap Q act act)
    (moves : (adding t h0.cells.size).Moves act) :
    (Copying.coupling S G t h0).Couples s1 s2 (fun a s => Q a s.heap) (onHeap act) (onHeap act) := by
  have next : ∀ {k1 k2 : Heap}, k1.Twin S G k2 → s1.heap.Respects S G k1 →
      s1.heap.Adds t h0.cells.size k1 →
      Copying.Alike S G t h0 { s1 with heap := k1 } { s2 with heap := k2 } := by
    intro k1 k2 twin respects adds
    exact ⟨twin, alike.memo, fun e mem => (alike.copies e mem).keep respects.toKeeps,
      alike.respects.trans respects,
      fun id below => (adds.old id below).trans (alike.sources id below),
      alike.valid.trans_le respects.lists⟩
  have adds := moves s1.heap ⟨⟨alike.twin.first, alike.valid⟩, alike.respects.cells⟩
  unfold Couples at couples ⊢
  unfold onHeap
  generalize act s1.heap = r1 at couples adds
  generalize act s2.heap = r2 at couples
  cases couples with
  | ok twin respects result => exact .ok (next twin respects adds) respects result
  | error twin respects => exact .error (next twin respects adds) respects

theorem remember_couples (source : Nat) (suits : s1.heap.Suits G t v) :
    (Copying.coupling S G t h0).Couples s1 s2 (fun _ s => s.heap = s1.heap) (remember source v)
      (remember source v) := by
  refine .ok ⟨alike.twin, congrArg ((source, v) :: ·) alike.memo, ?_, alike.respects, alike.sources,
    alike.valid⟩
    (.refl S G _) rfl
  intro e mem
  rcases List.mem_cons.mp mem with rfl | before
  · exact suits
  · exact alike.copies e before

theorem place_couples (payload : Payload) (empty : ∀ v, ¬ payload.Holds v) :
    (Copying.coupling S G t h0).Couples s1 s2
      (fun c s => s.heap.Suits G t c ∧ ∃ id, c = .ref ⟨payload.kind, id⟩ ∧ h0.cells.size ≤ id)
      (onHeap (HeapM.place t payload)) (onHeap (HeapM.place t payload)) := by
  have above := alike.respects.cells
  refine Meets.and (onHeap_couples alike (HeapM.place_couples alike.twin alike.valid
    fun v held => absurd held (empty v)) fun h => (adding_crafts t _).place h payload) ?_
  rintro c s' placed
  cases placed
  exact ⟨_, rfl, above⟩

theorem begin_couples (payload : Payload) : (Copying.coupling S G t h0).Couples s1 s2
      (fun c s => s.heap.Suits G t c ∧ ∃ id, c = .ref ⟨payload.kind, id⟩ ∧ h0.cells.size ≤ id)
      (begin t payload) (begin t payload) := by
  cases payload with
  | array items =>
    refine place_couples alike (.array []) fun v held => ?_
    cases held with
    | item mem => simp at mem
  | mapping entries =>
    refine place_couples alike (.mapping []) fun v held => ?_
    cases held with
    | key mem | value mem => simp at mem
  | string text => exact place_couples alike (.string text) (by rintro v ⟨⟩)
  | function object name => exact place_couples alike (.function object name) (by rintro v ⟨⟩)
  | buffer b =>
    have above := alike.respects.cells
    obtain ⟨recorded, respects⟩ := alike.twin.record .copied b
    have valid : t.number < (s1.heap.record .copied b).lists.size :=
      alike.valid.trans_le respects.lists
    have made : (coupling S G).Couples s1.heap s2.heap (fun c h => h.Suits G t c)
        (do modify (·.record .copied b); HeapM.place t (.buffer b.duplicate))
        (do modify (·.record .copied b); HeapM.place t (.buffer b.duplicate)) :=
      Meets.after (HeapM.place_couples recorded valid (by rintro v ⟨⟩)) respects
    have crafts := adding_crafts t h0.cells.size
    refine Meets.and (onHeap_couples alike made fun h ready => ?_) ?_
    · have recorded := crafts.record h .copied b ready
      exact Motion.trans _ recorded (crafts.place _ _ (Motion.ready _ ready recorded))
    · rintro c s' placed
      cases placed
      exact ⟨_, rfl, by simpa using above⟩

theorem copy_couples (clean : h0.Clean v) (avoids : v.Avoids G) (fuel : Nat) :
    (Copying.coupling S G t h0).Couples s1 s2 (fun c s => s.heap.Suits G t c) (copy t fuel v)
      (copy t fuel v) := by
  induction fuel generalizing s1 s2 v with
  | zero => exact couples_throw alike _
  | succ fuel ih =>
    unfold copy
    split
    case h_2 scalar =>
      refine couples_pure alike (suits_of_ref? ?_)
      cases v with
      | ref r => exact absurd rfl (scalar r)
      | nil | integer _ | real _ | object _ => rfl
    rename_i r
    have kept := avoids r rfl
    have within : r.id < h0.cells.size := by
      obtain ⟨a, seen, -⟩ := clean r.id (.here rfl)
      exact aspect?_isSome.mp (by simp [seen])
    refine couples_get_bind ?_
    rw [alike.twin.unowned_eq kept, alike.twin.payload?_eq kept, alike.memo]
    split
    · rename_i unowned
      rw [unowned_of_contents (alike.sources r.id within)] at unowned
      exact couples_pure alike ⟨.inl ((clean.steady unowned).keep alike.respects.toKeeps), avoids⟩
    split
    · rename_i done found
      obtain ⟨before, after, split, -⟩ := List.lookup_eq_some_iff.mp found
      exact couples_pure alike (alike.copies (r.id, done) (by simp [split]))
    split
    · exact couples_throw alike _
    rename_i payload live
    have held : ∀ v, payload.Holds v → h0.Clean v ∧ v.Avoids G := by
      intro v held
      refine ⟨fun id accessible => clean id (.child ⟨payload, ?_, held⟩ accessible),
        alike.twin.closed r.id v kept ⟨payload, live, held⟩⟩
      rw [← payload?_of_contents (alike.sources r.id within)]
      exact live
    refine (begin_couples alike payload).bind ?_
    rintro c t1 t2 alike - ⟨suits, id, rfl, above⟩
    refine (remember_couples alike r.id suits).bind ?_
    rintro - u1 u2 alike - same
    have suits : u1.heap.Suits G t (.ref ⟨payload.kind, id⟩) := same ▸ suits
    cases payload with
    | string _ | buffer _ | function _ _ => exact couples_pure alike suits
    | array items =>
      refine Couples.bind (couples_forM (I := fun s => s.heap.Suits G t (.ref ⟨.array, id⟩)) alike suits
        fun item mem x1 x2 alike _ suits => ?_) fun _ y1 y2 alike _ suits => couples_pure alike suits
      obtain ⟨clean, avoids⟩ := held item (.item mem)
      refine (ih alike clean avoids).bind fun copied y1 y2 alike leads suitsItem => ?_
      have suits := suits.keep leads.toKeeps
      exact Meets.mono (onHeap_couples alike
        ((kinship S t G).arrayPush_couples alike.twin suits suitsItem)
        ((adding_crafts t _).shapes.updateArray_moves above _))
        fun _ _ leads _ => suits.keep leads.toKeeps
    | mapping entries =>
      refine Couples.bind (couples_forM (I := fun s => s.heap.Suits G t (.ref ⟨.mapping, id⟩)) alike suits
        fun e mem x1 x2 alike _ suits => ?_) fun _ y1 y2 alike _ suits => couples_pure alike suits
      obtain ⟨cleanKey, avoidsKey⟩ := held e.key (.key mem)
      obtain ⟨cleanValue, avoidsValue⟩ := held e.value (.value mem)
      refine (ih alike cleanKey avoidsKey).bind fun key y1 y2 alike leads suitsKey => ?_
      refine (ih alike cleanValue avoidsValue).bind fun value z1 z2 alike leads' suitsValue => ?_
      have suits := suits.keep (leads.trans leads').toKeeps
      exact Meets.mono (onHeap_couples alike
        ((kinship S t G).mappingInsert_couples alike.twin suits (suitsKey.keep leads'.toKeeps)
          suitsValue) ((adding_crafts t _).shapes.mappingInsert_moves above key value))
        fun _ _ leads _ => suits.keep leads.toKeeps

end

end CopyM

/-- Copies of clean values are local to the list that takes them. -/
theorem Heap.copyAll_couples (twin : h1.Twin S G h2) (valid : t.number < h1.lists.size)
    (clean : ∀ v ∈ values, h1.Clean v ∧ v.Avoids G) :
    (coupling S G).Couples h1 h2 (fun copies h => ∀ c ∈ copies, h.Suits G t c) (copyAll t values)
      (copyAll t values) := by
  have alike : Copying.Alike S G t h1 { heap := h1 } { heap := h2 } :=
    ⟨twin, rfl, by simp, .refl S G h1, fun _ _ => rfl, valid⟩
  have copied : (Copying.coupling S G t h1).Couples { heap := h1 } { heap := h2 }
      (fun copies s => ∀ c ∈ copies, s.heap.Suits G t c) (values.mapM (CopyM.copyValue t))
      (values.mapM (CopyM.copyValue t)) := by
    refine couples_mapM alike (fun c s s' leads suits => suits.keep leads.toKeeps)
      fun v mem s1 s2 alike _ => ?_
    have copied := CopyM.copy_couples alike (clean v mem).1 (clean v mem).2 (s1.heap.cells.size + 1)
    unfold Couples CopyM.copyValue
    rw [alike.twin.cells]
    exact copied
  unfold Couples copyAll
  unfold Couples at copied
  generalize values.mapM (CopyM.copyValue t) { heap := h1 } = r1 at copied
  generalize values.mapM (CopyM.copyValue t) { heap := h2 } = r2 at copied
  cases copied with
  | ok alike respects suits => exact .ok alike.twin respects suits
  | error alike respects => exact .error alike.twin respects

theorem Heap.copyValue_couples (twin : h1.Twin S G h2) (valid : t.number < h1.lists.size)
    (clean : h1.Clean v) (avoids : v.Avoids G) :
    (coupling S G).Couples h1 h2 (fun c h => h.Suits G t c) (copyValue t v) (copyValue t v) := by
  have alike : Copying.Alike S G t h1 { heap := h1 } { heap := h2 } :=
    ⟨twin, rfl, by simp, .refl S G h1, fun _ _ => rfl, valid⟩
  have copied := CopyM.copy_couples alike clean avoids (h1.cells.size + 1)
  unfold Couples copyValue CopyM.copyValue
  rw [twin.cells]
  unfold Couples at copied
  generalize CopyM.copy t (h1.cells.size + 1) v { heap := h1 } = r1 at copied
  generalize CopyM.copy t (h1.cells.size + 1) v { heap := h2 } = r2 at copied
  cases copied with
  | ok alike respects suits => exact .ok alike.twin respects suits
  | error alike respects => exact .error alike.twin respects

end Tenancy
