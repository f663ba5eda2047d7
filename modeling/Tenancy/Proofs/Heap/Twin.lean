import Tenancy.Heap.Render
import Tenancy.Proofs.Heap.Lawful

/-!
Two heaps that differ only in what nobody needs.

Twin heaps agree on all payloads but some. No other payload holds one of these, and what a guarded
list owns, it holds local values only. Such heaps are read in the same way, and a change that is made
to both leaves them twins. One heap may be twin to itself; then its domains are isolated.
-/

namespace Tenancy

namespace Heap

variable {S l : ListId} {G : Nat → Prop} {h1 h2 h1' h2' : Heap} {v : Value} {id : Nat}

/-- Heaps that agree outside of `G`, on the lists that are guarded from `S`. -/
structure Twin (S : ListId) (G : Nat → Prop) (h1 h2 : Heap) : Prop extends Agree G h1 h2 where
  first : h1.Sound
  second : h2.Sound
  lists : h2.lists.size = h1.lists.size
  within : ∀ id, G id → id < h1.cells.size
  closed : ∀ id v, ¬ G id → h1.Holds id v → v.Avoids G
  inside : ∀ id l v, ¬ G id → h1.owner? id = some l → l ≠ S → h1.Holds id v → h1.Local l v
  apart : ∀ id, G id → h1.Guarded S id → ¬ h2.Guarded S id

/-- The value is local to the list, and both heaps have it. -/
structure Suits (h : Heap) (G : Nat → Prop) (l : ListId) (v : Value) : Prop where
  isLocal : h.Local l v
  avoids : v.Avoids G

theorem suits_of_ref? (scalar : v.ref? = none) : h1.Suits G l v :=
  ⟨.inl fun _ accessible => absurd accessible (not_accessible scalar), Value.avoids_of_ref? scalar⟩

theorem Suits.keep (suits : h1.Suits G l v) (keeps : h1.Keeps h1') : h1'.Suits G l v :=
  ⟨suits.isLocal.keep keeps, suits.avoids⟩

namespace Twin

section

variable (twin : Twin S G h1 h2)
include twin

theorem kept_of_accessible (avoids : v.Avoids G) (accessible : h1.Accessible v id) : ¬ G id :=
  Heap.kept_of_accessible twin.closed avoids accessible

theorem accessible_iff (avoids : v.Avoids G) : h2.Accessible v id ↔ h1.Accessible v id := by
  constructor
  · intro accessible
    induction accessible with
    | here same => exact .here same
    | within _ held ih =>
      exact .within ih ((twin.holds_iff (twin.kept_of_accessible avoids ih)).mp held)
  · intro accessible
    induction accessible with
    | here same => exact .here same
    | within before held ih =>
      exact .within ih ((twin.holds_iff (twin.kept_of_accessible avoids before)).mpr held)

theorem steady_iff (avoids : v.Avoids G) : h2.Steady v ↔ h1.Steady v := by
  refine forall_congr' fun id => ?_
  rw [twin.accessible_iff avoids]
  refine imp_congr_right fun accessible => ?_
  rw [twin.constant_eq (twin.kept_of_accessible avoids accessible)]

theorem local_iff (avoids : v.Avoids G) : h2.Local l v ↔ h1.Local l v := by
  refine or_congr (twin.steady_iff avoids) (exists_congr fun r => and_congr_right fun same => ?_)
  rw [twin.owner?_eq (avoids r same)]

theorem suits_iff : h2.Suits G l v ↔ h1.Suits G l v :=
  ⟨fun suits => ⟨(twin.local_iff suits.avoids).mp suits.isLocal, suits.avoids⟩,
    fun suits => ⟨(twin.local_iff suits.avoids).mpr suits.isLocal, suits.avoids⟩⟩

theorem symm : Twin S G h2 h1 where
  first := twin.second
  second := twin.first
  cells := twin.cells.symm
  lists := twin.lists.symm
  within id listed := twin.cells ▸ twin.within id listed
  agree id kept := (twin.agree id kept).symm
  closed id v kept held := twin.closed id v kept ((twin.holds_iff kept).mp held)
  inside id l v kept owned guarded held := by
    have held := (twin.holds_iff kept).mp held
    rw [twin.owner?_eq kept] at owned
    exact (twin.local_iff (twin.closed id v kept held)).mpr (twin.inside id l v kept owned guarded held)
  apart id listed guarded other := twin.apart id listed other guarded

/-- What a local value holds is local. -/
theorem child (guarded : l ≠ S) (suits : h1.Suits G l (.ref r))
    (held : h1.Holds r.id v) : h1.Suits G l v := by
  have kept := suits.avoids r rfl
  refine ⟨?_, twin.closed r.id v kept held⟩
  rcases suits.isLocal with steady | ⟨s, same, owned⟩
  · exact .inl (steady.child held)
  · cases same
    exact twin.inside r.id l v kept owned guarded held

end

theorem diagonal (twin : Twin S G h1 h1) : Twin S (fun _ => False) h1 h1 where
  first := twin.first
  second := twin.second
  cells := rfl
  lists := rfl
  within _ listed := listed.elim
  agree _ _ := rfl
  closed _ _ _ _ _ _ := id
  inside id l v _ owned guarded held := by
    refine twin.inside id l v (fun listed => ?_) owned guarded held
    exact twin.apart id listed ⟨l, owned, guarded⟩ ⟨l, owned, guarded⟩
  apart _ listed := listed.elim

section

variable (twin : Twin S G h1 h2) (avoids : v.Avoids G)
include twin avoids

theorem render_eq (fuel : Nat) (nested : Bool)
    (path : List Nat) : h2.render fuel nested path v = h1.render fuel nested path v := by
  induction fuel generalizing nested path v with
  | zero => rfl
  | succ fuel ih =>
    unfold render
    split <;> try rfl
    rename_i r
    have kept := avoids r rfl
    rw [twin.payload?_eq kept]
    split <;> try rfl
    · rename_i items found
      have same : ∀ item ∈ items, h2.render fuel true (r.id :: path) item =
          h1.render fuel true (r.id :: path) item :=
        fun item held => ih (twin.closed r.id item kept ⟨_, found, .item held⟩) true _
      rw [List.map_congr_left same]
    · rename_i entries found
      have same : ∀ e ∈ entries,
          h2.render fuel true (r.id :: path) e.key ++ ": " ++ h2.render fuel true (r.id :: path) e.value =
            h1.render fuel true (r.id :: path) e.key ++ ": "
              ++ h1.render fuel true (r.id :: path) e.value := by
        intro e entry
        rw [ih (twin.closed r.id e.key kept ⟨_, found, .key entry⟩) true _,
          ih (twin.closed r.id e.value kept ⟨_, found, .value entry⟩) true _]
      rw [List.map_congr_left same]

theorem describe_eq : h2.describe v = h1.describe v := by
  unfold describe
  rw [twin.cells, twin.render_eq avoids]

theorem text_eq : h2.text v = h1.text v := by
  unfold text
  rw [twin.cells, twin.render_eq avoids]

end

theorem mapped {f : Nat → Aspect → Aspect} (twin : Twin S G h1 h2) (first : h1'.Sound)
    (second : h2'.Sound) (seen : ∀ i, h1'.aspect? i = (h1.aspect? i).map (f i))
    (seenToo : ∀ i, h2'.aspect? i = (h2.aspect? i).map (f i)) (lists : h1'.lists = h1.lists)
    (listsToo : h2'.lists = h2.lists) (owner : ∀ i a, (f i a).owner = a.owner)
    (constant : ∀ i a, (f i a).constant = a.constant) (holds : ∀ i v, h1'.Holds i v → h1.Holds i v ∨
      v.Avoids G ∧ ∃ l, h1.owner? i = some l ∧ h1.Local l v) :
    Twin S G h1' h2' ∧ h1.Respects S G h1' := by
  have respects : h1.Respects S G h1' :=
    respects_of_mapped S G twin.first.consistent seen lists owner constant fun i v held =>
      (holds i v held).imp_right And.right
  have owners := owner?_eq_of_mapped seen owner
  refine ⟨?_, respects⟩
  exact {
    first := first
    second := second
    cells := by rw [size_eq_of_mapped seen, size_eq_of_mapped seenToo, twin.cells]
    lists := by rw [lists, listsToo, twin.lists]
    within := fun i listed => size_eq_of_mapped seen ▸ twin.within i listed
    agree := fun i kept => by rw [seen, seenToo, twin.agree i kept]
    closed := fun i v kept held => by
      rcases holds i v held with before | ⟨avoids, -⟩
      · exact twin.closed i v kept before
      · exact avoids
    inside := fun i l v kept owned ne held => by
      rw [owners] at owned
      rcases holds i v held with before | ⟨-, l', owned', isLocal⟩
      · exact (twin.inside i l v kept owned ne before).keep respects.toKeeps
      · obtain rfl : l' = l := Option.some.inj (owned'.symm.trans owned)
        exact isLocal.keep respects.toKeeps
    apart := fun i listed => by
      unfold Guarded
      rw [owners, owner?_eq_of_mapped seenToo owner]
      exact twin.apart i listed }

section

variable (twin : Twin S G h1 h2)
include twin

theorem extended (first : h1'.Sound) (second : h2'.Sound)
    (more : h1.Extended a h1') (moreToo : h2.Extended a h2')
    (holds : ∀ p v, a.payload = some p → p.Holds v →
      v.Avoids G ∧ ∀ l, a.owner = some l → l ≠ S → h1.Local l v) : Twin S G h1' h2' where
  first := first
  second := second
  cells := by rw [more.cells, moreToo.cells, twin.cells]
  lists := by rw [more.lists, moreToo.lists, twin.lists]
  within id listed := by
    rw [more.cells]
    exact Nat.lt_succ_of_lt (twin.within id listed)
  agree id kept := by rw [more.seen, moreToo.seen, twin.cells, twin.agree id kept]
  closed id v kept held := by
    by_cases old : id = h1.cells.size
    · subst old
      obtain ⟨p, isPayload, held⟩ := more.holds_new.mp held
      exact (holds p v isPayload held).1
    · exact twin.closed id v kept ((more.holds_old old).mp held)
  inside id l v kept owned ne held := by
    refine Local.keep ?_ more.keeps
    by_cases old : id = h1.cells.size
    · subst old
      obtain ⟨p, isPayload, held⟩ := more.holds_new.mp held
      exact (holds p v isPayload held).2 l (more.owner?_new.symm.trans owned) ne
    · rw [more.owner?_old old] at owned
      exact twin.inside id l v kept owned ne ((more.holds_old old).mp held)
  apart id listed := by
    have old := twin.within id listed
    unfold Guarded
    rw [more.owner?_old old.ne, moreToo.owner?_old (by rw [twin.cells]; exact old.ne)]
    exact twin.apart id listed

theorem write (id : Nat) (payload : Payload) (holds : ∀ v, payload.Holds v → h1.Holds id v ∨
      v.Avoids G ∧ ∃ l, h1.owner? id = some l ∧ h1.Local l v) :
    Twin S G (h1.write id payload) (h2.write id payload) ∧
      h1.Respects S G (h1.write id payload) := by
  refine twin.mapped ((Change.write h1 id payload).sound twin.first)
    ((Change.write h2 id payload).sound twin.second) (aspect?_write h1 id payload)
    (aspect?_write h2 id payload) rfl rfl (fun i a => ?_) (fun i a => ?_) fun i v held => ?_
  · split <;> rfl
  · split <;> rfl
  · rcases holds_of_write held with ⟨rfl, new⟩ | before
    · exact holds v new
    · exact .inl before

theorem note (avoids : v.Avoids G) :
    Twin S G (h1.note v) (h2.note v) ∧ h1.Respects S G (h1.note v) := by
  have seenToo := aspect?_note h2 v
  rw [twin.digest_eq avoids] at seenToo
  refine twin.mapped ((Change.note h1 v).sound twin.first) ((Change.note h2 v).sound twin.second)
    (aspect?_note h1 v) seenToo (lists_note h1 v) (lists_note h2 v) (fun i a => ?_) (fun i a => ?_)
    fun i u held => .inl ?_
  · split <;> rfl
  · split <;> rfl
  · unfold Holds at *
    rwa [payload?_note] at held

theorem forgetDigest (id : Nat) :
    Twin S G (h1.forgetDigest id) (h2.forgetDigest id) ∧ h1.Respects S G (h1.forgetDigest id) := by
  refine twin.mapped ((Change.forgetDigest h1 id).sound twin.first)
    ((Change.forgetDigest h2 id).sound twin.second) (aspect?_forgetDigest h1 id)
    (aspect?_forgetDigest h2 id) rfl rfl (fun i a => ?_) (fun i a => ?_) fun i u held => .inl ?_
  · split <;> rfl
  · split <;> rfl
  · unfold Holds at *
    rwa [payload?_forgetDigest] at held

theorem record (stage : Stage) (b : Buffer) :
    Twin S G (h1.record stage b) (h2.record stage b) ∧ h1.Respects S G (h1.record stage b) := by
  refine twin.mapped (f := fun _ a => a) ((Change.record h1 stage b).sound twin.first)
    ((Change.record h2 stage b).sound twin.second) (fun i => by simp) (fun i => by simp)
    (lists_record h1 stage b) (lists_record h2 stage b) (fun _ _ => rfl) (fun _ _ => rfl)
    fun i u held => .inl ?_
  unfold Holds at *
  rwa [Heap.payload?_eq, aspect?_record, ← Heap.payload?_eq] at held

theorem place (valid : l.number < h1.lists.size) (holds : ∀ v, payload.Holds v → h1.Suits G l v) :
    Twin S G (h1.place l payload).2 (h2.place l payload).2 ∧
      h1.Respects S G (h1.place l payload).2 := by
  refine ⟨twin.extended (Changes.sound (place_changes valid payload) twin.first)
    (Changes.sound (place_changes (twin.lists ▸ valid) payload) twin.second) (extended_place h1 l payload)
    (extended_place h2 l payload) ?_, (extended_place h1 l payload).respects twin.first.consistent ?_⟩
  · rintro p v isPayload held
    cases isPayload
    refine ⟨(holds v held).avoids, ?_⟩
    rintro l' owned -
    cases owned
    exact (holds v held).isLocal
  · rintro p v isPayload held
    cases isPayload
    exact .inl ⟨l, rfl, (holds v held).isLocal⟩

end

end Twin

end Heap

end Tenancy
