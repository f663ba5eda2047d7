import Tenancy.Proofs.Heap.Twin

/-!
Twins when whole lists change.

What is on its way between two domains moves into the list of one of them, or is freed in both heaps.
A collection concerns one heap only: what it frees is of no further need, and neither is what leads
there from outside.
-/

namespace Tenancy

open Option Aspect

namespace Heap

variable {S l target source : ListId} {G : Nat → Prop} {h h' h1 h2 : Heap} {v : Value} {id : Nat}

/-! ### Moving a list -/

section Append

variable (sane : h.Consistent)

include sane

theorem payload?_append (target source : ListId) (id : Nat) :
    (h.append target source).payload? id = h.payload? id := by
  rw [payload?_eq, payload?_eq, sane.aspect?_append]
  cases h.aspect? id with
  | none => rfl
  | some a =>
    simp only [map_some, bind_some, moved]
    split <;> rfl

theorem owner?_append (target source : ListId) (id : Nat) : (h.append target source).owner? id =
      if h.owner? id = some source then some target else h.owner? id := by
  rw [owner?_eq, owner?_eq, sane.aspect?_append]
  cases h.aspect? id with
  | none => simp
  | some a =>
    simp only [map_some, bind_some, moved]
    split <;> rfl

theorem holds_append : (h.append target source).Holds id v ↔ h.Holds id v := by
  unfold Holds
  rw [payload?_append sane]

theorem guarded_append (into : target ≠ S) (outOf : source ≠ S) :
    (h.append target source).Guarded S id ↔ h.Guarded S id := by
  unfold Guarded
  rw [owner?_append sane]
  split
  · rename_i owned
    simp [owned, into, outOf]
  · rfl

theorem Steady.append (steady : h.Steady v) : (h.append target source).Steady v := by
  refine steady.of_fixed (fun id isConstant => ?_) fun id v _ => (holds_append sane).mp
  rw [constant_eq] at *
  rw [sane.aspect?_append]
  cases seen : h.aspect? id with
  | none => simp [seen] at isConstant
  | some a =>
    simp only [seen, any_some] at isConstant
    simp only [map_some, any_some, moved]
    split <;> exact isConstant

theorem Local.append (isLocal : h.Local l v) (ne : l ≠ source) :
    (h.append target source).Local l v := by
  rcases isLocal with steady | ⟨r, rfl, owned⟩
  · exact .inl (steady.append sane)
  · refine .inr ⟨r, rfl, ?_⟩
    rw [owner?_append sane, owned, if_neg (by simpa using ne)]

theorem Local.moved (isLocal : h.Local source v) : (h.append target source).Local target v := by
  rcases isLocal with steady | ⟨r, rfl, owned⟩
  · exact .inl (steady.append sane)
  · refine .inr ⟨r, rfl, ?_⟩
    rw [owner?_append sane, if_pos owned]

end Append

theorem Twin.append (twin : Twin S G h1 h2) (valid : target.number < h1.lists.size)
    (into : target ≠ S) (outOf : source ≠ S) :
    Twin S G (h1.append target source) (h2.append target source) where
  first := twin.first.append valid source
  second := twin.second.append (twin.lists ▸ valid) source
  cells := by simp [twin.cells]
  lists := by simp [twin.lists]
  within id listed := by simpa using twin.within id listed
  agree id kept := by
    rw [twin.first.consistent.aspect?_append, twin.second.consistent.aspect?_append,
      twin.agree id kept]
  closed id v kept held := twin.closed id v kept ((holds_append twin.first.consistent).mp held)
  inside id l v kept owned ne held := by
    have sane := twin.first.consistent
    rw [holds_append sane] at held
    rw [owner?_append sane] at owned
    split at owned
    · rename_i before
      cases owned
      exact (twin.inside id source v kept before outOf held).moved sane
    · rename_i before
      refine (twin.inside id l v kept owned ne held).append sane ?_
      rintro rfl
      exact before owned
  apart id listed := by
    rw [guarded_append twin.first.consistent into outOf,
      guarded_append twin.second.consistent into outOf]
    exact twin.apart id listed

theorem Suits.moved (suits : h.Suits G source v) (sane : h.Consistent) :
    (h.append target source).Suits G target v :=
  ⟨suits.isLocal.moved sane, suits.avoids⟩

theorem Outside.append (outside : h.Outside S v) (sane : h.Consistent) (into : target ≠ S)
    (outOf : source ≠ S) : (h.append target source).Outside S v := by
  intro r same
  obtain ⟨within, unguarded⟩ := outside r same
  exact ⟨by simpa using within, by rwa [guarded_append sane into outOf]⟩

theorem Sealed.append (closed : h.Sealed S G) (sane : h.Consistent) (into : target ≠ S)
    (outOf : source ≠ S) : (h.append target source).Sealed S G := by
  intro id v kept unguarded held
  rw [guarded_append sane into outOf] at unguarded
  exact (closed id v kept unguarded ((holds_append sane).mp held)).append sane into outOf

/-! ### Freeing a list -/

section FreeAll

variable (sane : h.Consistent)

include sane

theorem owner?_freeAll (source : ListId) (id : Nat) : (h.freeAll source).owner? id =
    if h.owner? id = some source then none else h.owner? id := by
  rw [owner?_eq, owner?_eq, sane.aspect?_freeAll]
  cases h.aspect? id with
  | none => simp
  | some a =>
    simp only [map_some, bind_some, cleared]
    split <;> rfl

theorem owner?_of_freeAll (owned : (h.freeAll source).owner? id = some l) :
    h.owner? id = some l ∧ l ≠ source := by
  rw [owner?_freeAll sane] at owned
  split at owned
  · simp at owned
  · rename_i before
    refine ⟨owned, ?_⟩
    rintro rfl
    exact before owned

theorem holds_of_freeAll (held : (h.freeAll source).Holds id v) : h.Holds id v ∧
    h.owner? id ≠ some source := by
  obtain ⟨p, found, held⟩ := held
  rw [payload?_eq, sane.aspect?_freeAll] at found
  rw [owner?_eq]
  cases seen : h.aspect? id with
  | none => simp [seen] at found
  | some a =>
    simp only [seen, map_some, bind_some, cleared] at found
    split at found
    · simp [freed] at found
    · exact ⟨⟨p, by rw [payload?_eq, seen]; exact found, held⟩, by simpa⟩

theorem Steady.freeAll (steady : h.Steady v) : (h.freeAll source).Steady v := by
  refine steady.of_fixed (fun id isConstant => ?_) fun id v _ held =>
    (holds_of_freeAll sane held).1
  have unowned := sane.owner?_of_constant isConstant
  rw [constant_eq] at *
  rw [owner?_eq] at unowned
  rw [sane.aspect?_freeAll]
  cases seen : h.aspect? id with
  | none => simp [seen] at isConstant
  | some a =>
    simp only [seen, any_some, bind_some] at isConstant unowned
    simp [cleared, unowned, isConstant]

theorem Local.freeAll (isLocal : h.Local l v) (ne : l ≠ source) : (h.freeAll source).Local l v := by
  rcases isLocal with steady | ⟨r, rfl, owned⟩
  · exact .inl (steady.freeAll sane)
  · refine .inr ⟨r, rfl, ?_⟩
    rw [owner?_freeAll sane, owned, if_neg (by simpa using ne)]

theorem not_guarded_freeAll (unguarded : ¬ h.Guarded S id) : ¬ (h.freeAll source).Guarded S id := by
  rintro ⟨l, owned, guarded⟩
  exact unguarded ⟨l, (owner?_of_freeAll sane owned).1, guarded⟩

theorem Outside.freeAll (outside : h.Outside S v) : (h.freeAll source).Outside S v := by
  intro r same
  obtain ⟨within, unguarded⟩ := outside r same
  exact ⟨by simpa using within, not_guarded_freeAll sane unguarded⟩

theorem Sealed.freeAll (closed : h.Sealed S G) : (h.freeAll source).Sealed S G := by
  intro id v kept unguarded held
  obtain ⟨held, elsewhere⟩ := holds_of_freeAll sane held
  refine (closed id v kept ?_ held).freeAll sane
  rintro ⟨l, owned, ne⟩
  refine unguarded ⟨l, ?_, ne⟩
  rw [owner?_freeAll sane, if_neg elsewhere, owned]

end FreeAll

theorem Twin.freeAll (twin : Twin S G h1 h2) (source : ListId) :
    Twin S G (h1.freeAll source) (h2.freeAll source) where
  first := twin.first.freeAll source
  second := twin.second.freeAll source
  cells := by simp [twin.cells]
  lists := by simp [twin.lists]
  within id listed := by simpa using twin.within id listed
  agree id kept := by
    rw [twin.first.consistent.aspect?_freeAll, twin.second.consistent.aspect?_freeAll,
      twin.agree id kept]
  closed id v kept held := twin.closed id v kept (holds_of_freeAll twin.first.consistent held).1
  inside id l v kept owned guarded held := by
    have sane := twin.first.consistent
    obtain ⟨owned, ne⟩ := owner?_of_freeAll sane owned
    exact (twin.inside id l v kept owned guarded (holds_of_freeAll sane held).1).freeAll sane ne
  apart id listed guarded guardedToo := by
    have before := twin.apart id listed
    refine before ?_ ?_
    · by_contra unguarded
      exact not_guarded_freeAll twin.first.consistent unguarded guarded
    · by_contra unguarded
      exact not_guarded_freeAll twin.second.consistent unguarded guardedToo

/-! ### Collecting one of two heaps -/

/-- A payload of the list that the roots do not reach. -/
def Lost (h : Heap) (l : ListId) (roots : List Value) (id : Nat) : Prop :=
  h.owner? id = some l ∧ ¬ h.Reached l (· ∈ roots) id

/-- What is of no further need after a collection: what it frees, and what leads there from
outside. -/
inductive Spent (G : Nat → Prop) (S : ListId) (h : Heap) (l : ListId) (roots : List Value) :
    Nat → Prop where
  | before {id : Nat} : G id → Spent G S h l roots id
  | lost {id : Nat} : h.Lost l roots id → Spent G S h l roots id
  | adrift {id other : Nat} : ¬ h.Guarded S id → h.Accessible (.ref ⟨.array, id⟩) other →
      h.Lost l roots other → Spent G S h l roots id

section Collect

variable {roots : List Value}

theorem Consistent.not_constant_of_lost (sane : h.Consistent) (lost : h.Lost l roots id) :
    h.constant id = false := by
  by_contra isConstant
  have unowned := sane.owner?_of_constant (by simpa using isConstant)
  rw [lost.1] at unowned
  simp at unowned

theorem Steady.avoids_spent (steady : h.Steady v) (sane : h.Consistent) (avoids : v.Avoids G) :
    v.Avoids (Spent G S h l roots) := by
  rintro r rfl spent
  cases spent with
  | before listed => exact avoids r rfl listed
  | lost lost =>
    have changeable := sane.not_constant_of_lost lost
    rw [steady.constant] at changeable
    simp at changeable
  | adrift _ accessible lost =>
    have changeable := sane.not_constant_of_lost lost
    have start : h.Accessible (.ref r) r.id := .here rfl
    rw [steady _ (start.trans (r := ⟨.array, r.id⟩) accessible)] at changeable
    simp at changeable

theorem Suits.avoids_spent (suits : h.Suits G l' v) (sane : h.Consistent) (guarded : l' ≠ S)
    (needed : l' ≠ l ∨ v ∈ roots) : v.Avoids (Spent G S h l roots) := by
  rcases suits.isLocal with steady | ⟨r, rfl, owned⟩
  · exact steady.avoids_spent sane suits.avoids
  · rintro s same spent
    cases same
    cases spent with
    | before listed => exact suits.avoids r rfl listed
    | lost lost =>
      have same := some.inj (owned.symm.trans lost.1)
      rcases needed with ne | root
      · exact ne same
      · exact lost.2 (.root root lost.1)
    | adrift unguarded => exact unguarded ⟨l', owned, guarded⟩

theorem Twin.outside_of_accessible (twin : Twin S G h1 h2) (closed : h1.Sealed S G)
    (kept : ¬ G id) (unguarded : ¬ h1.Guarded S id)
    (accessible : h1.Accessible (.ref ⟨.array, id⟩) other) : ¬ h1.Guarded S other := by
  induction accessible with
  | here same =>
    cases same
    exact unguarded
  | within before held ih =>
    have needed := twin.kept_of_accessible (v := .ref ⟨.array, id⟩) (by rintro r ⟨⟩; exact kept) before
    exact (closed _ _ needed ih held _ rfl).2

theorem Twin.outside_avoids_spent (twin : Twin S G h1 h2) (closed : h1.Sealed S G) (guarded : l ≠ S)
    (outside : h1.Outside S v) (avoids : v.Avoids G) : v.Avoids (Spent G S h1 l roots) := by
  rintro r rfl spent
  have unguarded := (outside r rfl).2
  cases spent with
  | before listed => exact avoids r rfl listed
  | lost lost => exact unguarded ⟨l, lost.1, guarded⟩
  | adrift _ accessible lost =>
    exact twin.outside_of_accessible closed (avoids r rfl) unguarded accessible ⟨l, lost.1, guarded⟩

section Collected

variable (sane : h.Consistent)

include sane

theorem aspect?_collect_of_kept (kept : ¬ h.Lost l roots id) :
    (h.collect l roots).2.aspect? id = h.aspect? id := by
  classical
  rw [sane.aspect?_collect]
  cases seen : h.aspect? id with
  | none => rfl
  | some a =>
    rw [map_some, if_neg]
    rintro ⟨owner, unreached⟩
    exact kept ⟨by rw [owner?_eq, seen]; exact owner, unreached⟩

theorem aspect?_collect_of_lost (lost : h.Lost l roots id) :
    (h.collect l roots).2.aspect? id = (h.aspect? id).map freed :=
  sane.aspect?_collect_of_unreached lost.1 lost.2

theorem owner?_of_collect (owned : (h.collect l roots).2.owner? id = some l') :
    h.owner? id = some l' ∧ ¬ h.Lost l roots id := by
  have kept : ¬ h.Lost l roots id := by
    intro lost
    rw [owner?_eq, aspect?_collect_of_lost sane lost] at owned
    cases seen : h.aspect? id <;> simp [seen, freed] at owned
  refine ⟨?_, kept⟩
  rwa [owner?_eq, aspect?_collect_of_kept sane kept, ← owner?_eq] at owned

theorem holds_of_collect (held : (h.collect l roots).2.Holds id v) :
    h.Holds id v ∧ ¬ h.Lost l roots id := by
  obtain ⟨p, found, held⟩ := held
  have kept : ¬ h.Lost l roots id := by
    intro lost
    rw [payload?_eq, aspect?_collect_of_lost sane lost] at found
    cases seen : h.aspect? id <;> simp [seen, freed] at found
  refine ⟨⟨p, ?_, held⟩, kept⟩
  rwa [payload?_eq, aspect?_collect_of_kept sane kept, ← payload?_eq] at found

theorem Steady.collect (steady : h.Steady v) : (h.collect l roots).2.Steady v := by
  refine steady.of_fixed (fun id isConstant => ?_) fun id v _ held =>
    (holds_of_collect sane held).1
  have kept : ¬ h.Lost l roots id := fun lost => by
    simp [sane.not_constant_of_lost lost] at isConstant
  rwa [constant_eq, aspect?_collect_of_kept sane kept, ← constant_eq]

theorem Local.collect (isLocal : h.Local l' v) (kept : v.Avoids (h.Lost l roots)) :
    (h.collect l roots).2.Local l' v := by
  rcases isLocal with steady | ⟨r, rfl, owned⟩
  · exact .inl (steady.collect sane)
  · refine .inr ⟨r, rfl, ?_⟩
    rwa [owner?_eq, aspect?_collect_of_kept sane (kept r rfl), ← owner?_eq]

theorem not_guarded_collect (unguarded : ¬ h.Guarded S id) :
    ¬ (h.collect l roots).2.Guarded S id := by
  rintro ⟨l', owned, guarded⟩
  exact unguarded ⟨l', (owner?_of_collect sane owned).1, guarded⟩

theorem Outside.collect (outside : h.Outside S v) : (h.collect l roots).2.Outside S v := by
  intro r same
  obtain ⟨within, unguarded⟩ := outside r same
  exact ⟨by rwa [sane.size_cells_collect], not_guarded_collect sane unguarded⟩

theorem Sealed.collect (closed : h.Sealed S G) :
    (h.collect l roots).2.Sealed S (Spent G S h l roots) := by
  intro id v unspent unguarded held
  obtain ⟨held, kept⟩ := holds_of_collect sane held
  refine (closed id v (fun listed => unspent (.before listed)) ?_ held).collect sane
  rintro ⟨l', owned, ne⟩
  refine unguarded ⟨l', ?_, ne⟩
  rwa [owner?_eq, aspect?_collect_of_kept sane kept, ← owner?_eq]

end Collected

theorem Twin.avoids_spent (twin : Twin S G h1 h2) (guarded : l ≠ S)
    (kept : ¬ Spent G S h1 l roots id) (held : h1.Holds id v) :
    v.Avoids (Spent G S h1 l roots) := by
  have sane := twin.first.consistent
  have needed : ¬ G id := fun listed => kept (.before listed)
  have avoids := twin.closed id v needed held
  by_cases isGuarded : h1.Guarded S id
  · obtain ⟨l', owned, ne⟩ := isGuarded
    have isLocal := twin.inside id l' v needed owned ne held
    by_cases same : l' = l
    · -- The payload is reached, and so is what it holds.
      subst same
      rcases isLocal with steady | ⟨r, rfl, mine⟩
      · exact steady.avoids_spent sane avoids
      · have reached : h1.Reached l' (· ∈ roots) id := by
          by_contra unreached
          exact kept (.lost ⟨owned, unreached⟩)
        rintro s same spent
        cases same
        cases spent with
        | before listed => exact avoids r rfl listed
        | lost lost => exact lost.2 (.child reached held mine)
        | adrift unguarded => exact unguarded ⟨l', mine, ne⟩
    · exact Suits.avoids_spent ⟨isLocal, avoids⟩ sane ne (.inl same)
  · -- From outside, what is held leads nowhere that the holder does not.
    rintro r rfl spent
    cases spent with
    | before listed => exact avoids r rfl listed
    | lost lost => exact kept (.adrift isGuarded (.within (.here rfl) held) lost)
    | adrift _ accessible lost =>
      have start : h1.Accessible (.ref ⟨.array, id⟩) r.id := .within (.here rfl) held
      exact kept (.adrift isGuarded (start.trans (r := ⟨.array, r.id⟩) accessible) lost)

/-- Twins stay so when one of them is collected. -/
theorem Twin.collect (twin : Twin S G h1 h2) (guarded : l ≠ S) (roots : List Value) :
    Twin S (Spent G S h1 l roots) (h1.collect l roots).2 h2 := by
  have sane := twin.first.consistent
  have kept : ∀ id, ¬ Spent G S h1 l roots id → ¬ h1.Lost l roots id :=
    fun _ unspent lost => unspent (.lost lost)
  exact {
    first := twin.first.collect l roots
    second := twin.second
    cells := by rw [twin.cells, sane.size_cells_collect]
    lists := by rw [twin.lists, sane.size_lists_collect]
    within := fun id spent => by
      rw [sane.size_cells_collect]
      cases spent with
      | before listed => exact twin.within id listed
      | lost lost => exact within_of_owner? lost.1
      | adrift _ accessible lost => exact within_of_accessible accessible (within_of_owner? lost.1)
    agree := fun id unspent => by
      rw [aspect?_collect_of_kept sane (kept id unspent)]
      exact twin.agree id fun listed => unspent (.before listed)
    closed := fun id v unspent held =>
      twin.avoids_spent guarded unspent (holds_of_collect sane held).1
    inside := fun id l' v unspent owned ne held => by
      obtain ⟨held, -⟩ := holds_of_collect sane held
      have isLocal := twin.inside id l' v (fun listed => unspent (.before listed))
        (owner?_of_collect sane owned).1 ne held
      exact isLocal.collect sane fun r same lost =>
        twin.avoids_spent guarded unspent held r same (.lost lost)
    apart := fun id spent isGuarded => by
      cases spent with
      | before listed =>
        refine twin.apart id listed ?_
        by_contra unguarded
        exact not_guarded_collect sane unguarded isGuarded
      | lost lost =>
        obtain ⟨l', owned, -⟩ := isGuarded
        exact absurd lost (owner?_of_collect sane owned).2
      | adrift unguarded => exact absurd isGuarded (not_guarded_collect sane unguarded) }

end Collect

end Heap

/-! ### What becomes of values -/

namespace Heap

variable {S l target source : ListId} {G G' G'' : Nat → Prop} {h h' h'' h1 h2 : Heap} {v : Value}

/-- The value is steady, and both heaps have it. -/
structure Lasts (h : Heap) (G : Nat → Prop) (v : Value) : Prop where
  steady : h.Steady v
  avoids : v.Avoids G

theorem Lasts.suits (lasts : h.Lasts G v) (l : ListId) : h.Suits G l v :=
  ⟨.inl lasts.steady, lasts.avoids⟩

/-- Where nothing outside leads inside, this stays so, and what is outside stays there. -/
structure Passage (S : ListId) (G : Nat → Prop) (h : Heap) (G' : Nat → Prop) (h' : Heap) :
    Prop where
  sealed : h.Sealed S G → h'.Sealed S G'
  outside : ∀ v, h.Sealed S G → h.Outside S v → v.Avoids G → h'.Outside S v ∧ v.Avoids G'

theorem Passage.refl (S : ListId) (G : Nat → Prop) (h : Heap) : Passage S G h G h :=
  ⟨id, fun _ _ outside avoids => ⟨outside, avoids⟩⟩

theorem Passage.trans (first : Passage S G h G' h') (second : Passage S G' h' G'' h'') :
    Passage S G h G'' h'' where
  sealed := second.sealed ∘ first.sealed
  outside v closed outside avoids := by
    obtain ⟨outside, avoids⟩ := first.outside v closed outside avoids
    exact second.outside v (first.sealed closed) outside avoids

/-- The change leaves the values in `needs` local to their lists. -/
structure Conveys (needs : ListId → Value → Prop) (G : Nat → Prop) (h : Heap) (G' : Nat → Prop)
    (h' : Heap) : Prop where
  lists : h.lists.size ≤ h'.lists.size
  suits : ∀ l v, needs l v → h.Suits G l v → h'.Suits G' l v
  lasts : ∀ v, h.Lasts G v → h'.Lasts G' v

theorem Keeps.conveys (keeps : h.Keeps h') : Conveys (fun _ _ => True) G h G h' where
  lists := keeps.lists
  suits _ _ _ suits := suits.keep keeps
  lasts _ lasts := ⟨lasts.steady.keep keeps, lasts.avoids⟩

/-- The change carries the values in `needs` and what is outside. -/
structure Carries (S : ListId) (needs : ListId → Value → Prop) (G : Nat → Prop) (h : Heap)
    (G' : Nat → Prop) (h' : Heap) : Prop extends Passage S G h G' h', Conveys needs G h G' h'

theorem Carries.trans (first : Carries S needs G h G' h')
    (second : Carries S needs G' h' G'' h'') : Carries S needs G h G'' h'' where
  toPassage := first.toPassage.trans second.toPassage
  lists := first.lists.trans second.lists
  suits l v needed suits := second.suits l v needed (first.suits l v needed suits)
  lasts v lasts := second.lasts v (first.lasts v lasts)

theorem Respects.carries (respects : h.Respects S G h') : Carries S (fun _ _ => True) G h G h' where
  sealed := respects.sealed
  outside _ _ outside avoids := ⟨outside.keep respects.toKeeps, avoids⟩
  toConveys := respects.toKeeps.conveys

theorem append_carries (sane : h.Consistent) (into : target ≠ S) (outOf : source ≠ S) :
    Carries S (fun l _ => l ≠ source) G h G (h.append target source) where
  sealed closed := closed.append sane into outOf
  outside _ _ outside avoids := ⟨outside.append sane into outOf, avoids⟩
  lists := by simp
  suits _ _ ne suits := ⟨suits.isLocal.append sane ne, suits.avoids⟩
  lasts _ lasts := ⟨lasts.steady.append sane, lasts.avoids⟩

theorem freeAll_carries (sane : h.Consistent) (source : ListId) :
    Carries S (fun l _ => l ≠ source) G h G (h.freeAll source) where
  sealed closed := closed.freeAll sane
  outside _ _ outside avoids := ⟨outside.freeAll sane, avoids⟩
  lists := by simp
  suits _ _ ne suits := ⟨suits.isLocal.freeAll sane ne, suits.avoids⟩
  lasts _ lasts := ⟨lasts.steady.freeAll sane, lasts.avoids⟩

/-- Where a collection goes, the roots are carried, and so are the values of all other guarded
lists. -/
def Retained (S l : ListId) (roots : List Value) (l' : ListId) (v : Value) : Prop :=
  l' ≠ S ∧ (l' = l → v ∈ roots)

theorem Suits.retained (suits : h.Suits G l' v) (sane : h.Consistent)
    (retained : Retained S l roots l' v) : v.Avoids (Spent G S h l roots) := by
  refine suits.avoids_spent sane retained.1 ?_
  by_cases same : l' = l
  · exact .inr (retained.2 same)
  · exact .inl same

section

variable (twin : Twin S G h1 h2)
include twin

theorem Twin.collect_carries (guarded : l ≠ S) (roots : List Value) :
    Carries S (Retained S l roots) G h1 (Spent G S h1 l roots) (h1.collect l roots).2 where
  sealed closed := closed.collect twin.first.consistent
  outside _ closed outside avoids :=
    ⟨outside.collect twin.first.consistent, twin.outside_avoids_spent closed guarded outside avoids⟩
  lists := (twin.first.consistent.size_lists_collect _ _).ge
  suits _ _ retained suits :=
    have avoids := suits.retained twin.first.consistent retained
    ⟨suits.isLocal.collect twin.first.consistent fun r same lost => avoids r same (.lost lost), avoids⟩
  lasts _ lasts := ⟨lasts.steady.collect twin.first.consistent,
    lasts.steady.avoids_spent twin.first.consistent lasts.avoids⟩

theorem Twin.guarded_iff {id : Nat} (kept : ¬ G id) : h2.Guarded S id ↔ h1.Guarded S id := by
  unfold Guarded
  rw [twin.owner?_eq kept]

theorem Twin.outside (avoids : v.Avoids G) (outside : h1.Outside S v) : h2.Outside S v := by
  intro r same
  rw [twin.cells, twin.guarded_iff (avoids r same)]
  exact outside r same

theorem Twin.sealed (closed : h1.Sealed S G) : h2.Sealed S G := by
  intro id v kept unguarded held
  rw [twin.guarded_iff kept] at unguarded
  rw [twin.holds_iff kept] at held
  exact twin.outside (twin.closed id v kept held) (closed id v kept unguarded held)

theorem Twin.spent_carries (guarded : l ≠ S) (roots : List Value) :
    Carries S (Retained S l roots) G h1 (Spent G S h2 l roots) h1 where
  sealed closed id v unspent := closed id v fun listed => unspent (.before listed)
  outside _ closed outside avoids :=
    ⟨outside, twin.symm.outside_avoids_spent (twin.sealed closed) guarded
      (twin.outside avoids outside) avoids⟩
  lists := le_rfl
  suits _ _ retained suits :=
    ⟨suits.isLocal, (twin.suits_iff.mpr suits).retained twin.second.consistent retained⟩
  lasts _ lasts := ⟨lasts.steady,
    ((twin.steady_iff lasts.avoids).mpr lasts.steady).avoids_spent twin.second.consistent lasts.avoids⟩

end

end Heap

end Tenancy
