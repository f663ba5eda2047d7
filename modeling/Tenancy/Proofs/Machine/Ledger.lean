import Tenancy.Proofs.Machine.Local

/-!
What a thread holds, and what is parked for it.

A thread in its domain holds the domain of its top context and no other, and for each context below
one window is parked, in the domain of the context and under its depth. A thread on its way holds
nothing, and all its windows are parked. Parking, leaving, entering and coming back lead from the one
to the other. What other threads do is of no concern here: it neither takes nor parks anything in
this thread's name.
-/

namespace Tenancy

open List

namespace World

variable {P : Function → Prop} {w w' w'' : World} {key : ThreadKey} {k j : DomainKey}
  {c : DomainContext} {below contexts : List DomainContext} {i n depth : Nat}

/-- The thread holds this domain, if any, and no other. -/
def HeldBy (w : World) (key : ThreadKey) (held : Option DomainKey) : Prop :=
  ∀ k, (w.domain k).holder = some key ↔ held = some k

def windowsOf (w : World) (key : ThreadKey) (k : DomainKey) : List ParkedWindow :=
  (w.domain k).parked.filter (·.thread = key)

/-- How many windows of a thread are parked in a domain under a depth. -/
def windowsAt (w : World) (key : ThreadKey) (k : DomainKey) (depth : Nat) : Nat :=
  (w.windowsOf key k).countP (·.depth = depth)

/-- One window is parked for each of the contexts, top first, and no other. -/
def Parks (w : World) (key : ThreadKey) (contexts : List DomainContext) : Prop :=
  ∀ k i, w.windowsAt key k i =
    if contexts.reverse[i]?.map DomainContext.domain = some k then 1 else 0

/-- The thread is in the domain of the first of its contexts. -/
def Seats (w : World) (key : ThreadKey) : List DomainContext → Prop
  | [] => False
  | c :: below => w.HeldBy key (some c.domain) ∧ w.Parks key below

/-- The thread is on its way. -/
structure Awaits (w : World) (key : ThreadKey) (contexts : List DomainContext) : Prop where
  nonempty : contexts ≠ []
  held : w.HeldBy key none
  parks : w.Parks key contexts

theorem domain_of_missing (missing : w.domains.size ≤ k) : w.domain k = default := by
  simp [domain, Array.getElem?_eq_none missing]

theorem valid_of_holder (held : (w.domain k).holder = some key) : k < w.domains.size := by
  by_contra missing
  rw [domain_of_missing (Nat.le_of_not_lt missing)] at held
  simp [default] at held

theorem windowsOf_of_missing (missing : w.domains.size ≤ k) : w.windowsOf key k = [] := by
  rw [windowsOf, domain_of_missing missing]
  rfl

theorem windowsOf_park (valid : k < w.domains.size) (values : List Value) :
    (w.modifyDomain k (·.park ⟨key, depth, values⟩)).windowsOf key j =
      if k = j then ⟨key, depth, values⟩ :: (w.windowsOf key j).filter (·.depth ≠ depth)
      else w.windowsOf key j := by
  unfold windowsOf
  rw [domain_modifyDomain]
  by_cases here : k = j
  · subst here
    simp only [valid, and_self, ↓reduceIte, Domain.park, filter_cons_of_pos, decide_true,
      cons.injEq, true_and, filter_filter]
    refine filter_congr fun p _ => ?_
    by_cases mine : p.thread = key <;> simp [mine]
  · simp [here]

theorem windowsOf_unpark (valid : k < w.domains.size) :
    (w.modifyDomain k (·.unpark key depth)).windowsOf key j =
      if k = j then (w.windowsOf key j).filter (·.depth ≠ depth) else w.windowsOf key j := by
  unfold windowsOf
  rw [domain_modifyDomain]
  by_cases here : k = j
  · subst here
    simp only [valid, and_self, ↓reduceIte, Domain.unpark, filter_filter]
    refine filter_congr fun p _ => ?_
    by_cases mine : p.thread = key <;> simp [mine]
  · simp [here]

theorem windowsOf_modifyDomain (kept : ∀ d, (f d).parked = d.parked) :
    (w.modifyDomain k f).windowsOf key j = w.windowsOf key j := by
  unfold windowsOf
  rw [domain_modifyDomain]
  split
  · rw [kept]
  · rfl

theorem filter_windowsOf_park (valid : k < w.domains.size) (values : List Value) (deep : n ≤ depth) :
    ((w.modifyDomain k (·.park ⟨key, depth, values⟩)).windowsOf key j).filter (·.depth < n) =
      (w.windowsOf key j).filter (·.depth < n) := by
  rw [windowsOf_park valid]
  split
  · rw [filter_cons_of_neg (by simpa using deep), filter_filter]
    refine filter_congr fun p _ => ?_
    by_cases lower : p.depth < n
    · simp [lower, (lower.trans_le deep).ne]
    · simp [lower]
  · rfl

theorem filter_windowsOf_unpark (valid : k < w.domains.size) (deep : n ≤ depth) :
    ((w.modifyDomain k (·.unpark key depth)).windowsOf key j).filter (·.depth < n) =
      (w.windowsOf key j).filter (·.depth < n) := by
  rw [windowsOf_unpark valid]
  split
  · rw [filter_filter]
    refine filter_congr fun p _ => ?_
    by_cases lower : p.depth < n
    · simp [lower, (lower.trans_le deep).ne]
    · simp [lower]
  · rfl

@[simp] theorem windowsOf_hold (w : World) (k j : DomainKey) (key thread : ThreadKey) :
    (w.hold k thread).windowsOf key j = w.windowsOf key j :=
  windowsOf_modifyDomain fun _ => rfl

theorem countP_filter_depth (other : i ≠ depth) (windows : List ParkedWindow) :
    (windows.filter (·.depth ≠ depth)).countP (·.depth = i) = windows.countP (·.depth = i) := by
  rw [countP_filter]
  refine countP_congr fun p _ => ?_
  by_cases isIt : p.depth = i <;> simp [isIt, other]

theorem windowsAt_park (valid : k < w.domains.size) (values : List Value) :
    (w.modifyDomain k (·.park ⟨key, depth, values⟩)).windowsAt key j i =
      if k = j ∧ i = depth then 1 else w.windowsAt key j i := by
  unfold windowsAt
  rw [windowsOf_park valid]
  by_cases here : k = j
  · by_cases same : i = depth
    · subst same
      simp [here, countP_filter]
    · simp only [here, same, and_false, ↓reduceIte]
      rw [countP_cons_of_neg (by simpa using Ne.symm same), countP_filter_depth same]
  · simp [here]

theorem windowsAt_unpark (valid : k < w.domains.size) :
    (w.modifyDomain k (·.unpark key depth)).windowsAt key j i =
      if k = j ∧ i = depth then 0 else w.windowsAt key j i := by
  unfold windowsAt
  rw [windowsOf_unpark valid]
  by_cases here : k = j
  · by_cases same : i = depth
    · subst same
      simp [here, countP_filter]
    · simp only [here, same, and_false, ↓reduceIte]
      exact countP_filter_depth same _
  · simp [here]

theorem Parks.congr (parks : w.Parks key contexts)
    (same : ∀ k, w'.windowsOf key k = w.windowsOf key k) : w'.Parks key contexts := by
  intro k i
  rw [windowsAt, same]
  exact parks k i

theorem getElem?_reverse_cons (c : DomainContext) (below : List DomainContext) (i : Nat) :
    (c :: below).reverse[i]? = if i = below.length then some c else below.reverse[i]? := by
  rw [reverse_cons, getElem?_append]
  by_cases less : i < below.length
  · simp [less, less.ne]
  · by_cases same : i = below.length
    · simp [same]
    · have beyond : i - below.length ≠ 0 := by omega
      simp [less, same, beyond]

theorem Parks.valid (parks : w.Parks key (c :: below)) : c.domain < w.domains.size := by
  by_contra missing
  have one := parks c.domain below.length
  rw [getElem?_reverse_cons, windowsAt, windowsOf_of_missing (Nat.le_of_not_lt missing)] at one
  simp at one

theorem Parks.push (parks : w.Parks key below) (valid : c.domain < w.domains.size)
    (values : List Value) :
    (w.modifyDomain c.domain (·.park ⟨key, below.length, values⟩)).Parks key (c :: below) := by
  intro k i
  rw [windowsAt_park valid, getElem?_reverse_cons, parks]
  by_cases top : i = below.length
  · subst top
    by_cases here : c.domain = k <;> simp [here]
  · simp [top]

theorem Parks.pop (parks : w.Parks key (c :: below)) :
    (w.modifyDomain c.domain (·.unpark key below.length)).Parks key below := by
  intro k i
  rw [windowsAt_unpark parks.valid, parks, getElem?_reverse_cons]
  by_cases top : i = below.length
  · subst top
    by_cases here : c.domain = k <;> simp [here]
  · simp [top]

/-- All windows of the thread lie lower than its contexts. -/
theorem Parks.depth_lt (parks : w.Parks key contexts)
    (parked : p ∈ w.windowsOf key k) : p.depth < contexts.length := by
  by_contra deep
  have none := parks k p.depth
  rw [getElem?_eq_none (by simpa using deep)] at none
  simp only [Option.map_none, reduceCtorEq, ↓reduceIte] at none
  exact absurd (countP_eq_zero.mp none p parked) (by simp)

theorem Parks.mem_domains (parks : w.Parks key contexts)
    (parked : p ∈ w.windowsOf key k) : k ∈ contexts.map DomainContext.domain := by
  by_contra elsewhere
  have counted := parks k p.depth
  have none : ¬ contexts.reverse[p.depth]?.map DomainContext.domain = some k := by
    intro found
    obtain ⟨c, at_depth, rfl⟩ := Option.map_eq_some_iff.mp found
    exact elsewhere (mem_map_of_mem (mem_reverse.mp (mem_of_getElem? at_depth)))
  rw [if_neg none] at counted
  exact absurd (countP_eq_zero.mp counted p parked) (by simp)

theorem HeldBy.congr (holds : w.HeldBy key held)
    (same : ∀ k, (w'.domain k).holder = some key ↔ (w.domain k).holder = some key) :
    w'.HeldBy key held :=
  fun k => (same k).trans (holds k)

theorem HeldBy.valid (holds : w.HeldBy key (some k)) : k < w.domains.size :=
  valid_of_holder ((holds k).mpr rfl)

theorem HeldBy.leave (holds : w.HeldBy key (some k)) :
    w.leave k key = .ok (w.modifyDomain k fun d => { d with holder := none }) := by
  simp [World.leave, (holds k).mpr rfl]

theorem HeldBy.left (holds : w.HeldBy key (some k)) :
    (w.modifyDomain k fun d => { d with holder := none }).HeldBy key none := by
  intro j
  rw [domain_modifyDomain]
  by_cases here : k = j
  · subst here
    simp [holds.valid]
  · have other : ¬ (w.domain j).holder = some key := fun held =>
      here (Option.some.inj ((holds j).mp held))
    simp [here, other]

theorem HeldBy.hold (free : w.HeldBy key none) (valid : k < w.domains.size) :
    (w.hold k key).HeldBy key (some k) := by
  intro j
  rw [World.hold, domain_modifyDomain]
  by_cases here : k = j
  · subst here
    simp [valid]
  · have other : ¬ (w.domain j).holder = some key := fun held => by simpa using (free j).mp held
    simp [here, other]

theorem HeldBy.modifyDomain (holds : w.HeldBy key held) (k : DomainKey)
    (kept : ∀ d, (f d).holder = d.holder) : (w.modifyDomain k f).HeldBy key held := by
  refine holds.congr fun j => ?_
  rw [domain_modifyDomain]
  split
  · rw [kept]
  · exact Iff.rfl

theorem Seats.nonempty (seats : w.Seats key contexts) : contexts ≠ [] := by
  rintro rfl
  exact seats

theorem Seats.valid (seats : w.Seats key (c :: below)) : c.domain < w.domains.size := seats.1.valid

theorem Seats.congr (seats : w.Seats key contexts)
    (holder : ∀ k, (w'.domain k).holder = some key ↔ (w.domain k).holder = some key)
    (windows : ∀ k, w'.windowsOf key k = w.windowsOf key k) : w'.Seats key contexts := by
  cases contexts with
  | nil => exact seats
  | cons c below => exact ⟨seats.1.congr holder, seats.2.congr windows⟩

/-- The window of the top context is parked, and its domain is left. -/
theorem Seats.depart (seats : w.Seats key (c :: below)) (values : List Value) :
    ∃ w', (w.modifyDomain c.domain (·.park ⟨key, below.length, values⟩)).leave c.domain key =
        .ok w' ∧ w'.Awaits key (c :: below) := by
  obtain ⟨held, parks⟩ := seats
  have parked := held.modifyDomain c.domain (f := (·.park ⟨key, below.length, values⟩)) fun _ => rfl
  refine ⟨_, parked.leave, by simp, parked.left, (parks.push held.valid values).congr fun k => ?_⟩
  exact windowsOf_modifyDomain fun _ => rfl

/-- The domain of the top context is left, and the context given up. -/
theorem Seats.leave (seats : w.Seats key (c :: below)) (more : below ≠ []) :
    ∃ w', w.leave c.domain key = .ok w' ∧ w'.Awaits key below := by
  obtain ⟨held, parks⟩ := seats
  refine ⟨_, held.leave, more, held.left, parks.congr fun k => ?_⟩
  exact windowsOf_modifyDomain fun _ => rfl

theorem Awaits.comeBack (awaits : w.Awaits key (c :: below)) :
    ((w.hold c.domain key).modifyDomain c.domain (·.unpark key below.length)).Seats key
      (c :: below) := by
  have kept : (w.hold c.domain key).Parks key (c :: below) :=
    awaits.parks.congr fun k => windowsOf_hold _ _ _ _ _
  exact ⟨(awaits.held.hold awaits.parks.valid).modifyDomain _ fun _ => rfl, kept.pop⟩

/-- A domain is entered and left again. -/
theorem Awaits.turnBack (awaits : w.Awaits key contexts) (valid : k < w.domains.size) :
    ∃ w', (w.hold k key).leave k key = .ok w' ∧ w'.Awaits key contexts := by
  have held := awaits.held.hold valid
  have kept : (w.hold k key).Parks key contexts :=
    awaits.parks.congr fun j => windowsOf_hold _ _ _ _ _
  exact ⟨_, held.leave, awaits.nonempty, held.left,
    kept.congr fun _ => windowsOf_modifyDomain fun _ => rfl⟩

end World

end Tenancy
