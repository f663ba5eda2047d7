import Tenancy.Proofs.Machine.Crew

/-!
Machines in lockstep: results, faults and crossings.

Each of two machines that go together may collect where the other does not. What a collection frees
is no longer in play, so the machines still go together, with more payloads that they may disagree
on. Crossings move the payloads on their way into the domain that the thread comes to.
-/

namespace Tenancy

variable {stack : Array Value} {contexts : List DomainContext} {stop : Nat} {v : Value} {w : World}

open Tenancy.Action Coupling List Heap State

/-! ### What a collection keeps -/

theorem Tiled.and (first : Tiled fits stack contexts stop)
    (second : Tiled fits' stack contexts stop) :
    Tiled (fun k v => fits k v ∧ fits' k v) stack contexts stop := by
  induction contexts generalizing stop with
  | nil => trivial
  | cons c below ih =>
    obtain ⟨starts, window, lower⟩ := first
    obtain ⟨-, window', lower'⟩ := second
    exact ⟨starts, fun i v low high found => ⟨window i v low high found, window' i v low high found⟩,
      ih lower lower'⟩

theorem Tiled.slot (tiled : Tiled fits stack contexts stop) (founded : Founded contexts stop)
    (within : i < stop) (found : stack[i]? = some v) : ∃ c ∈ contexts, fits c.domain v := by
  induction contexts generalizing stop with
  | nil =>
    obtain rfl : stop = 0 := founded
    exact absurd within (Nat.not_lt_zero i)
  | cons c below ih =>
    by_cases low : c.start ≤ i
    · exact ⟨c, .head _, tiled.2.1 i v low within found⟩
    · obtain ⟨d, listed, fits⟩ := ih tiled.2.2 founded.2 (Nat.lt_of_not_le low)
      exact ⟨d, .tail _ listed, fits⟩

theorem Founded.bottom (founded : Founded contexts stop) (lowest : [c] <:+ contexts) :
    c.start = 0 := by
  induction contexts generalizing stop with
  | nil => simp at lowest
  | cons d below ih =>
    rcases suffix_cons_iff.mp lowest with whole | part
    · cases whole
      exact founded.2
    · exact ih founded.2 part

theorem Anchored.rooted (anchored : Anchored w key stack contexts stop) :
    Tiled (fun k v => k < w.domains.size ∧ v ∈ w.standingRoots (w.domain k)) stack contexts stop := by
  induction contexts generalizing stop with
  | nil => trivial
  | cons c below ih =>
    obtain ⟨valid, starts, ⟨p, parked, -, -, same⟩, lower⟩ := anchored
    refine ⟨starts, fun i v low high found => ⟨valid, ?_⟩, ih lower⟩
    refine mem_append_left _ (mem_flatMap.mpr ⟨p, parked, ?_⟩)
    rw [same]
    exact mem_window_of_slot low high found

namespace State

variable {S T : ListId} {G G' : Nat → Prop} {contexts : List DomainContext} {s s1 s2 : State}
  {k : DomainKey} {roots : List Value}

/-- What a collection of the domain keeps of the stack. -/
def Covers (s : State) (k : DomainKey) (roots : List Value) (contexts : List DomainContext) : Prop :=
  Tiled (fun j v => j < s.world.domains.size ∧
    (j = k → v ∈ roots ++ s.world.standingRoots (s.world.domain k))) s.thread.stack contexts
    s.thread.stack.size

theorem Here.covers (here : s.Here) (more : List Value) :
    s.Covers s.thread.current.domain (s.thread.window ++ more) s.thread.domains := by
  obtain ⟨c, below, seated⟩ := here
  have current := seated.current
  unfold Covers
  rw [seated.domains, current]
  refine ⟨seated.fits, fun i v low high found => ⟨seated.valid, fun _ => ?_⟩,
    seated.anchored.rooted.mono fun j v rooted => ⟨rooted.1, ?_⟩⟩
  · refine mem_append_left _ (mem_append_left _ ?_)
    unfold Thread.window
    rw [current]
    exact mem_window_of_slot low high found
  · rintro rfl
    exact mem_append_right _ rooted.2

/-- The worlds change alike. What is needed of the values in play is carried over. -/
theorem Twin.carry
    (twin : Twin S T G contexts s1 s2) (alike : w1.Alike w2) (firm : s1.world.Firm w1)
    (members : ∀ o, (w1.object o).members = (s1.world.object o).members)
    (heap : w1.heap.Twin S G' w2.heap)
    (conveys : Conveys needs G s1.world.heap G' w1.heap)
    (stored : ∀ k o, s1.world.Houses k o → ∀ v ∈ (s1.world.object o).members,
      needs (s1.world.domain k).values v)
    (placed : Tiled (fun k v => needs (s1.world.domain k).values v) s1.thread.stack contexts
      s1.thread.stack.size) :
    Twin S T G' contexts { s1 with world := w1 } { s2 with world := w2 } where
  thread := twin.thread
  scratch := twin.scratch
  transfer := twin.transfer
  alike := alike
  heap := heap
  orderly := twin.orderly.firm firm
  stocked := twin.stocked.carry firm members conveys stored
  tame := twin.tame.firm firm
  ownList := twin.ownList.trans_le conveys.lists
  wayList := twin.wayList.trans_le conveys.lists
  home := firm.domains ▸ twin.home
  tiled := (twin.tiled.and placed).mono fun k v ⟨fits, needed⟩ => by
    unfold World.fits
    rw [firm.values]
    exact conveys.suits _ _ needed fits

theorem standingRoots_eq (twin : Twin S T G contexts s1 s2) (k : DomainKey) :
    s2.world.standingRoots (s2.world.domain k) = s1.world.standingRoots (s1.world.domain k) := by
  have same : s2.world.object = s1.world.object := funext twin.alike.object
  unfold World.standingRoots
  rw [twin.alike.parked, twin.alike.members, same]

section Collected

variable (twin : Twin S T G contexts s1 s2) (valid : k < s1.world.domains.size)
  (covers : s1.Covers k roots contexts)

include twin valid

theorem Twin.stored : ∀ j o, s1.world.Houses j o → ∀ v ∈ (s1.world.object o).members,
    Retained S (s1.world.domain k).values
      (roots ++ s1.world.standingRoots (s1.world.domain k)) (s1.world.domain j).values v := by
  intro j o houses v mem
  refine ⟨twin.orderly.scratch j houses.domain, fun same => mem_append_right _ ?_⟩
  obtain rfl : j = k := twin.orderly.lists j houses.domain k valid same
  obtain ⟨id, listed⟩ := twin.orderly.member houses
  exact mem_append_right _ (mem_flatMap.mpr ⟨_, listed, Array.mem_toList_iff.mpr mem⟩)

include covers

theorem Twin.placed : Tiled (fun j v => Retained S (s1.world.domain k).values
    (roots ++ s1.world.standingRoots (s1.world.domain k)) (s1.world.domain j).values v)
    s1.thread.stack contexts s1.thread.stack.size :=
  Tiled.mono covers fun j _ ⟨known, root⟩ => ⟨twin.orderly.scratch j known, fun same =>
    root (twin.orderly.lists j known k valid same)⟩

theorem Twin.collectFirst : ∃ G',
    Carries S (Retained S (s1.world.domain k).values
      (roots ++ s1.world.standingRoots (s1.world.domain k))) G s1.world.heap G'
      (s1.world.collect k roots).2.heap ∧
    Twin S T G' contexts { s1 with world := (s1.world.collect k roots).2 } s2 := by
  have guarded := twin.orderly.scratch k valid
  have carries := twin.heap.collect_carries guarded
    (roots ++ s1.world.standingRoots (s1.world.domain k))
  refine ⟨_, carries, ?_⟩
  exact twin.carry (twin.alike.trans (World.skeleton_collect _ k roots).symm) (.collect _ k roots)
    (fun _ => rfl) (twin.heap.collect guarded _) carries.toConveys (twin.stored valid)
    (twin.placed valid covers)

theorem Twin.collectSecond : ∃ G',
    Carries S (Retained S (s1.world.domain k).values
      (roots ++ s1.world.standingRoots (s1.world.domain k))) G s1.world.heap G' s1.world.heap ∧
    Twin S T G' contexts s1 { s2 with world := (s2.world.collect k roots).2 } := by
  have guarded := twin.orderly.scratch k valid
  have carries := twin.heap.spent_carries guarded
    (roots ++ s1.world.standingRoots (s1.world.domain k))
  refine ⟨_, carries, ?_⟩
  refine twin.carry ?_ (.refl _) (fun _ => rfl) ?_ carries.toConveys (twin.stored valid)
    (twin.placed valid covers)
  · exact (World.skeleton_collect _ k roots).trans twin.alike
  · have same : (s2.world.collect k roots).2.heap = (s2.world.heap.collect (s1.world.domain k).values
        (roots ++ s1.world.standingRoots (s1.world.domain k))).2 := by
      rw [← standingRoots_eq twin, ← twin.alike.values]
      rfl
    show s1.world.heap.Twin S _ (s2.world.collect k roots).2.heap
    rw [same]
    exact (twin.heap.symm.collect guarded _).symm

theorem Twin.collected (first : w1 = s1.world ∨ w1 = (s1.world.collect k roots).2)
    (second : w2 = s2.world ∨ w2 = (s2.world.collect k roots).2) : ∃ G',
    Carries S (Retained S (s1.world.domain k).values
      (roots ++ s1.world.standingRoots (s1.world.domain k))) G s1.world.heap G' w1.heap ∧
    Twin S T G' contexts { s1 with world := w1 } { s2 with world := w2 } := by
  obtain ⟨G1, carries1, twin1⟩ : ∃ G', Carries S _ G s1.world.heap G' s1.world.heap ∧
      Twin S T G' contexts s1 { s2 with world := w2 } := by
    rcases second with rfl | rfl
    · exact ⟨G, { (Respects.refl S G _).carries with suits := fun _ _ _ suits => suits }, twin⟩
    · exact twin.collectSecond valid covers
  rcases first with rfl | rfl
  · exact ⟨G1, carries1, twin1⟩
  · obtain ⟨G2, carries2, twin2⟩ := twin1.collectFirst valid covers
    exact ⟨G2, carries1.trans carries2, twin2⟩

end Collected

end State

namespace Staffed

variable {runs : DomainKey → Frame → Prop} {pending : List Pending} {frames : List Frame}
  {domains : List DomainContext} {size : Nat}

theorem of_store
    (staffed : Staffed runs (.store f instrs pc target :: pending) frames domains size) :
    ∃ base rest others, pending = .frame base :: rest ∧ frames = f :: others ∧
      Staffed runs (.frame base :: rest) frames domains size := by
  cases staffed with
  | store below => exact ⟨_, _, _, rfl, rfl, below⟩

theorem of_crossing (staffed : Staffed runs (.crossing :: pending) frames domains size) :
    pending ≠ [] := by
  cases staffed with
  | crossing _ below => exact below.ne_nil

theorem of_host (staffed : Staffed runs (.host mark :: pending) frames domains size) :
    pending = [] := by
  cases staffed
  rfl

theorem founded (staffed : Staffed runs pending frames domains size) : Founded domains size := by
  induction staffed with
  | host start => exact ⟨start ▸ Nat.zero_le _, start⟩
  | frame _ _ _ locals ends ih => exact ⟨by have := ih.1; omega, ih.2⟩
  | store _ ih => exact ih
  | crossing begins _ ih => exact ⟨begins.le, begins ▸ ih⟩

/-- What waits for a fault: the host at the bottom, and above it what lets the fault pass. -/
theorem suffix (staffed : Staffed runs pending frames domains size) (below : p :: rest <:+ pending) :
    p = .host ⟨0, 0, 1⟩ ∧ rest = [] ∨ rest ≠ [] ∧ ((∃ base, p = .frame base) ∨
      (∃ f instrs pc target, p = .store f instrs pc target) ∨ p = .crossing) := by
  induction staffed with
  | host _ _ same =>
    rcases suffix_cons_iff.mp below with whole | none
    · cases whole
      exact .inl ⟨congrArg _ same, rfl⟩
    · simp at none
  | frame lower _ _ _ _ ih =>
    rcases suffix_cons_iff.mp below with whole | part
    · cases whole
      exact .inr ⟨lower.ne_nil, .inl ⟨_, rfl⟩⟩
    · exact ih part
  | store lower ih =>
    rcases suffix_cons_iff.mp below with whole | part
    · cases whole
      exact .inr ⟨lower.ne_nil, .inr (.inl ⟨_, _, _, _, rfl⟩)⟩
    · exact ih part
  | crossing _ lower ih =>
    rcases suffix_cons_iff.mp below with whole | part
    · cases whole
      exact .inr ⟨lower.ne_nil, .inr (.inr rfl)⟩
    · exact ih part

end Staffed

namespace Machine

variable {S T : ListId} {G : Nat → Prop} {m m1 m2 : Machine} {v : Value} {base : Nat}
  {pending : List Pending}

/-! ### Results -/

theorem popped_ready (ready : Ready S T G m1 m2) (top : m1.pending = .frame base :: pending) :
    Ready S T G
      { m1 with
        thread := { m1.thread.truncate base with frames := m1.thread.frames.tail }, pending }
      { m2 with
        thread := { m2.thread.truncate base with frames := m2.thread.frames.tail }, pending } := by
  obtain ⟨⟨w2, t2⟩, focus2, pending2⟩ := m2
  obtain rfl : t2 = m1.thread := ready.state.thread
  have crewed := ready.crewed
  unfold Crewed at crewed
  rw [top] at crewed
  generalize running : m1.thread.frames = frames at crewed
  generalize seated : m1.thread.domains = domains at crewed
  cases crewed with
  | @frame _ frames domains _ c f _ below belongs begins locals ends =>
    have twin := seated ▸ ready.state
    have size : (m1.thread.stack.take base).size = base := size_take (by omega)
    have starts := below.start_le c (.head _)
    refine ⟨{ ready.state with thread := rfl, tiled := ?_ }, rfl, ?_⟩
    · show Tiled _ (m1.thread.stack.take base) m1.thread.domains (m1.thread.stack.take base).size
      rw [seated, size]
      refine twin.tiled.renew starts (fun i lower => getElem?_take (by omega)) ?_
      intro i v low high found
      rw [getElem?_take high] at found
      exact twin.fits_of_slot low found
    · show Staffed _ pending frames m1.thread.domains (m1.thread.stack.take base).size
      rw [seated, size]
      exact below

theorem safepoint_follows (ready : Ready S T G m1 m2) (here : m1.toState.Here)
    (fits : m1.toState.here G v) (first : m1.focus = .result v) (second : m2.focus = .result v) :
    Follows S T G m1.world.heap (.ok (m1.safepoint v)) (.ok (m2.safepoint v)) := by
  have other := world_safepoint m2 v
  rw [ready.state.thread] at other
  obtain ⟨G', carries, twin⟩ :=
    ready.state.collected here.valid (here.covers [v]) (world_safepoint m1 v) other
  have firm := World.Firm.collected (world_safepoint m1 v)
  have retained : Retained S (m1.world.domain m1.thread.current.domain).values
      ((m1.thread.window ++ [v]) ++ m1.world.standingRoots (m1.world.domain m1.thread.current.domain))
      (m1.world.domain m1.thread.current.domain).values v :=
    ⟨ready.state.orderly.scratch _ here.valid, fun _ => by simp⟩
  rw [safepoint_eq m1, safepoint_eq m2]
  refine .ok carries.toPassage (by rw [Hands, first]; nofun)
    ⟨twin, second.trans first.symm, ready.pending, ?_⟩
  rw [first]
  refine ⟨rfl, ready.crewed.firm firm rfl rfl rfl, ?_⟩
  show Suits _ _ ((m1.safepoint v).world.domain m1.thread.current.domain).values v
  rw [firm.values]
  exact carries.suits _ v retained fits

theorem taken_follows (ready : Ready S T G m1 m2) (running : m1.thread.frames = f :: frames)
    (top : m1.pending = .frame base :: pending) (fits : m1.toState.here G v) :
    Follows S T G m1.world.heap
      (m1.after (Exec.write f target v) fun m () => .ok { m with focus := .code f instrs pc })
      (m2.after (Exec.write f target v) fun m () => .ok { m with focus := .code f instrs pc }) := by
  obtain ⟨c, below, runs⟩ := ready.running top running
  have fits : m1.world.fits G c.domain v := current_eq runs.seated ▸ fits
  refine after_follows ready (runs.seated ▸ ((companions S T G c below f).write_couples
    ⟨runs.seated ▸ ready.state, runs⟩ target fits).ofDuring) ?_
  intro _ s1 s2 stays _ ready
  have running : s1.thread.frames = f :: frames := by rw [stays.thread, ← running]
  have crewed := ready.crewed
  unfold Crewed at crewed
  rw [top, running] at crewed
  obtain ⟨-, -, -, -, -, rfl⟩ := crewed.top
  exact .ok (.refl S G _) nofun
    ⟨ready.state, rfl, ready.pending, rfl, ready.crewed, _, _, top, running⟩

theorem left_follows (twin : State.Twin S T G (c :: below) m.toState ⟨w2, m.thread⟩)
    (seated : m.thread.domains = c :: below) (crewed : m.toState.Crewed (.crossing :: m.pending))
    (suits : m.world.heap.Suits G T v) :
    Follows S T G m.world.heap (do
        let world ← m.world.leave m.thread.current.domain m.thread.key
        return ⟨⟨world, { m.thread.truncate m.thread.current.start with
          domains := m.thread.domains.tail }⟩, .returning v, m.pending⟩)
      (do
        let world ← w2.leave m.thread.current.domain m.thread.key
        return ⟨⟨world, { m.thread.truncate m.thread.current.start with
          domains := m.thread.domains.tail }⟩, .returning v, m.pending⟩) := by
  have current : m.thread.current = c := current_eq seated
  unfold State.Crewed at crewed
  rw [seated] at crewed
  cases crewed with
  | crossing begins crewed =>
    have size : (m.thread.stack.take c.start).size = m.thread.stack.size := by
      rw [size_take begins.le, begins]
    rcases twin.alike.leave c.domain m.thread.key with ⟨b, first, second⟩ | ⟨first, second⟩
    · rw [current, first, second]
      exact .error b
    · have later := twin.modifyDomain c.domain (f := fun d => { d with holder := none })
        (fun _ => rfl) fun _ => ⟨rfl, rfl, rfl⟩
      rw [current, first, second]
      refine .ok (.refl S G _) nofun ⟨{ later with thread := rfl, tiled := ?_ }, rfl, rfl, rfl, ?_, suits⟩
      · show Tiled _ (m.thread.stack.take c.start) m.thread.domains.tail
          (m.thread.stack.take c.start).size
        rw [size, seated, ← begins]
        exact later.tiled.2.2.congr fun i lower => getElem?_take lower
      · show Staffed _ m.pending m.thread.frames m.thread.domains.tail
          (m.thread.stack.take c.start).size
        rw [size, seated]
        exact crewed.mono fun _ _ runs => runs.firm (.modifyDomain _ _ fun _ => ⟨rfl, rfl, rfl⟩)

theorem departBack_follows (m1 m2 : Machine)
    (twin : State.Twin S T G m1.thread.domains m1.toState m2.toState)
    (pending : m2.pending = m1.pending) (waits : m1.pending ≠ [])
    (crewed : m1.toState.Crewed (.crossing :: m1.pending))
    (valid : m1.thread.current.domain < m1.world.domains.size) (fits : m1.toState.here G v) :
    Follows S T G m1.world.heap (m1.departBack v) (m2.departBack v) := by
  unfold departBack
  rw [twin.thread, twin.transfer]
  split
  · exact .error _
  have clean := twin.heap.clean (twin.orderly.scratch _ valid) fits
  refine after_goes [.crossing] pending waits crewed (Exec.onHeap_couples twin
    (copyValue_couples twin.heap twin.wayList clean fits.avoids)) ?_
  intro v s1 s2 stays suits twin crewed
  obtain ⟨w2, t2⟩ := s2
  obtain rfl : t2 = s1.thread := twin.thread
  obtain ⟨c, below, seated⟩ := crewed.context
  rw [pending]
  exact left_follows (m := ⟨s1, m1.focus, m1.pending⟩) (seated ▸ twin) seated crewed suits

theorem handed_follows (ready : Ready S T G m1 m2) (waits : m1.pending = [.host mark])
    (suits : m1.world.heap.Suits G S v) :
    Follows S T G m1.world.heap (.ok { m1.collectHome with focus := .done (.returned v) })
      (.ok { m2.collectHome with focus := .done (.returned v) }) := by
  have crewed := ready.crewed
  unfold Crewed at crewed
  rw [waits] at crewed
  have covers : m1.toState.Covers m1.thread.home m1.thread.stack.toList m1.thread.domains := by
    unfold Covers
    generalize m1.thread.domains = domains at crewed
    generalize m1.thread.frames = frames at crewed
    cases crewed with
    | host start empty =>
      exact ⟨(start.trans empty.symm).le, fun i v _ high => by omega, trivial⟩
  have other := world_collectHome m2
  rw [ready.state.thread] at other
  obtain ⟨G', carries, twin⟩ :=
    ready.state.collected ready.state.home covers (world_collectHome m1) other
  have firm := World.Firm.collected (world_collectHome m1)
  rw [collectHome_eq m1, collectHome_eq m2]
  refine .ok carries.toPassage (fun u returned closed => ?_)
    ⟨twin, rfl, ready.pending, rfl, ready.crewed.firm firm rfl rfl rfl, mark, waits⟩
  cases returned
  exact carries.outside v closed (suits.isLocal.outside ready.state.heap.first.consistent) suits.avoids

theorem stepResult_follows (ready : Ready S T G m1 m2) (here : m1.toState.Here)
    (ended : ∀ base pending, m1.pending = .frame base :: pending → Here
      { m1.toState with thread := { m1.thread.truncate base with frames := m1.thread.frames.tail } })
    (fits : m1.toState.here G v) (first : m1.focus = .result v) (second : m2.focus = .result v) :
    Follows S T G m1.world.heap (m1.stepResult v) (m2.stepResult v) := by
  have crewed := ready.crewed
  have valid := here.valid
  unfold Crewed at crewed
  unfold stepResult
  rw [ready.pending]
  cases waits : m1.pending with
  | nil => exact absurd waits crewed.ne_nil
  | cons p pending =>
    rw [waits] at crewed
    cases p with
    | frame base =>
      have popped := popped_ready ready waits
      have follows := safepoint_follows (v := v) popped (ended base pending waits) fits first second
      exact follows
    | store f instrs pc target =>
      obtain ⟨base, rest, frames, rfl, running, crewed⟩ := crewed.of_store
      have lower : Ready S T G { m1 with pending := .frame base :: rest }
          { m2 with pending := .frame base :: rest } := ⟨ready.state, rfl, crewed⟩
      exact taken_follows lower running rfl fits
    | crossing =>
      exact departBack_follows { m1 with pending } { m2 with pending } ready.state rfl
        crewed.of_crossing crewed valid fits
    | host mark =>
      obtain rfl := crewed.of_host
      have clean := ready.state.heap.clean (ready.state.orderly.scratch _ valid) fits
      rw [ready.state.thread, ready.state.scratch]
      refine after_follows ready (Exec.onHeap_couples ready.state
        (copyValue_couples ready.state.heap ready.state.ownList clean fits.avoids)) ?_
      intro v s1 s2 _ suits ready
      exact handed_follows ready waits suits
    | resume | attempt | bare => cases crewed

/-! ### Faults -/

theorem trace_eq (twin : State.Twin S T G contexts m1.toState m2.toState)
    (staffed : Staffed m1.world.Runs before m1.thread.frames contexts m1.thread.stack.size) :
    m2.thread.trace m2.world = m1.thread.trace m1.world := by
  have avoids : ∀ base count, ∀ v ∈ m1.thread.slots base count, v.Avoids G := by
    intro base count v listed
    unfold Thread.slots at listed
    split at listed
    · obtain ⟨i, -, -, found⟩ := Exec.mem_window listed
      obtain ⟨within, -⟩ := Array.getElem?_eq_some_iff.mp found
      obtain ⟨c, -, fits⟩ := twin.tiled.slot staffed.founded within found
      exact fits.avoids
    · simp at listed
  have same : ∀ base count, (m1.thread.slots base count).map m2.world.heap.describe =
      (m1.thread.slots base count).map m1.world.heap.describe := fun base count =>
    map_congr_left fun v listed => twin.heap.describe_eq (avoids base count v listed)
  unfold Thread.trace Thread.traceFrame
  rw [twin.thread]
  simp only [same, twin.alike.object]

theorem stepFault_follows (twin : State.Twin S T G m1.thread.domains m1.toState m2.toState)
    (pending : m2.pending = m1.pending) (waits : m1.pending ≠ [])
    (crewed : m1.toState.Crewed (dropped ++ m1.pending)) (first : m1.focus = .fault f)
    (second : m2.focus = .fault f) :
    Follows S T G m1.world.heap (m1.stepFault f) (m2.stepFault f) := by
  unfold stepFault
  rw [pending]
  cases top : m1.pending with
  | nil => exact absurd top waits
  | cons p rest =>
    rw [top] at crewed
    have passes : rest ≠ [] → Follows S T G m1.world.heap (.ok { m1 with pending := rest })
        (.ok { m2 with pending := rest }) := fun more =>
      .ok (.refl S G _) (by rw [Hands, first]; nofun) ⟨twin, second.trans first.symm, rfl, by
        rw [first]
        exact ⟨rfl, more, dropped ++ [p], by simpa using crewed⟩⟩
    rcases crewed.suffix (suffix_append dropped (p :: rest)) with
      ⟨rfl, rfl⟩ | ⟨more, ⟨base, rfl⟩ | ⟨g, instrs, pc, target, rfl⟩ | rfl⟩
    · dsimp only
      rw [trace_eq twin crewed]
      unfold unwind
      rw [twin.thread]
      dsimp only
      split
      · exact .ok (.refl S G _) nofun ⟨twin, rfl, pending, suffix_rfl, ⟨_, crewed⟩, rfl, top,
          _, _, rfl⟩
      · exact .error _
    · exact passes more
    · exact passes more
    · exact passes more

end Machine

/-! ### Crossings -/

namespace State

variable {S T : ListId} {G : Nat → Prop} {contexts : List DomainContext} {s1 s2 : State}
  {k : DomainKey}

/-- The windows on the stack are those of domains that exist. -/
def Known (s : State) (contexts : List DomainContext) : Prop :=
  Tiled (fun k _ => k < s.world.domains.size) s.thread.stack contexts s.thread.stack.size

section Moved

variable (twin : Twin S T G contexts s1 s2) (known : s1.Known contexts)

include twin

theorem Twin.stored_apart : ∀ j o, s1.world.Houses j o → ∀ v ∈ (s1.world.object o).members,
    (s1.world.domain j).values ≠ T := fun j _ houses _ _ => twin.orderly.transfer j houses.domain

include known

theorem Twin.placed_apart : Tiled (fun j _ => (s1.world.domain j).values ≠ T) s1.thread.stack
    contexts s1.thread.stack.size := Tiled.mono known fun j _ valid => twin.orderly.transfer j valid

theorem Twin.arrived (valid : k < s1.world.domains.size) :
    Twin S T G contexts
        { s1 with world := s1.world.modifyHeap (·.append (s1.world.domain k).values T) }
        { s2 with world := s2.world.modifyHeap (·.append (s1.world.domain k).values T) } ∧
      Passage S G s1.world.heap G (s1.world.heap.append (s1.world.domain k).values T) := by
  have into := twin.orderly.scratch k valid
  have carries := append_carries (G := G) twin.heap.first.consistent into twin.orderly.apart
  refine ⟨twin.carry ?_ (.withHeap _ _) (fun _ => rfl) ?_ carries.toConveys twin.stored_apart
    (twin.placed_apart known), carries.toPassage⟩
  · exact twin.alike
  · exact twin.heap.append (twin.stocked.lists k valid) into twin.orderly.apart

theorem Twin.dropped :
    Twin S T G contexts { s1 with world := s1.world.modifyHeap (·.freeAll T) }
        { s2 with world := s2.world.modifyHeap (·.freeAll T) } ∧
      Passage S G s1.world.heap G (s1.world.heap.freeAll T) := by
  have carries := freeAll_carries (G := G) (S := S) twin.heap.first.consistent T
  exact ⟨twin.carry twin.alike (.withHeap _ _) (fun _ => rfl) (twin.heap.freeAll T) carries.toConveys
    twin.stored_apart (twin.placed_apart known), carries.toPassage⟩

end Moved

theorem Away.known (away : s1.Away s1.thread.stack.size) : s1.Known s1.thread.domains :=
  away.anchored.rooted.mono fun _ _ rooted => rooted.1

theorem Away.valid (away : s1.Away stop) : s1.thread.current.domain < s1.world.domains.size := by
  obtain ⟨c, below, seated⟩ := exists_cons_of_ne_nil away.domains
  have anchored := away.anchored
  rw [seated] at anchored
  simpa [Thread.current, seated] using anchored.1

end State

namespace Machine

variable {S T : ListId} {G : Nat → Prop} {contexts : List DomainContext} {m m1 m2 : Machine}
  {v : Value}

theorem firm_comeBack (m : Machine) : m.world.Firm m.comeBack.world :=
  (World.Firm.modifyDomain m.world m.thread.current.domain
    (f := fun d => { d with holder := some m.thread.key }) fun _ => ⟨rfl, rfl, rfl⟩).trans
      (.modifyDomain _ m.thread.current.domain
        (f := (·.unpark m.thread.key (m.thread.domains.length - 1))) fun _ => ⟨rfl, rfl, rfl⟩)

theorem comeBack_twin (twin : State.Twin S T G contexts m1.toState m2.toState) :
    State.Twin S T G contexts m1.comeBack.toState m2.comeBack.toState := by
  obtain ⟨⟨w2, t2⟩, focus2, pending2⟩ := m2
  obtain rfl : t2 = m1.thread := twin.thread
  exact (twin.modifyDomain m1.thread.current.domain
    (f := fun d => { d with holder := some m1.thread.key }) (fun _ => rfl) fun _ =>
      ⟨rfl, rfl, rfl⟩).modifyDomain m1.thread.current.domain
        (f := (·.unpark m1.thread.key (m1.thread.domains.length - 1))) (fun _ => rfl) fun _ =>
          ⟨rfl, rfl, rfl⟩

theorem comeBack_ready (ready : Ready S T G m1 m2) : Ready S T G m1.comeBack m2.comeBack :=
  ⟨comeBack_twin ready.state, ready.pending, ready.crewed.firm (firm_comeBack m1) rfl rfl rfl⟩

theorem known_comeBack (away : m.toState.Away m.thread.stack.size) :
    m.comeBack.toState.Known m.comeBack.thread.domains := by
  unfold Known
  rw [(firm_comeBack m).domains]
  exact away.known

theorem receive_ready (ready : Ready S T G m1 m2) (known : m1.toState.Known m1.thread.domains)
    (valid : m1.thread.current.domain < m1.world.domains.size) : Ready S T G m1.receive m2.receive ∧
      Passage S G m1.world.heap G m1.receive.world.heap := by
  obtain ⟨twin, passage⟩ := ready.state.arrived known valid
  have owner : m2.owner = (m1.world.domain m1.thread.current.domain).values := by
    unfold owner
    rw [ready.state.thread, ready.state.alike.values]
  have mine : m1.owner = (m1.world.domain m1.thread.current.domain).values := rfl
  unfold receive
  rw [ready.state.thread, ready.state.transfer, owner, mine]
  rw [ready.state.thread] at twin
  exact ⟨⟨twin, ready.pending, ready.crewed.firm (.withHeap _ _) rfl rfl rfl⟩, passage⟩

section

variable (ready : Ready S T G m1 m2) (away : m1.toState.Away m1.thread.stack.size)
include ready away

theorem rolledBack_follows {next : Focus} (goesOn : next = .result .nil ∨ ∃ f, next = .fault f) :
    Follows S T G m1.world.heap (.ok (m1.rolledBack next)) (.ok (m2.rolledBack next)) := by
  have back := comeBack_ready ready
  obtain ⟨twin, passage⟩ := back.state.dropped (known_comeBack away)
  have crewed : Crewed
      { m1.comeBack.toState with world := m1.comeBack.world.modifyHeap (·.freeAll T) } m1.pending :=
    back.crewed.firm (.withHeap _ _) rfl rfl rfl
  unfold rolledBack
  dsimp only
  rw [back.state.thread, back.state.transfer]
  rw [back.state.thread] at twin
  refine .ok passage ?_ ⟨twin, rfl, ready.pending, ?_⟩
  · rcases goesOn with rfl | ⟨f, rfl⟩ <;> nofun
  · rcases goesOn with rfl | ⟨f, rfl⟩
    · exact ⟨rfl, crewed, suits_of_ref? rfl⟩
    · exact ⟨rfl, crewed.ne_nil, [], crewed⟩

theorem returned_follows (suits : m1.world.heap.Suits G T v) :
    Follows S T G m1.world.heap (.ok { m1.comeBack.receive with focus := .result v })
      (.ok { m2.comeBack.receive with focus := .result v }) := by
  have back := comeBack_ready ready
  obtain ⟨received, passage⟩ := receive_ready back (known_comeBack away)
    ((firm_comeBack m1).domains ▸ away.valid)
  have moved : (m1.world.heap.append m1.comeBack.owner T).Suits G m1.comeBack.owner v :=
    suits.moved ready.state.heap.first.consistent
  refine .ok passage nofun ⟨received.state, rfl, received.pending, rfl, received.crewed, ?_⟩
  show Suits (m1.comeBack.world.heap.append m1.comeBack.owner m1.comeBack.thread.transfer) _ _ v
  rw [back.state.transfer]
  exact moved

end

theorem stepUnwind_follows (twin : State.Twin S T G contexts m1.toState m2.toState)
    (pending : m2.pending = m1.pending) (here : m1.toState.Here)
    (within : m1.thread.domains <:+ contexts)
    (staffed : Staffed m1.world.Runs before m1.thread.frames contexts m1.thread.stack.size)
    (waits : m1.pending = [.host ⟨0, 0, 1⟩]) :
    Follows S T G m1.world.heap (m1.stepUnwind ⟨0, 0, 1⟩ (.done (.failed f trace)))
      (m2.stepUnwind ⟨0, 0, 1⟩ (.done (.failed f trace))) := by
  obtain ⟨⟨w2, t2⟩, focus2, pending2⟩ := m2
  obtain rfl : t2 = m1.thread := twin.thread
  obtain ⟨c, below, seated⟩ := here
  have current := seated.current
  unfold stepUnwind
  dsimp only
  split
  · rcases twin.alike.leave m1.thread.current.domain m1.thread.key with
      ⟨b, first, second⟩ | ⟨first, second⟩
    · rw [first, second]
      exact .error b
    · have later := twin.modifyDomain m1.thread.current.domain (f := fun d => { d with holder := none })
        (fun _ => rfl) fun _ => ⟨rfl, rfl, rfl⟩
      rw [first, second]
      exact .ok (.refl S G _) (fun _ returned => by cases returned) ⟨{ later with thread := rfl },
        rfl, pending, (tail_suffix _).trans within,
        ⟨_, staffed.mono fun _ _ runs => runs.firm (.modifyDomain _ _ fun _ => ⟨rfl, rfl, rfl⟩)⟩, rfl,
        waits, _, _, rfl⟩
  · rename_i lowest
    obtain rfl : below = [] := by
      rw [seated.domains] at lowest
      simpa using lowest
    have bottom : c.start = 0 := by
      rw [seated.domains] at within
      exact staffed.founded.bottom within
    have cut : Ready S T G
        { m1 with thread := { m1.thread.truncate 0 with frames := [] } }
        ⟨⟨w2, { m1.thread.truncate 0 with frames := [] }⟩, focus2, pending2⟩ := by
      refine ⟨{ twin with thread := rfl, tiled := ?_ }, pending, ?_⟩
      · show Tiled _ (m1.thread.stack.take 0) m1.thread.domains (m1.thread.stack.take 0).size
        rw [seated.domains]
        exact ⟨by simp [bottom], by simp, trivial⟩
      · show Staffed _ m1.pending [] m1.thread.domains (m1.thread.stack.take 0).size
        rw [seated.domains, waits]
        exact .host bottom (by simp) rfl
    have known : State.Known ⟨m1.world, { m1.thread.truncate 0 with frames := [] }⟩
        m1.thread.domains := by
      rw [seated.domains]
      exact ⟨by simp [bottom], by simp [Thread.truncate], trivial⟩
    obtain ⟨received, passage⟩ := receive_ready cut known (by
      show m1.thread.current.domain < _
      rw [current]
      exact seated.valid)
    have drop : ∀ t : Thread, t.frames.drop (t.frames.length - 0) = [] := by simp
    rw [drop]
    exact .ok passage (fun _ returned => by cases returned)
      ⟨received.state, rfl, received.pending, rfl, received.crewed, ⟨0, 0, 1⟩, waits⟩

/-- The object is gone: the domain is left again. -/
theorem turned_follows {w2 : World} {focus : Focus}
    (ready : Ready S T G m ⟨⟨w2, m.thread⟩, focus, m.pending⟩)
    (domain : DomainKey) :
    Follows S T G m.world.heap (do
        let world ← m.world.leave domain m.thread.key
        return ⟨⟨world, m.thread⟩, .rollingBack (.result .nil), m.pending⟩)
      (do
        let world ← w2.leave domain m.thread.key
        return ⟨⟨world, m.thread⟩, .rollingBack (.result .nil), m.pending⟩) := by
  rcases ready.state.alike.leave domain m.thread.key with ⟨b, first, second⟩ | ⟨first, second⟩
  · rw [first, second]
    exact .error b
  · have left := ready.modifyDomain domain (g := fun d => { d with holder := none }) (fun _ => rfl)
      fun _ => ⟨rfl, rfl, rfl⟩
    rw [first, second]
    exact .ok (.refl S G _) nofun ⟨left.state, rfl, rfl, rfl, left.crewed, .inl rfl⟩

theorem entered_ready {w2 : World} {focus : Focus}
    (ready : Ready S T G m ⟨⟨w2, m.thread⟩, focus, m.pending⟩)
    (known : m.toState.Known m.thread.domains) (valid : domain < m.world.domains.size) :
    Ready S T G
      ⟨⟨m.world.modifyHeap (·.append (m.world.domain domain).values T),
        { m.thread with
          domains := ⟨domain, m.thread.frames.length, m.thread.stack.size⟩ :: m.thread.domains }⟩,
        m.focus, .crossing :: m.pending⟩
      ⟨⟨w2.modifyHeap (·.append (m.world.domain domain).values T),
        { m.thread with
          domains := ⟨domain, m.thread.frames.length, m.thread.stack.size⟩ :: m.thread.domains }⟩,
        focus, .crossing :: m.pending⟩ := by
  have twin := (ready.state.arrived known valid).1
  exact ⟨{ twin with
      thread := rfl
      tiled := ⟨le_rfl, fun i v low high => absurd high (Nat.not_lt.mpr low), twin.tiled⟩ }, rfl,
    .crossing rfl (ready.crewed.mono fun _ _ runs => runs.firm (.withHeap _ _))⟩

theorem arrive_follows (ready : Ready S T G m1 m2) (away : m1.toState.Away m1.thread.stack.size)
    {domain : DomainKey} (valid : domain < m1.world.domains.size) (target : ObjectId)
    {args : List Value} (suits : ∀ v ∈ args, m1.world.heap.Suits G T v) (name : String) :
    Follows S T G m1.world.heap (m1.arrive domain target args (.call name))
      (m2.arrive domain target args (.call name)) := by
  obtain ⟨⟨w2, t2⟩, focus2, pending2⟩ := m2
  obtain rfl : t2 = m1.thread := ready.state.thread
  obtain rfl : pending2 = m1.pending := ready.pending
  have firm : m1.world.Firm (m1.world.hold domain m1.thread.key) :=
    .modifyDomain m1.world domain fun _ => ⟨rfl, rfl, rfl⟩
  have held : Ready S T G { m1 with world := m1.world.hold domain m1.thread.key }
      ⟨⟨w2.hold domain m1.thread.key, m1.thread⟩, focus2, m1.pending⟩ :=
    ready.modifyDomain domain (fun _ => rfl) fun _ => ⟨rfl, rfl, rfl⟩
  have known : Known ⟨m1.world.hold domain m1.thread.key, m1.thread⟩ m1.thread.domains := by
    unfold Known
    rw [firm.domains]
    exact away.known
  have same : (fun o => decide (((w2.hold domain m1.thread.key).object o).domain =
        ((w2.hold domain m1.thread.key).domain domain).id)) =
      fun o => decide (((m1.world.hold domain m1.thread.key).object o).domain =
        ((m1.world.hold domain m1.thread.key).domain domain).id) := by
    funext o
    rw [held.state.alike.object, held.state.alike.id]
  unfold arrive
  dsimp only
  rw [same, held.state.alike.findObject?]
  generalize found : Option.filter _ _ = r
  cases r with
  | none => exact turned_follows held domain
  | some o =>
    have home := of_decide_eq_true (Option.filter_eq_some_iff.mp found).2
    have same := held.state.alike.values domain
    obtain rfl : m1.thread.transfer = T := held.state.transfer
    rw [← firm.domains] at valid
    rw [same]
    exact (callObject_follows (entered_ready held known valid) valid home name fun v listed =>
      (suits v listed).moved ready.state.heap.first.consistent).after
        (held.state.arrived known valid).2

end Machine

end Tenancy
