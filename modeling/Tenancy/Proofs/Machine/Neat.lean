import Tenancy.Proofs.Machine.Shifts

/-!
Neat machines.

The frames of a thread make a pile at every point of a run: what goes down goes down to stacks that
the thread had before, a result to those that its call was made on, an unwound fault to those of a
save point. The windows of the contexts that the thread is not in are parked as they are on the stack.
-/

namespace Tenancy

open Tenancy.Action List Machine

namespace Machine

variable {P : Function → Prop} {w0 : World} {origin : Footing} {m m' : Machine} {mark : Mark}
  {base : Nat} {below : List Pending}

/-- The machine runs a call that was made on a pile of frames, over what waits for its outcome. -/
def Opened (P : Function → Prop) (waits : List Pending) (m : Machine) : Prop :=
  ∃ s : State, s.thread.height.Whole ∧ m.Within P s waits

/-- All calls that wait to be over were made on a pile of frames. -/
def Calling (P : Function → Prop) (m : Machine) : List Pending → Prop
  | [] => True
  | e :: below => (e.Opens → m.Opened P below) ∧ Calling P m below

theorem Calling.of_suffix {pending : List Pending} (calling : m.Calling P pending)
    (suffix : below <:+ pending) : m.Calling P below := by
  induction pending with
  | nil =>
    rw [suffix_nil.mp suffix]
    trivial
  | cons e pending ih =>
    rcases suffix_cons_iff.mp suffix with rfl | lower
    · exact calling
    · exact ih calling.2 lower

theorem Calling.map (calling : m.Calling P below) (suffix : below <:+ m.pending)
    (goesOn : ∀ s waits, m.Within P s waits → ¬ m.Back waits → m'.Within P s waits) :
    m'.Calling P below := by
  induction below with
  | nil => trivial
  | cons e below ih =>
    obtain ⟨opened, lower⟩ := calling
    have shorter := suffix.length_le
    refine ⟨fun opens => ?_, ih lower ((suffix_cons _ _).trans suffix)⟩
    obtain ⟨s, whole, within⟩ := opened opens
    refine ⟨s, whole, goesOn s below within fun back => ?_⟩
    rw [back.2, length_cons] at shorter
    omega

/-- The frames of the thread make a pile, and so did they at all save points and before all calls that
the machine may come back to. -/
structure Neat (P : Function → Prop) (origin : Footing) (m : Machine) : Prop where
  rests : m.Rests P m.world origin
  piled : m.thread.height.Piled
  whole : m.focus.aim? = none → m.thread.height.Whole
  aims : ∀ mark, m.focus.aim? = some mark → m.thread.height.Keeps mark
  saved : ¬ m.focus.Ends → ∀ e ∈ m.pending, ∀ mark, e.mark? = some mark → m.thread.height.Keeps mark
  calls : m.Calling P m.pending

theorem Called.neat {m0 : Machine} (called : m0.Called base m')
    (within : m'.Within P m0.toState m0.pending) (nonempty : m0.thread.domains ≠ [])
    (whole : m0.thread.height.Whole) (rests : m'.Rests P m'.world origin)
    (saved : ∀ e ∈ m0.pending, ∀ mark, e.mark? = some mark → m0.thread.height.Keeps mark)
    (calls : m'.Calling P m0.pending) : m'.Neat P origin := by
  cases called with
  | stays thread pending runs =>
    rw [← thread] at whole saved
    exact ⟨rests, whole.toPiled, fun _ => whole, by simp [runs],
      fun _ e waits => saved e (pending ▸ waits),
      pending ▸ calls⟩
  | enters begins depth lies height pending runs =>
    have entered := whole.enter nonempty begins depth lies
    have tops : m'.thread.height.Tops m0.thread.height := by
      rw [height]
      exact ⟨suffix_cons _ _, ⟨[], rfl, by simp⟩, begins.ge.trans lies.le_size⟩
    refine ⟨rests, height ▸ entered.toPiled, fun _ => height ▸ entered, by simp [runs],
      fun _ e waits mark same => ?_, ?_⟩
    · rw [pending] at waits
      rcases mem_cons.mp waits with rfl | below
      · simp [Pending.mark?] at same
      · exact (saved e below mark same).rise tops
    · rw [pending]
      exact ⟨fun _ => ⟨m0.toState, whole, within⟩, calls⟩

theorem above_of_stacked (stacked : Stacked low true sure [.frame bottom, .host mark] high)
    (whole : low.Whole) (running : high.frames = f :: frames) (listed : c ∈ high.domains) :
    f.Above c.start := by
  obtain ⟨begins, -, lies⟩ := stacked.frame_above running
  obtain ⟨g, middle, below, rfl, same, -⟩ := stacked.of_frame
  obtain ⟨-, rfl⟩ := below.of_host
  rw [same] at listed
  have starts := whole.starts c listed
  rw [← begins] at starts
  exact ⟨starts, starts.trans lies.le_locals⟩

theorem Calling.level (calling : m.Calling P m.pending) (above : List Pending) {bottom : Nat}
    (pending : m.pending = above ++ .frame bottom :: below) : ∃ s : State, s.thread.height.Whole ∧
      Bearing ⟨s, true⟩ m.toState (above ++ [.frame bottom, .host s.thread.savePoint]) m.focus := by
  have suffix : .frame bottom :: below <:+ m.pending := ⟨above, pending.symm⟩
  obtain ⟨s, whole, inner, same, rests⟩ := (calling.of_suffix suffix).1 trivial
  have split : inner = above ++ [.frame bottom] := by
    apply append_cancel_right
    rw [← same, pending, append_assoc]
    rfl
  have bearing := rests.bearing
  simp only [split, append_assoc, singleton_append] at bearing
  exact ⟨s, whole, bearing⟩

theorem Neat.writer_above (neat : m.Neat P origin) (writes : m.writer? = some f)
    (listed : c ∈ m.thread.domains) : f.Above c.start := by
  have bearing := neat.rests.bearing
  unfold writer? at writes
  split at writes
  · rename_i focus
    cases writes
    rw [focus] at bearing
    obtain ⟨-, -, below, frames, pending, running⟩ := bearing
    obtain ⟨s, whole, level⟩ := neat.calls.level [] pending
    rw [focus] at level
    obtain ⟨⟨-, sure, stacked, -⟩, -⟩ := level
    exact above_of_stacked stacked whole running listed
  · rename_i focus waits
    cases writes
    rw [focus, waits] at bearing
    obtain ⟨-, sure, stacked, -⟩ := bearing
    cases stacked with
    | lost _ asks => simp at asks
    | store =>
      obtain ⟨s, whole, level⟩ := neat.calls.level [_] waits
      rw [focus] at level
      obtain ⟨-, sure, stacked, -⟩ := level
      cases stacked with
      | lost _ asks => simp at asks
      | store running _ below => exact above_of_stacked below whole running listed
  · simp at writes

theorem Neat.poised (neat : m.Neat P origin) : m.Poised := by
  cases domains : m.thread.domains with
  | nil =>
    have start : m.thread.current.start = 0 := by rw [Thread.current, domains]; rfl
    exact ⟨start ▸ Nat.zero_le _, fun f _ => start ▸ above_zero f⟩
  | cons c contexts =>
    have current : m.thread.current = c := by rw [Thread.current, domains]; rfl
    have listed : c ∈ m.thread.domains := domains ▸ mem_cons_self
    exact ⟨current ▸ neat.piled.starts c listed,
      fun f writes => current ▸ neat.writer_above writes listed⟩

theorem Neat.saved_of (neat : m.Neat P origin) (stepped : m.step = .next m')
    (rests : m'.Rests P m'.world origin)
    (either : m'.thread.height.Tops m.thread.height ∨ m.thread.height.Over m'.thread.height)
    (goesOn : ¬ m'.focus.Ends) (waits : e ∈ m.pending) (waits' : e ∈ m'.pending)
    (same : e.mark? = some mark) : m'.thread.height.Keeps mark := by
  have keeps := neat.saved (fun ends => goesOn (ends_of_step ends stepped)) e waits mark same
  rcases either with tops | lower
  · exact keeps.rise tops
  · obtain ⟨low, above, sameMark⟩ := rests.mark_over goesOn waits' same
    exact keeps.lower lower above sameMark

section

variable (lawful : ∀ f, P f → f.Honest) (neat : m.Neat P origin) (stepped : m.step = .next m')
include lawful neat stepped

theorem Neat.whole_of_yields (pending : m.pending = e :: m'.pending) (opens : e.Opens)
    (yields : ∃ v, m'.focus = .result v ∨ m'.focus = .returning v) : m'.thread.height.Whole := by
  have opened := neat.calls
  rw [pending] at opened
  obtain ⟨s, whole, within⟩ := opened.1 opens
  have away : ¬ m.Back m'.pending := fun back => by simpa [pending] using congrArg length back.2
  rw [(within.step lawful away stepped).thread_eq rfl yields]
  exact whole

theorem Neat.step : m'.Neat P origin := by
  have rests : m'.Rests P m'.world origin := (neat.rests.step lawful stepped).anew
  have calling : ∀ {below}, below <:+ m.pending → m'.Calling P below := fun suffix =>
    (neat.calls.of_suffix suffix).map suffix fun _ _ within away => within.step lawful away stepped
  -- Where nothing new waits, only the heights have to be compared.
  have sofar : m'.pending <:+ m.pending →
      m'.thread.height.Tops m.thread.height ∨ m.thread.height.Over m'.thread.height →
      ¬ m'.focus.Ends → ∀ e ∈ m'.pending, ∀ mark, e.mark? = some mark → m'.thread.height.Keeps mark :=
    fun suffix either goesOn e waits mark same =>
      neat.saved_of stepped rests either goesOn (suffix.subset waits) waits same
  cases neat.rests.shifts lawful neat.poised stepped with
  | runs grows pending aim =>
    exact ⟨rests, neat.piled.grow grows, fun runs => (neat.whole (aim ▸ runs)).grow grows,
      fun mark aimed => (neat.aims mark (aim ▸ aimed)).rise grows.tops,
      sofar pending (.inl grows.tops), calling pending⟩
  | calls m0 runs _ grows _ resting pending shut saved called within =>
    have whole := (neat.whole runs).grow grows
    have going := not_ends_of_step runs stepped
    refine called.neat within resting.inside.nonempty whole rests ?_ ?_
    · intro e waits mark same
      rw [pending] at waits
      rcases mem_cons.mp waits with rfl | old
      · rw [saved mark same]
        exact whole.keeps
      · exact (neat.saved going e old mark same).rise grows.tops
    · rw [pending]
      exact ⟨fun opens => (shut opens).elim, calling suffix_rfl⟩
  | arrives domain runs _ resting called inner outer =>
    have going := not_ends_of_step runs stepped
    refine called.neat inner resting.inside.nonempty ((neat.whole runs).cross rfl) rests ?_ ?_
    · intro e waits mark same
      rcases mem_cons.mp waits with rfl | old
      · simp [Pending.mark?] at same
      · refine (neat.saved going e old mark same).rise ?_
        exact ⟨suffix_rfl, ⟨[_], rfl, by simp [Thread.height]⟩, le_rfl⟩
    · exact ⟨fun _ => ⟨m.toState, neat.whole runs, outer⟩, calling suffix_rfl⟩
  | settles domain runs _ state pending focus =>
    have crossed : m'.thread.height.Whole := by
      rw [state]
      exact (neat.whole runs).cross rfl
    exact ⟨rests, crossed.toPiled, fun _ => crossed, by simp [focus, Focus.aim?],
      fun goesOn => (goesOn (focus ▸ trivial)).elim, calling (pending ▸ suffix_rfl)⟩
  | closes pending _ lower focus =>
    have whole := neat.whole_of_yields lawful stepped pending trivial ⟨_, .inl focus⟩
    have suffix : m'.pending <:+ m.pending := pending ▸ suffix_cons _ _
    exact ⟨rests, whole.toPiled, fun _ => whole, by simp [focus, Focus.aim?],
      sofar suffix (.inr lower), calling suffix⟩
  | leaves pending _ focus thread =>
    have whole := neat.whole_of_yields lawful stepped pending trivial ⟨_, .inr focus⟩
    have suffix : m'.pending <:+ m.pending := pending ▸ suffix_cons _ _
    have lower : m.thread.height.Over m'.thread.height := by
      rw [thread]
      exact over_truncate m.thread _ suffix_rfl (tail_suffix _)
    exact ⟨rests, whole.toPiled, fun _ => whole, by simp [focus, Focus.aim?],
      sofar suffix (.inr lower), calling suffix⟩
  | fails state _ _ pending aim going saved =>
    have sameHeight : m'.thread.height = m.thread.height := by rw [state]
    have tops : m'.thread.height.Tops m.thread.height := sameHeight ▸ (Stacks.Grows.refl _).tops
    refine ⟨rests, sameHeight ▸ neat.piled, by simp [aim], fun mark aimed => ?_,
      sofar pending (.inl tops), calling pending⟩
    rw [sameHeight]
    obtain rfl := Option.some.inj (aim.symm.trans aimed)
    obtain ⟨e, waits, same⟩ := saved
    exact neat.saved going e waits _ same
  | unwinds aim _ aimed _ deeper thread _ pending =>
    have height : m'.thread.height = { m.thread.height with domains := m.thread.domains.tail } := by
      rw [thread]
      rfl
    refine ⟨rests, height ▸ neat.piled.tail, by simp [aimed], fun mark again => ?_,
      sofar (pending ▸ suffix_rfl) (.inr ?_), calling (pending ▸ suffix_rfl)⟩
    · obtain rfl := Option.some.inj (aimed.symm.trans again)
      rw [height]
      exact (neat.aims _ aim).tail deeper
    · rw [height]
      exact ⟨suffix_rfl, tail_suffix _, le_rfl⟩
  | lands aim _ runs _ lower reached _ pending =>
    have whole := (neat.aims _ aim).whole lower reached
    exact ⟨rests, whole.toPiled, fun _ => whole, by simp [runs],
      sofar (pending ▸ suffix_rfl) (.inr lower), calling (pending ▸ suffix_rfl)⟩

end

theorem Neat.expire (neat : m.Neat P origin) (expired : m.expire? = some m') : m'.Neat P origin := by
  have rests := (neat.rests.expire expired).anew
  have calling := neat.calls.map suffix_rfl fun _ _ within _ => within.expire expired
  obtain ⟨⟨_, _, _, _, focus⟩, f, rfl⟩ := expire?_cases expired
  have whole := neat.whole (by rw [focus]; rfl)
  exact ⟨rests, neat.piled, fun _ => whole, by simp [Focus.aim?],
    fun _ => neat.saved (by rw [focus]; exact id), calling⟩

theorem Neat.spared (neat : m.Neat P origin) (spares : m.world.Spares m.thread world)
    (sound : world.Sound P) : Neat P origin { m with world } where
  rests := neat.rests.spared spares sound
  piled := neat.piled
  whole := neat.whole
  aims := neat.aims
  saved := neat.saved
  calls := neat.calls.map suffix_rfl fun _ _ within _ => within.spared spares sound

end Machine

namespace State

variable {P : Function → Prop} {s : State} {m : Machine}

theorem Resting.call_neat (lawful : ∀ f, P f → f.Honest) (resting : s.Resting P)
    (whole : s.thread.height.Whole)
    (called : s.call target name args = .ok m) : m.Neat P ⟨s, true⟩ := by
  have rests := (resting.call lawful called).anew
  rcases after_grows (m := s.idle [.host s.thread.savePoint]) resting (Nat.zero_le _)
    (Exec.inDomain_moves fun _ => Heap.copyAll_moves args) called with
    ⟨copies, s', -, grows, -, restingNext, went⟩ | ⟨grows, pending, runs, -⟩
  · have takes := callOther_takes s' name copies target
    refine (takes.called (m := ⟨s', _, _⟩) (restingNext.ready (Nat.zero_le _)) went).neat
      (takes.within (m := ⟨s', _, _⟩) lawful restingNext went)
      restingNext.inside.nonempty (whole.grow grows) rests ?_ ⟨False.elim, trivial⟩
    intro e waits mark same
    obtain rfl := mem_singleton.mp waits
    cases same
    exact whole.keeps.rise grows.tops
  · have grown := whole.grow grows
    refine ⟨rests, grown.toPiled, fun _ => grown, by simp [runs], fun _ e waits mark same => ?_,
      pending ▸ ⟨False.elim, trivial⟩⟩
    obtain rfl := mem_singleton.mp (pending ▸ waits)
    cases same
    exact whole.keeps.rise grows.tops

theorem Begins.neat (lawful : ∀ f, P f → f.Honest) (begins : s.Begins m) (resting : s.Resting P)
    (whole : s.thread.height.Whole)
    (fits : ∀ mark next, m.focus = .unwinding mark next → s.thread.height.Fits mark) :
    ∃ origin, m.Neat P origin := by
  have ready : (Exec.motion P 0).Ready s := resting.ready (Nat.zero_le _)
  have bare : ∀ {call}, Takes s call → call (s.idle [.bare]) = .ok m → ∃ origin, m.Neat P origin :=
    fun takes called => ⟨_, (takes.called (m := s.idle [.bare]) ready called).neat
      (takes.within (m := s.idle [.bare]) lawful resting called) resting.inside.nonempty whole
      (takes.rests (m := s.idle [.bare]) resting.regular resting.bare lawful called).anew
      (by simp [idle, Pending.mark?]) ⟨False.elim, trivial⟩⟩
  cases begins with
  | call called => exact ⟨_, resting.call_neat lawful whole called⟩
  | request requested => exact bare (request_takes s _) requested
  | callObject called => exact bare (callObject_takes s _ _ _) called
  | visit visited =>
    obtain ⟨thread, pending, runs, -⟩ := visit_stays (m := s.idle [.bare]) ready visited
    have sameWhole : m.thread.height.Whole := by
      rw [thread]
      exact whole
    exact ⟨_, (visit_rests (m := s.idle [.bare]) resting.regular resting.bare (fun _ => rfl)
      visited).anew, sameWhole.toPiled, fun _ => sameWhole, by simp [runs],
      by simp [pending, idle, Pending.mark?], pending ▸ ⟨False.elim, trivial⟩⟩
  | @restore mark restored =>
    have rests := (resting.restore restored).anew
    have valid : mark.domains ≤ s.thread.domains.length ∧ mark.calls ≤ s.thread.frames.length ∧
        mark.stack ≤ s.thread.stack.size := by
      unfold State.restore unwind at restored
      dsimp only at restored
      split at restored
      · exact And.right ‹_›
      · simp at restored
    obtain rfl := unwind_eq restored
    have keeps := (fits mark _ rfl).keeps whole valid.2.1 valid.2.2 valid.1
    refine ⟨_, rests, whole.toPiled, by simp [Focus.aim?], fun aim aimed => ?_,
      fun goesOn => (goesOn trivial).elim, trivial⟩
    cases aimed
    exact keeps

end State

end Tenancy
