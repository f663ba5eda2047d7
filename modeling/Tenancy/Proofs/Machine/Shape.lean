import Tenancy.Proofs.Machine.Neat
import Tenancy.Proofs.System

/-!
Calls that a host makes from the home of a thread.

Between two calls a thread has no frame and is in its home only. So its domain contexts share out its
whole stack at every point of a call, from the home at the bottom to the context on top, and when a
call is over the thread is back at home.
-/

namespace Tenancy

open List

/-! ### Windows of neat machines -/

section

open Tenancy.Action Machine

theorem World.Spares.saves {t : Thread} {w w' : World} (spares : w.Spares t w') (depth : Nat) :
    w.Saves t.key depth w' := by
  refine ⟨spares.size, fun k p isParked thread _ => ?_⟩
  have own : p ∈ w.windowsOf t.key k := mem_filter.mpr ⟨isParked, by simpa using thread⟩
  rw [← spares.windows k] at own
  exact (mem_filter.mp own).1

namespace State

variable {s s' : State} {stop : Nat}

theorem Here.leaves (here : s.Here) (leaves : s.Leaves s.thread.current.start s')
    (fits : s.thread.current.start ≤ s'.thread.stack.size) : s'.Here := by
  obtain ⟨c, below, seated⟩ := here
  rw [seated.current] at leaves fits
  have saves := leaves.saves
  rw [seated.domains] at saves
  refine ⟨c, below, leaves.domains.trans seated.domains, seated.valid.trans_le saves.size, fits, ?_⟩
  rw [leaves.key]
  exact seated.anchored.saved saves fun i before =>
    leaves.slots i before (before.trans_le fits)

theorem Here.spared (here : s.Here) {world : World} (spares : s.world.Spares s.thread world) :
    Here { s with world } :=
  here.leaves (.ofWorld (spares.saves _)) here.fits

theorem Here.away (here : s.Here) (key : s'.thread.key = s.thread.key)
    (domains : s'.thread.domains = s.thread.domains.tail) (nonempty : s'.thread.domains ≠ [])
    (saves : s.world.Saves s.thread.key (s.thread.domains.length - 1) s'.world)
    (slots : ∀ i < s.thread.current.start, s'.thread.stack[i]? = s.thread.stack[i]?) :
    s'.Away s.thread.current.start := by
  obtain ⟨c, below, seated⟩ := here
  rw [seated.domains] at saves domains
  rw [seated.current] at slots ⊢
  refine ⟨nonempty, ?_⟩
  rw [key, domains]
  exact seated.anchored.saved saves slots

theorem Here.departs (here : s.Here) (thread : s'.thread = s.thread)
    (saves : s.world.Saves s.thread.key (s.thread.domains.length - 1) s'.world)
    (parks : ⟨s.thread.key, s.thread.domains.length - 1, s.thread.window⟩ ∈
      (s'.world.domain s.thread.current.domain).parked) : s'.Away s'.thread.stack.size := by
  obtain ⟨c, below, seated⟩ := here
  rw [seated.domains] at saves
  rw [seated.current] at parks
  refine ⟨by simp [thread, seated.domains], ?_⟩
  rw [thread, seated.domains]
  refine ⟨seated.valid.trans_le saves.size, seated.fits, ⟨_, parks, rfl, ?_, ?_⟩,
    seated.anchored.saved saves fun _ _ => rfl⟩
  · simp [seated.domains]
  · simp [Thread.window, seated.current]

theorem Away.saved (away : s.Away stop) (thread : s'.thread = s.thread)
    (saves : s.world.Saves s.thread.key s.thread.domains.length s'.world) : s'.Away stop := by
  refine ⟨thread ▸ away.domains, ?_⟩
  rw [thread]
  exact away.anchored.saved saves fun _ _ => rfl

theorem Away.comesBack (away : s.Away stop) (lower : stop ≤ s.thread.stack.size)
    (thread : s'.thread = s.thread)
    (saves : s.world.Saves s.thread.key (s.thread.domains.length - 1) s'.world) : s'.Here := by
  obtain ⟨c, below, domains⟩ := exists_cons_of_ne_nil away.domains
  have anchored := away.anchored
  rw [domains] at anchored saves
  obtain ⟨valid, starts, -, lies⟩ := anchored
  refine ⟨c, below, by rw [thread, domains], valid.trans_le saves.size, ?_, ?_⟩
  · rw [thread]
    exact starts.trans lower
  · rw [thread]
    exact lies.saved saves fun _ _ => rfl

end State

namespace Machine

variable {P : Function → Prop} {origin : Footing} {m m' : Machine} {mark : Mark}

/-- The windows that are parked are what the thread has on its stack. -/
inductive Moored (m : Machine) : Prop where
  | inside (inside : ¬ m.focus.Enters) (here : m.toState.Here)
  | away (enters : m.focus.Enters) (runs : m.focus.aim? = none)
      (away : m.toState.Away m.thread.stack.size)
  | unwinds {mark : Mark} {stop : Nat} (enters : m.focus.Enters) (aim : m.focus.aim? = some mark)
      (above : mark.stack ≤ stop) (lower : stop ≤ m.thread.stack.size) (away : m.toState.Away stop)

theorem Moored.here (moored : m.Moored) (inside : ¬ m.focus.Enters) : m.toState.Here := by
  cases moored with
  | inside _ here => exact here
  | away enters | unwinds enters => exact (inside enters).elim

theorem Moored.away_of_runs (moored : m.Moored) (enters : m.focus.Enters)
    (runs : m.focus.aim? = none) : m.toState.Away m.thread.stack.size := by
  cases moored with
  | inside inside => exact (inside enters).elim
  | away _ _ away => exact away
  | unwinds _ aim => simp [runs] at aim

theorem Called.moored {m0 : Machine} (called : m0.Called m0.thread.current.start m')
    (here : m0.toState.Here) : m'.Moored := by
  cases called with
  | stays thread _ runs leaves parks =>
    by_cases enters : m'.focus.Enters
    · exact .away enters runs (here.departs thread leaves.saves (parks enters))
    · exact .inside enters (here.leaves leaves (thread ▸ here.fits))
  | enters begins _ lies height _ _ leaves inside =>
    refine .inside inside (here.leaves leaves ?_)
    calc m0.thread.current.start ≤ m0.thread.stack.size := here.fits
      _ ≤ m'.thread.stack.size := by
        rw [← begins, show m'.thread.stack.size = _ from congrArg Stacks.size height]
        exact lies.le_size

theorem Berths.moored (berths : m.Berths m') (moored : m.Moored)
    (grows : m.thread.height.Grows m'.thread.height) (aim : m'.focus.aim? = m.focus.aim?) :
    m'.Moored := by
  cases berths with
  | stays inside inside' leaves =>
    have here := moored.here inside
    exact .inside inside' (here.leaves leaves (here.fits.trans grows.size))
  | waits enters enters' thread saves =>
    cases moored with
    | inside inside => exact (inside enters).elim
    | away _ runs away => exact .away enters' (aim.trans runs) (thread ▸ away.saved thread saves)
    | unwinds _ aimed above lower away =>
      exact .unwinds enters' (aim.trans aimed) above (thread ▸ lower) (away.saved thread saves)
  | returns enters inside' thread saves =>
    cases moored with
    | inside inside => exact (inside enters).elim
    | away _ _ away => exact .inside inside' (away.comesBack le_rfl thread saves)
    | unwinds _ _ _ lower away => exact .inside inside' (away.comesBack lower thread saves)

/-- The thread comes to a domain: all its windows are parked, and there is a new context on top. -/
theorem Moored.entered (moored : m.Moored) (enters : m.focus.Enters) (runs : m.focus.aim? = none)
    (valid : domain < (m.entered domain).world.domains.size) : (m.entered domain).Here :=
  ⟨_, _, rfl, valid, le_rfl,
    (moored.away_of_runs enters runs).anchored.saved (.trans (.hold _ _ _) (.ofDomains rfl))
      fun _ _ => rfl⟩

theorem Moored.step (lawful : ∀ f, P f → f.Honest) (neat : m.Neat P origin) (moored : m.Moored)
    (stepped : m.step = .next m') : m'.Moored := by
  have next := neat.step lawful stepped
  cases neat.rests.shifts lawful neat.poised stepped with
  | runs grows _ aim berths => exact berths.moored moored grows aim
  | calls m0 _ inside grows leaves _ _ _ _ called =>
    have here := moored.here inside
    exact called.moored (here.leaves leaves (here.fits.trans grows.size))
  | arrives domain runs enters resting called =>
    exact called.moored (moored.entered enters runs resting.inside.valid)
  | settles domain runs enters state _ focus =>
    have inside : ¬ m'.focus.Enters := by rw [focus]; exact id
    refine .inside inside ?_
    have valid := (next.rests.inside inside).valid
    rw [state] at valid ⊢
    exact moored.entered enters runs valid
  | closes _ inside _ focus leaves =>
    have inside' : ¬ m'.focus.Enters := by rw [focus]; exact id
    have fits := next.poised.fits
    rw [leaves.current] at fits
    exact .inside inside' ((moored.here inside).leaves leaves fits)
  | leaves _ inside focus thread saves =>
    have enters : m'.focus.Enters := by rw [focus]; trivial
    have here := moored.here inside
    have stack : m'.thread.stack = (m.thread.truncate m.thread.current.start).stack := by rw [thread]
    have size : m'.thread.stack.size = m.thread.current.start := by
      rw [stack, Thread.truncate, Array.take_eq_extract, Array.size_extract]
      exact Nat.min_eq_left here.fits
    refine .away enters (by rw [focus]; rfl) (size ▸ here.away ?_ ?_ ?_ saves ?_)
    · rw [thread]
      rfl
    · rw [thread]
    · exact (next.rests.between enters).nonempty
    · intro i before
      rw [← size, stack] at before
      rw [stack]
      exact State.getElem?_truncate m.thread before
  | fails state inside inside' =>
    exact .inside inside' (state ▸ moored.here inside)
  | @unwinds mark aim inside aimed enters deeper thread saves =>
    have here := moored.here inside
    have above : mark.stack ≤ m.thread.current.start := by
      obtain ⟨c, below, seated⟩ := moored.here inside
      rw [seated.current]
      exact (neat.aims _ aim).stack_le seated.domains deeper
    refine .unwinds enters aimed above (thread ▸ here.fits) (here.away ?_ ?_ ?_ saves ?_)
    · rw [thread]
    · rw [thread]
    · exact (next.rests.between enters).nonempty
    · intro i _
      rw [thread]
  | lands _ inside _ inside' _ _ leaves =>
    have fits := next.poised.fits
    rw [leaves.current] at fits
    exact .inside inside' ((moored.here inside).leaves leaves fits)

theorem Moored.expire (moored : m.Moored) (expired : m.expire? = some m') : m'.Moored := by
  obtain ⟨⟨_, _, _, _, focus⟩, f, rfl⟩ := expire?_cases expired
  exact .away trivial rfl (moored.away_of_runs (by rw [focus]; trivial) (by rw [focus]; rfl))

theorem Moored.spared (moored : m.Moored) {world : World} (spares : m.world.Spares m.thread world) :
    Moored { m with world } := by
  cases moored with
  | inside inside here => exact .inside inside (here.spared spares)
  | away enters runs away => exact .away enters runs (away.saved rfl (spares.saves _))
  | unwinds enters aim above lower away =>
    exact .unwinds enters aim above lower (away.saved rfl (spares.saves _))

end Machine

namespace State

variable {P : Function → Prop} {s : State} {m : Machine}

theorem Begins.moored (begins : s.Begins m) (resting : s.Resting P) (here : s.Here) : m.Moored := by
  have ready := resting.ready here.fits
  cases begins with
  | @call target name args called =>
    rcases after_grows (m := s.idle [.host s.thread.savePoint]) resting here.fits
      (Exec.inDomain_moves fun _ => Heap.copyAll_moves args) called with
      ⟨copies, s', -, grows, leaves, restingNext, went⟩ | ⟨grows, -, -, leaves, inside⟩
    · have hereNext := here.leaves leaves (here.fits.trans grows.size)
      exact ((callOther_takes s' _ _ _).called (m := ⟨s', _, _⟩)
        (restingNext.ready hereNext.fits) went).moored hereNext
    · exact .inside inside (here.leaves leaves (here.fits.trans grows.size))
  | request requested =>
    exact ((request_takes s _).called (m := s.idle [.bare]) ready requested).moored here
  | callObject called =>
    exact ((callObject_takes s _ _ _).called (m := s.idle [.bare]) ready called).moored here
  | visit visited =>
    obtain ⟨thread, pending, runs, leaves, parks⟩ :=
      visit_stays (m := s.idle [.bare]) ready visited
    exact (Called.stays thread pending runs leaves parks).moored here
  | restore restored =>
    obtain rfl := unwind_eq restored
    exact .inside id here

end State

end

/-! ### Calls -/

/-- The thread has no frame and no value, and is in its home only. -/
def Thread.AtHome (t : Thread) : Prop := ∃ c : DomainContext, t.height = ⟨[], [c], 0⟩ ∧ c.start = 0

/-- The frames make a pile, and the contexts share out the whole stack. -/
structure Thread.Layout (t : Thread) : Prop where
  whole : t.height.Whole
  founded : Founded t.domains t.stack.size

theorem Anchored.founded (anchored : Anchored w key stack contexts stop)
    (lowest : [home] <:+ contexts) (start : home.start = 0) : Founded contexts stop := by
  induction contexts generalizing stop with
  | nil => simp at lowest
  | cons c below ih =>
    obtain ⟨-, starts, -, lower⟩ := anchored
    rcases suffix_cons_iff.mp lowest with same | further
    · obtain ⟨rfl, rfl⟩ := cons.inj same
      exact ⟨starts, start⟩
    · exact ⟨starts, ih lower further⟩

namespace State

variable {P : Function → Prop} {s : State}

theorem Here.founded (here : s.Here) (lowest : [home] <:+ s.thread.domains)
    (start : home.start = 0) : Founded s.thread.domains s.thread.stack.size := by
  obtain ⟨c, below, seated⟩ := here
  rw [seated.domains] at lowest ⊢
  refine ⟨seated.fits, ?_⟩
  rcases suffix_cons_iff.mp lowest with same | further
  · obtain ⟨rfl, rfl⟩ := cons.inj same
    exact start
  · exact seated.anchored.founded further start

/-- The thread is in a domain, over a stack that is shared out. -/
structure Settled (s : State) : Prop where
  here : s.Here
  layout : s.thread.Layout

structure Idle (P : Function → Prop) (s : State) : Prop where
  resting : s.Resting P
  home : s.thread.AtHome

theorem Idle.here (idle : s.Idle P) : s.Here := by
  obtain ⟨c, height, start⟩ := idle.home
  have domains : s.thread.domains = [c] := congrArg Stacks.domains height
  have valid := idle.resting.inside.valid
  rw [Thread.current, domains] at valid
  exact ⟨c, [], domains, valid, start.le.trans (Nat.zero_le _), trivial⟩

theorem Idle.whole (idle : s.Idle P) : s.thread.height.Whole := by
  obtain ⟨c, height, start⟩ := idle.home
  rw [height]
  exact ⟨⟨.nil, by simp, by simp [start], by simp, by simp⟩, by simp⟩

theorem Idle.deed (idle : s.Idle P) {world : World} (deed : s.world.Deed P world) :
    Idle P { s with world } :=
  have sound := idle.resting.regular.sound.world
  ⟨idle.resting.lets (deed.lets sound s.thread) (deed.kept sound).1, idle.home⟩

theorem Attached.idle (attached : s.Attached P) : s.Idle P := by
  obtain ⟨w, blank, attach⟩ := attached
  refine ⟨World.attach_resting blank.sound (System.orderly_blank blank).keyed attach, ?_⟩
  obtain ⟨name, -, same⟩ := Thread.attach_furnished attach
  rw [same]
  exact ⟨_, rfl, rfl⟩

end State

/-- A call that has begun at home is under way. -/
def Posture (P : Function → Prop) (s : State) (pending : List Pending) (focus : Focus) : Prop :=
  ∃ origin : Footing, origin.hosted = true ∧ origin.thread.AtHome ∧
    Machine.Neat P origin ⟨s, focus, pending⟩ ∧ Machine.Moored ⟨s, focus, pending⟩

structure Machine.Shaped (P : Function → Prop) (m : Machine) : Prop where
  sound : m.toState.Sound P
  posture : Posture P m.toState m.pending m.focus

namespace Machine

variable {P : Function → Prop} {m m' : Machine}

/-- A function that is over leaves the stacks that it was called on. -/
theorem ended_settled {s : State} {base : Nat} {pending : List Pending} {v : Value}
    (posture : Posture P s (.frame base :: pending) (.result v)) :
    State.Settled { s with thread := { s.thread.truncate base with frames := s.thread.frames.tail } } := by
  obtain ⟨origin, hosted, ⟨home, height, start⟩, neat, moored⟩ := posture
  have here : s.Here := moored.here id
  obtain ⟨caller, whole, -, sure, stacked, -⟩ := neat.calls.level [] rfl
  obtain ⟨f, low, below, rfl, same, fits⟩ := stacked.of_frame
  obtain ⟨-, rfl⟩ := below.of_host
  have frames : s.thread.frames.tail = caller.thread.frames := by
    rw [show s.thread.frames = _ from congrArg Stacks.frames same]
    rfl
  have domains : s.thread.domains = caller.thread.domains := congrArg Stacks.domains same
  have size : (s.thread.stack.take caller.thread.stack.size).size = caller.thread.stack.size :=
    size_take fits
  have starts : s.thread.current.start ≤ (s.thread.stack.take caller.thread.stack.size).size := by
    rw [size]
    obtain ⟨c, contexts, seated⟩ := here
    rw [seated.current]
    refine whole.starts c ?_
    rw [show caller.thread.height.domains = _ from domains.symm, seated.domains]
    exact mem_cons_self
  have hereStill : State.Here { s with thread :=
      { s.thread.truncate caller.thread.stack.size with frames := s.thread.frames.tail } } :=
    here.leaves ⟨rfl, .refl _, fun _ _ within => State.getElem?_truncate s.thread within⟩ starts
  have lowest : [home] <:+ s.thread.domains := by
    have rises := (neat.rests.rises hosted).domains
    rwa [height] at rises
  refine ⟨hereStill, ?_, hereStill.founded lowest start⟩
  have ended : (⟨s.thread.frames.tail, s.thread.domains,
      (s.thread.stack.take caller.thread.stack.size).size⟩ : Stacks) = caller.thread.height := by
    rw [frames, domains, size]
    rfl
  rw [← ended] at whole
  exact whole

namespace Shaped

theorem here (shaped : m.Shaped P) (inside : ¬ m.focus.Enters) : m.toState.Here := by
  obtain ⟨_, -, -, -, moored⟩ := shaped.posture
  exact moored.here inside

theorem away (shaped : m.Shaped P) (enters : m.focus.Enters) (runs : m.focus.aim? = none) :
    m.toState.Away m.thread.stack.size := by
  obtain ⟨_, -, -, -, moored⟩ := shaped.posture
  exact moored.away_of_runs enters runs

theorem of_neat (hosted : origin.hosted = true) (home : origin.thread.AtHome)
    (neat : m.Neat P origin) (moored : m.Moored) : m.Shaped P :=
  ⟨neat.rests.regular.sound, origin, hosted, home, neat, moored⟩

theorem step (lawful : ∀ f, P f → f.Disciplined) (shaped : m.Shaped P) (stepped : m.step = .next m') :
    m'.Shaped P := by
  obtain ⟨origin, hosted, home, neat, moored⟩ := shaped.posture
  have honest : ∀ f, P f → f.Honest := fun f all => (lawful f all).honest
  exact of_neat hosted home (neat.step honest stepped) (moored.step honest neat stepped)

theorem expire (shaped : m.Shaped P) (expired : m.expire? = some m') : m'.Shaped P := by
  obtain ⟨origin, hosted, home, neat, moored⟩ := shaped.posture
  exact of_neat hosted home (neat.expire expired) (moored.expire expired)

theorem finish (shaped : m.Shaped P) (finished : m.step = .done outcome s) : s.Idle P := by
  obtain ⟨origin, hosted, ⟨c, height, start⟩, neat, -⟩ := shaped.posture
  have resting := neat.rests.finish finished
  obtain ⟨focus, rfl⟩ := step_done_iff.mp finished
  have bearing := neat.rests.bearing
  rw [show Machine.focus ⟨m.toState, m.focus, m.pending⟩ = .done outcome from focus] at bearing
  exact ⟨resting, c, (bearing.2 hosted).1.trans height, start⟩

end Shaped

theorem call_shaped (lawful : ∀ f, P f → f.Disciplined) {s : State} (idle : s.Idle P)
    (called : s.call target name args = .ok m) : m.Shaped P := by
  have honest : ∀ f, P f → f.Honest := fun f all => (lawful f all).honest
  exact .of_neat rfl idle.home (idle.resting.call_neat honest idle.whole called)
    (State.Begins.moored (.call called) idle.resting idle.here)

end Machine

/-- What holds in every phase of a session. -/
def Phase.Proper (P : Function → Prop) : Phase → Prop
  | .idle s => s.Idle P
  | .running m => m.Shaped P

theorem Session.proper {H : Hosting} {phase : Phase} (lawful : ∀ f, P f → f.Disciplined)
    (begins : ∀ s, H.Begins s → s.Idle P) (acts : ∀ s s', s.Idle P → H.Acts s s' → s'.Idle P)
    (session : Session H phase) : phase.Proper P := by
  induction session with
  | begin start => exact begins _ start
  | act _ acted ih => exact acts _ _ ih acted
  | call _ _ called ih => exact Machine.call_shaped lawful ih called
  | step _ stepped ih => exact Machine.Shaped.step lawful ih stepped
  | expire _ expired ih => exact Machine.Shaped.expire ih expired
  | finish _ finished ih => exact Machine.Shaped.finish ih finished

end Tenancy
