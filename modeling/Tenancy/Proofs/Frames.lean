import Tenancy.Proofs.Occupancy

/-!
The discipline of frames.

Frames share one stack of values with what natives keep, and save points, returns and crossings cut
that stack at places of their own. All the same no window of a frame ever overlaps another one or
reaches below its domain context. A call that comes back with a result leaves the stacks of its
caller as they were, whatever it has called, caught or kept itself, and a trace shows each frame with
its arguments and locals.
-/

namespace Tenancy

open Tenancy.Action List Option Exec

/-! ### Traces -/

namespace Thread

variable {t : Thread} {base count : Nat}

theorem length_slots (fits : base + count ≤ t.stack.size) : (t.slots base count).length = count := by
  rw [slots, if_pos fits]
  simp only [Array.length_toList, Array.size_extract]
  omega

theorem getElem?_slots (fits : base + count ≤ t.stack.size) (within : i < count) :
    (t.slots base count)[i]? = t.stack[base + i]? := by
  rw [slots, if_pos fits, Array.getElem?_toList, Array.getElem?_extract, if_pos]
  omega

end Thread

structure Frame.Shown (w : World) (t : Thread) (f : Frame) (e : TraceFrame) : Prop where
  function : e.function = f.function.name
  program : e.program = f.program.name
  object : e.object = (w.object f.object).id
  argc : e.args.length = f.argc
  args : ∀ i < f.argc, e.args[i]? = t.stack[f.argsBase + i]?.map w.heap.describe
  localCount : e.locals.length = f.localCount
  locals : ∀ i < f.localCount, e.locals[i]? = t.stack[f.localsBase + i]?.map w.heap.describe

theorem Thread.traceFrame_shown {t : Thread} {f : Frame} (lies : f.Lies t.stack.size) :
    f.Shown w t (t.traceFrame w f) := by
  have args : f.argsBase + f.argc ≤ t.stack.size := by
    have given := lies.given
    have locals := lies.locals
    have fits := lies.fits
    omega
  refine ⟨rfl, rfl, rfl, ?_, fun i within => ?_, ?_, fun i within => ?_⟩
  · rw [traceFrame, length_map, length_slots args]
  · rw [traceFrame, getElem?_map, getElem?_slots args within]
  · rw [traceFrame, length_map, length_slots lies.fits]
  · rw [traceFrame, getElem?_map, getElem?_slots lies.fits within]

theorem Thread.trace_shown (lies : ∀ f ∈ t.frames, f.Lies t.stack.size) :
    List.Forall₂ (Frame.Shown w t) t.frames (t.trace w) := by
  rw [trace, forall₂_map_right_iff, forall₂_same]
  exact fun f listed => traceFrame_shown (lies f listed)

/-! ### Neat systems -/

/-- The frames of the thread make a pile, and so do those that its run comes back to. What is parked
of the thread is what it has on its stack. -/
def Phase.Neat (P : Function → Prop) : Phase → Prop
  | .idle s => s.thread.height.Whole ∧ s.Here
  | .running m => (∃ origin, m.Neat P origin) ∧ m.Moored

theorem Phase.Neat.goes (lawful : ∀ f, P f → f.Honest) {phase phase' : Phase}
    (orderly : phase.Orderly P) (neat : phase.Neat P) (goes : phase.Goes phase')
    (fits : ∀ s m mark next, phase = .idle s → phase' = .running m → m.focus = .unwinding mark next →
      s.thread.height.Fits mark) : phase'.Neat P := by
  cases goes with
  | begin begins =>
    obtain ⟨whole, here⟩ := neat
    exact ⟨begins.neat lawful orderly whole fun mark next focus => fits _ _ mark next rfl rfl focus,
      begins.moored orderly here⟩
  | step stepped =>
    obtain ⟨⟨origin, neat⟩, moored⟩ := neat
    exact ⟨⟨origin, neat.step lawful stepped⟩, moored.step lawful neat stepped⟩
  | expire expired =>
    obtain ⟨⟨origin, neat⟩, moored⟩ := neat
    exact ⟨⟨origin, neat.expire expired⟩, moored.expire expired⟩
  | finish finished =>
    obtain ⟨⟨origin, neat⟩, moored⟩ := neat
    obtain ⟨focus, rfl⟩ := Machine.step_done_iff.mp finished
    exact ⟨neat.whole (by rw [focus]; rfl), moored.here (by rw [focus]; exact id)⟩

namespace System

variable {P : Function → Prop} {σ σ' : System} {key : ThreadKey}

def Neat (P : Function → Prop) (σ : System) : Prop :=
  ∀ key task, σ.tasks key = some task → (task.phase σ.world).Neat P

theorem Moves.attached (moves : σ.Moves P σ') (new : σ.tasks key = none)
    (among : σ'.tasks key = some task) :
    ∃ t, Thread.attach σ.world = .ok (t, σ'.world) ∧ task = .idle t := by
  cases moves with
  | @attach t w attached =>
    rw [tasks_put] at among
    split at among
    · exact ⟨t, attached, (some.inj among).symm⟩
    · simp [new] at among
  | go runs =>
    rw [tasks_put] at among
    split at among
    · rename_i same
      simp [← same, new] at runs
    · simp [new] at among
  | deed | forget => simp [new] at among
  | release =>
    rw [tasks_put] at among
    split at among
    · simp at among
    · simp [new] at among

theorem Neat.moves (lawful : ∀ f, P f → f.Honest) (orderly : σ.Orderly P) (neat : σ.Neat P)
    (moves : σ.Moves P σ') (heeds : σ.Heeds σ') : σ'.Neat P := by
  intro key task' among'
  cases among : σ.tasks key with
  | none =>
    obtain ⟨t, attached, rfl⟩ := moves.attached among among'
    have resting : State.Resting P ⟨σ'.world, t⟩ := (orderly.moves moves).phase key _ among'
    obtain ⟨name, -, rfl⟩ := Thread.attach_furnished attached
    refine ⟨⟨⟨.nil, ?_, ?_, ?_, ?_⟩, ?_⟩, _, [], rfl, resting.inside.valid, Nat.zero_le _, trivial⟩
    all_goals simp [Thread.height]
  | some task =>
    have before := neat key task among
    rcases orderly.own_or_spared moves among among' with
      ⟨phase, goes, rfl, world⟩ | ⟨rfl, spares⟩
    · rw [world, Phase.phase_task]
      refine Phase.Neat.goes lawful (orderly.phase key task among) before goes ?_
      rintro s m mark next idle rfl focus
      cases task with
      | running => simp [Task.phase] at idle
      | idle t =>
        obtain rfl := Phase.idle.inj idle
        refine heeds key t m.thread mark next m.pending among ?_
        rw [among', Phase.task, focus]
    · cases task' with
      | idle =>
        obtain ⟨whole, here⟩ := before
        exact ⟨whole, here.spared spares⟩
      | running t focus pending =>
        obtain ⟨⟨origin, run⟩, moored⟩ := before
        exact ⟨⟨origin, run.spared spares (orderly.moves moves).sound⟩, moored.spared spares⟩

theorem Tended.neat (lawful : ∀ f, P f → f.Honest) (tended : σ.Tended P) : σ.Neat P := by
  obtain ⟨w, blank, path⟩ := tended
  have both : σ.Reachable P ∧ σ.Neat P := by
    induction path with
    | refl => exact ⟨⟨w, blank, .refl⟩, by simp [Neat]⟩
    | tail _ step ih =>
      obtain ⟨reachable, neat⟩ := ih
      exact ⟨reachable.moves step.1, neat.moves lawful (reachable.orderly) step.1 step.2⟩
  exact both.2

end System

/-! ### Calls that threads make -/

/-- The next step of the machine makes a call. It makes it as the second machine, where the caller
waits on top for what comes back. -/
inductive Machine.Asks (m : Machine) : Machine → Request → Prop where
  | code {f : Frame} {instructions : Array Instruction} {pc : Nat} {r : Request} {target : Operand}
      {s : State} (focus : m.focus = .code f instructions pc)
      (ran : instruction f instructions pc m.toState = .ok (.call r target) s) :
      Asks m ⟨s, m.focus, .store f instructions (pc + 1) target :: m.pending⟩ r
  | native {r : Request} {next : Except Fault Value → Native Value} {f : Frame} {frames : List Frame}
      (focus : m.focus = .native (.act (.call r) next)) (running : m.thread.frames = f :: frames) :
      Asks m { m with pending := .resume next :: m.pending } r
  | attempt {target : ObjectId} {name : String} {args : List Value}
      {next : Except Fault Value → Native Value} {f : Frame} {frames : List Frame}
      (focus : m.focus = .native (.act (.tryCall target name args) next))
      (running : m.thread.frames = f :: frames) :
      Asks m { m with pending := .attempt m.thread.savePoint next :: m.pending }
        (.other target name args)

theorem Machine.Asks.step_eq {m m0 : Machine} (asks : m.Asks m0 r) :
    m.step = .ofExcept (m0.request r) := by
  cases asks with
  | code focus ran =>
    obtain ⟨s, now, pending⟩ := m
    subst focus
    simp only [step, stepCode, after, ran]
  | native focus running => simp only [step, focus, stepNative, running, stepCommand]
  | attempt focus running =>
    simp only [step, focus, stepNative, running, stepCommand]
    rfl

namespace Phase

/-- The thread makes a call in its next step: the machine that makes it, and the machine after that.
Code and natives call far functions, functions of their own object, efuns and other objects; a call
that crosses into a domain calls its object there; and hosts call. -/
inductive Makes : Phase → Machine → Machine → Prop where
  | asks {m m0 m1 : Machine} {r : Request} (asks : m.Asks m0 r) (called : m0.request r = .ok m1) :
      Makes (.running m) m0 m1
  | arrives {m m1 : Machine} {domain : DomainKey} {target : ObjectId} {args : List Value}
      {name : String} {object : ObjectKey} (focus : m.focus = .visiting domain target args (.call name))
      (free : (m.world.domain domain).holder = none)
      (arrived : m.arrive domain target args (.call name) = .ok m1)
      (called : Machine.callObject ⟨m.entered domain, m.focus, .crossing :: m.pending⟩ object name args =
        .ok m1) : Makes (.running m) ⟨m.entered domain, m.focus, .crossing :: m.pending⟩ m1
  | call {s s' : State} {m1 : Machine} {target : ObjectId} {name : String} {args copies : List Value}
      (copied : inDomain (fun owner => Heap.copyAll owner args) s = .ok copies s')
      (called : (s'.idle [.host s.thread.savePoint]).callOther target name copies = .ok m1) :
      Makes (.idle s) (s'.idle [.host s.thread.savePoint]) m1
  | request {s : State} {m1 : Machine} {r : Request} (called : (s.idle [.bare]).request r = .ok m1) :
      Makes (.idle s) (s.idle [.bare]) m1
  | object {s : State} {m1 : Machine} {object : ObjectKey} {name : String} {args : List Value}
      (called : (s.idle [.bare]).callObject object name args = .ok m1) :
      Makes (.idle s) (s.idle [.bare]) m1

variable {P : Function → Prop} {phase : Phase} {m0 m1 : Machine}

theorem Makes.goes (makes : phase.Makes m0 m1) : phase.Goes (.running m1) := by
  cases makes with
  | asks asks called =>
    refine .step ?_
    rw [asks.step_eq, called]
    rfl
  | arrives focus free arrived =>
    refine .step ?_
    rw [Machine.step, focus]
    dsimp only
    rw [Machine.whenFree, free, arrived]
    rfl
  | @call s s' _ target name args copies copied called =>
    have begins : s.call target name args = .ok m1 := by
      unfold State.call Machine.after State.idle
      dsimp only
      rw [copied]
      exact called
    exact .begin (.call begins)
  | request called => exact .begin (.request called)
  | object called => exact .begin (.callObject called)

theorem Makes.within (lawful : ∀ f, P f → f.Honest) (orderly : phase.Orderly P)
    (makes : phase.Makes m0 m1) : m1.Within P m0.toState m0.pending := by
  cases makes with
  | @asks m _ _ r asks called =>
    obtain ⟨origin, rests⟩ := orderly.2 lawful
    refine (Machine.request_takes _ r).within lawful ?_ called
    cases asks with
    | @code f instrs pc r target s focus ran =>
      have resting := rests.resting (by rw [focus]; exact id)
      have mild := instruction_moves (P := P) (Machine.above_zero f) instrs pc m.toState
        (resting.ready (Nat.zero_le _))
      rw [ran] at mild
      exact resting.mild mild
    | native focus => exact rests.resting (by rw [focus]; exact id)
    | attempt focus => exact rests.resting (by rw [focus]; exact id)
  | arrives focus free arrived called =>
    obtain ⟨origin, rests⟩ := orderly.2 lawful
    have bearing := rests.bearing
    rw [focus] at bearing
    obtain ⟨⟨between, -⟩, valid, room, -⟩ := bearing
    obtain ⟨regular, inside, -⟩ := Machine.entered_regular rests.regular between valid room free
    exact (Machine.callObject_takes _ _ _ _).within lawful (regular.resting inside) called
  | @call s s' _ _ _ args _ copied called =>
    have resting : s.Resting P := orderly
    have mild := inDomain_moves (fun _ => Heap.copyAll_moves args) s (resting.ready (Nat.zero_le _))
    rw [copied] at mild
    exact (Machine.callOther_takes s' _ _ _).within (m := s'.idle _) lawful (resting.mild mild) called
  | @request s _ _ called =>
    exact (Machine.request_takes s _).within (m := s.idle _) lawful orderly called
  | @object s _ _ _ _ called =>
    exact (Machine.callObject_takes s _ _ _).within (m := s.idle _) lawful orderly called

end Phase

/-! ### The discipline -/

/-- All that was on the stacks of a thread is still there. -/
structure Thread.UpheldBy (low t : Thread) : Prop where
  rises : t.height.Over low.height
  slots : ∀ i < low.stack.size, t.stack[i]? = low.stack[i]?

/-- The windows of the frames are in order, also while domain contexts are unwound; and each frame has
its context when they are not. -/
def Task.Framed : Task → Prop
  | .idle t => t.height.Whole
  | .running t focus _ => t.height.Piled ∧ (focus.aim? = none → t.height.Whole)

namespace System

variable {P : Function → Prop} {σ σ' : System} {key : ThreadKey} {waits : List Pending}

/-- A call of the thread is over, with a result or with a fault. -/
def Back (σ : System) (key : ThreadKey) (waits : List Pending) : Prop :=
  ∃ t focus, σ.tasks key = some (.running t focus waits) ∧ focus.Yields

/-- What happens until a call is over. -/
def Meanwhile (P : Function → Prop) (key : ThreadKey) (waits : List Pending) : System → System → Prop :=
  Relation.ReflTransGen fun σ σ' => σ.Moves P σ' ∧ σ'.Busy key ∧ ¬ σ.Back key waits

def Within (P : Function → Prop) (key : ThreadKey) (s : State) (waits : List Pending) (σ : System) :
    Prop :=
  ∃ t focus pending, σ.tasks key = some (.running t focus pending) ∧
    Machine.Within P s waits ⟨⟨σ.world, t⟩, focus, pending⟩

theorem Within.meanwhile (lawful : ∀ f, P f → f.Honest) (reachable : σ.Reachable P)
    (within : σ.Within P key s waits) (meanwhile : Meanwhile P key waits σ σ') :
    σ'.Reachable P ∧ σ'.Within P key s waits := by
  induction meanwhile with
  | refl => exact ⟨reachable, within⟩
  | tail _ happens ih =>
    obtain ⟨moves, ⟨t', focus', pending', among'⟩, away⟩ := happens
    obtain ⟨reachable, t, focus, pending, among, within⟩ := ih
    have orderly := reachable.orderly
    refine ⟨reachable.moves moves, t', focus', pending', among', ?_⟩
    rcases orderly.run_moves moves among among' with
      stepped | expired | ⟨⟨rfl, rfl, rfl⟩, spares⟩
    · exact within.step lawful (fun back => away ⟨t, focus, back.2 ▸ among, back.1⟩) stepped
    · exact within.expire expired
    · exact within.spared spares (orderly.moves moves).sound

/-- The frames of a thread of the system, and the calls that it makes. -/
structure Disciplined (σ : System) (key : ThreadKey) (task : Task) : Prop where
  framed : task.Framed
  traced : List.Forall₂ (Frame.Shown σ.world task.thread) task.thread.frames
    (task.thread.trace σ.world)
  /-- Until a call is over the stacks of the caller lie untouched below. -/
  upheld : ∀ m0 m1 σ' t focus pending, (task.phase σ.world).Makes m0 m1 →
    Meanwhile Function.Honest key m0.pending (σ.place key (.running m1)) σ' →
    σ'.tasks key = some (.running t focus pending) → m0.thread.UpheldBy t
  /-- When its result is there, nothing else is on them. -/
  restored : ∀ m0 m1 σ' t v, (task.phase σ.world).Makes m0 m1 →
    Meanwhile Function.Honest key m0.pending (σ.place key (.running m1)) σ' →
    σ'.tasks key = some (.running t (.result v) m0.pending) → t = m0.thread

/-- In every state of a system, whatever its threads call, catch and keep, their frames are in order,
and calls give back the stacks that they were made on. -/
theorem frames_keep_discipline {task : Task} (tended : σ.Tended Function.Honest)
    (among : σ.tasks key = some task) : σ.Disciplined key task := by
  have reachable := tended.reachable
  have orderly := reachable.orderly
  have neat := tended.neat (fun _ => id) key task among
  have framed : task.Framed := by
    cases task with
    | idle => exact neat.1
    | running =>
      obtain ⟨⟨origin, neat⟩, -⟩ := neat
      exact ⟨neat.piled, neat.whole⟩
  have lies : ∀ f ∈ task.thread.frames, f.Lies task.thread.stack.size := by
    cases task with
    | idle => exact framed.lies
    | running => exact framed.1.lies
  have calls : ∀ {m0 m1 σ'}, (task.phase σ.world).Makes m0 m1 →
      Meanwhile Function.Honest key m0.pending (σ.place key (.running m1)) σ' →
      σ'.Within Function.Honest key m0.toState m0.pending := by
    intro m0 m1 σ' makes meanwhile
    have within := makes.within (fun _ => id) (orderly.phase key task among)
    exact (Within.meanwhile (fun _ => id) (reachable.moves (.go among makes.goes))
      ⟨_, _, _, tasks_place σ key (.running m1), within⟩ meanwhile).2
  refine ⟨framed, Thread.trace_shown lies, fun m0 m1 σ' t focus pending makes meanwhile running => ?_,
    fun m0 m1 σ' t v makes meanwhile running => ?_⟩
  · obtain ⟨t', focus', pending', running', within⟩ := calls makes meanwhile
    obtain ⟨rfl, rfl, rfl⟩ := Task.running.inj (some.inj (running.symm.trans running'))
    exact ⟨within.rises, fun i below => within.slots below⟩
  · obtain ⟨t', focus', pending', running', within⟩ := calls makes meanwhile
    obtain ⟨rfl, rfl, rfl⟩ := Task.running.inj (some.inj (running.symm.trans running'))
    exact within.thread_eq rfl ⟨v, .inl rfl⟩

end System

/-! ### A call between runners -/

namespace Machine

/-- The machine that makes the call of the next step, when code calls. -/
def asks? (m : Machine) : Option (Machine × Request) :=
  match m.focus with
  | .code f instructions pc =>
    match instruction f instructions pc m.toState with
    | .ok (.call r target) s =>
      some (⟨s, m.focus, .store f instructions (pc + 1) target :: m.pending⟩, r)
    | _ => none
  | _ => none

theorem asks_of_asks? {m m0 : Machine} (asked : m.asks? = some (m0, r)) : m.Asks m0 r := by
  unfold asks? at asked
  split at asked
  · rename_i f instrs pc focus
    split at asked
    · rename_i ran
      obtain ⟨rfl, rfl⟩ := Prod.mk.inj (some.inj asked)
      exact .code focus ran
    · simp at asked
  · simp at asked

def result? (m : Machine) : Option Value :=
  match m.focus with
  | .result v => some v
  | _ => none

theorem result?_eq_some {m : Machine} (returns : m.result? = some v) : m.focus = .result v := by
  unfold result? at returns
  split at returns
  · rename_i focus
    exact some.inj returns ▸ focus
  · simp at returns

/-- Runs until something is handed to what waits, where no more waits than `depth`. -/
def comeDown (depth : Nat) : Nat → Machine → Option Machine
  | 0, _ => none
  | fuel + 1, m =>
    if m.focus.Yields ∧ m.pending.length ≤ depth then some m
    else
      match m.step with
      | .next m => comeDown depth fuel m
      | _ => none

end Machine

theorem System.meanwhile_comeDown {σ : System} {waits : List Pending} {m m' : Machine}
    (ran : m.comeDown waits.length fuel = some m') :
    Meanwhile P key waits (σ.place key (.running m)) (σ.place key (.running m')) ∧
      m'.pending.length ≤ waits.length := by
  induction fuel generalizing m with
  | zero => simp [Machine.comeDown] at ran
  | succ fuel ih =>
    unfold Machine.comeDown at ran
    split at ran
    · rename_i down
      cases ran
      exact ⟨.refl, down.2⟩
    · rename_i above
      split at ran
      · rename_i next stepped
        obtain ⟨meanwhile, down⟩ := ih ran
        refine ⟨.head ⟨.place (.step stepped), busy_place σ key next, ?_⟩ meanwhile, down⟩
        rintro ⟨t, focus, running, yields⟩
        rw [tasks_place] at running
        obtain ⟨-, rfl, rfl⟩ := Task.running.inj (some.inj running)
        exact above ⟨yields, le_rfl⟩
      · simp at ran

theorem System.Tended.call {σ : System} {s : State}
    (tended : (σ.place key (.idle s)).Tended Function.Honest) (called : s.call target name args = .ok m) :
    (σ.place key (.running m)).Tended Function.Honest := by
  have resting : s.Resting Function.Honest :=
    (tended.reachable.orderly).phase key _ (tasks_place σ key (.idle s))
  have runs : m.focus.aim? = none := by
    rcases Machine.after_grows (m := s.idle [.host s.thread.savePoint]) resting (Nat.zero_le _)
      (inDomain_moves fun _ => Heap.copyAll_moves args) called with
      ⟨copies, s', -, -, -, restingNext, went⟩ | ⟨-, -, runs, -⟩
    · exact ((Machine.callOther_takes s' _ _ _).called (m := ⟨s', _, _⟩)
        (restingNext.ready (Nat.zero_le _)) went).runs
    · exact runs
  refine tended.moves (.place (.begin (.call called))) (heeds_place ?_)
  rintro _ _ mark next - same focus
  obtain rfl := Phase.running.inj same
  simp [focus, Focus.aim?] at runs

/-- The first runner calls the second one, until that call is over: the machine before, the machine
that makes the call, and those when it has been made and when it is over. -/
def firstPass? : Option (Machine × Machine × Machine × Machine) := do
  let (_, m, _) ← stride? race State.startRace 4
  let (m0, r) ← m.asks?
  let m1 ← (m0.request r).toOption
  return (m, m0, m1, ← m1.comeDown m0.pending.length 20)

theorem firstPass?_tended {m m0 m1 m' : Machine} (passed : firstPass? = some (m, m0, m1, m')) :
    ∃ key, (System.place ⟨stadium, fun _ => none⟩ key (.running m)).Tended Function.Honest ∧
      Phase.Makes (.running m) m0 m1 ∧ m1.comeDown m0.pending.length 20 = some m' := by
  simp only [firstPass?, bind_eq_bind, bind_eq_some_iff] at passed
  obtain ⟨⟨s, m, next⟩, went, ⟨m0, r⟩, asked, m1, called, m', down, ⟨⟩⟩ := passed
  obtain ⟨ready, ⟨first, begins, ran⟩, -⟩ := stride?_eq_some went
  have begun := (raceIn_tended stadium_honest ready).call begins
  exact ⟨_, begun.run ran, .asks (Machine.asks_of_asks? asked) (Except.toOption_eq_some.mp called), down⟩

/-- The call of the first runner goes through two domains and comes back: its six slots and its frame
are all that there is again. -/
theorem System.first_pass_keeps_discipline : ∃ (σ σ' : System) (key : ThreadKey) (task : Task)
    (m0 m1 : Machine) (t : Thread) (v : Value),
    σ.Tended Function.Honest ∧ σ.tasks key = some task ∧ (task.phase σ.world).Makes m0 m1 ∧
    Meanwhile Function.Honest key m0.pending (σ.place key (.running m1)) σ' ∧
    σ'.tasks key = some (.running t (.result v) m0.pending) ∧ m0.thread.stack.size = 6 ∧
    m0.thread.frames.length = 1 ∧ σ.Disciplined key task ∧ t = m0.thread := by
  have ran : firstPass?.any (fun pass => pass.2.2.2.result? = some .nil ∧
      pass.2.1.thread.stack.size = 6 ∧ pass.2.1.thread.frames.length = 1) = true := by decide +kernel
  obtain ⟨⟨m, m0, m1, m'⟩, passed, checked⟩ := (any_eq_true _ _).mp ran
  obtain ⟨returns, size, frames⟩ := of_decide_eq_true checked
  obtain ⟨key, tended, makes, down⟩ := firstPass?_tended passed
  have among := tasks_place ⟨stadium, fun _ => none⟩ key (.running m)
  have orderly := tended.reachable.orderly
  obtain ⟨meanwhile, lower⟩ := meanwhile_comeDown (P := Function.Honest)
    (σ := System.place ⟨stadium, fun _ => none⟩ key (.running m)) down
  have running := tasks_place (System.place ⟨stadium, fun _ => none⟩ key (.running m)) key (.running m')
  -- What waits is what waited when the call was made: no less can.
  obtain ⟨-, t, focus, pending, same, above, waits, -⟩ := Within.meanwhile (fun _ => id)
    (tended.reachable.moves (.go among makes.goes))
    ⟨_, _, _, tasks_place _ key (.running m1), makes.within (fun _ => id) (orderly.phase key _ among)⟩
    meanwhile
  obtain ⟨rfl, rfl, rfl⟩ := Task.running.inj (some.inj (running.symm.trans same))
  have back : m'.pending = m0.pending := by
    obtain rfl : above = [] := by
      change m'.pending = _ at waits
      rw [waits, length_append] at lower
      exact length_eq_zero_iff.mp (by omega)
    exact waits
  rw [Phase.task, Machine.result?_eq_some returns, back] at running
  have disciplined := frames_keep_discipline tended among
  exact ⟨_, _, key, _, m0, m1, m'.thread, .nil, tended, among, makes, meanwhile, running, size, frames,
    disciplined, disciplined.restored m0 m1 _ _ .nil makes meanwhile running⟩

end Tenancy
