import Tenancy.Proofs.Machine.Footing

/-!
Every step keeps a run on its footing.

A step changes the world as the thread may and leaves what is below the footing alone. Where it
calls, returns, crosses into another domain or unwinds, what waits and the thread rise and fall
together.
-/

namespace Tenancy

open Tenancy.Action Motion List Exec

variable {P : Function → Prop} {w0 : World} {origin : Footing}

namespace State

variable {s s' : State} {pending : List Pending} {base bottom : Nat}

/-! ### What holds wherever the thread is -/

theorem Regular.withWorld (regular : s.Regular P w0 origin) {world : World}
    (does : s.world.Does P s.thread world)
    (windows : ∀ k, windowsUnder { s with world } (origin.thread.domains.length - 1) k =
      s.windowsUnder (origin.thread.domains.length - 1) k) :
    Regular P w0 { s with world } origin where
  sound := ⟨does.sound regular.sound.world, regular.sound.scratch.trans_le does.lists,
    regular.sound.transfer.trans_le does.lists⟩
  apart := regular.apart
  outlying := does.outlying regular.outlying
  home := regular.home.trans_eq does.size.symm
  frames := by
    rw [does.settings]
    exact regular.frames
  domains := by
    rw [does.settings]
    exact regular.domains
  based f listed := (regular.based f listed).retained does.objects
  upon := { regular.upon with windows := fun k => (windows k).trans (regular.upon.windows k) }
  does := regular.does.trans does

theorem Regular.withStacks (regular : s.Regular P w0 origin) {frames : List Frame}
    {domains : List DomainContext}
    (slots : ∀ i < origin.thread.stack.size, stack[i]? = s.thread.stack[i]?)
    (calls : frames.length ≤ s.world.settings.callDepth)
    (contexts : domains.length ≤ max 1 s.world.settings.domainDepth)
    (based : ∀ f ∈ frames, f.Based s.world) :
    Regular P w0 { s with thread := { s.thread with stack, frames, domains } } origin where
  sound := ⟨regular.sound.world, regular.sound.scratch, regular.sound.transfer⟩
  apart := regular.apart
  outlying := regular.outlying
  home := regular.home
  frames := calls
  domains := contexts
  based := based
  upon :=
    { nonempty := regular.upon.nonempty
      thread := by rw [regular.upon.thread]
      slots := fun i below => (slots i below).trans (regular.upon.slots i below)
      windows := regular.upon.windows }
  does := { regular.does with }

theorem Mild.exists_eq (mild : s.Mild P base s') :
    ∃ stack, s' = { world := s'.world, thread := { s.thread with stack } } := by
  obtain ⟨world, thread⟩ := s'
  exact ⟨thread.stack, congrArg (State.mk world) mild.thread⟩

section

variable (regular : s.Regular P w0 origin)
include regular

theorem Regular.mild (mild : s.Mild P origin.thread.stack.size s') : s'.Regular P w0 origin := by
  have inWorld : Regular P w0 { s with world := s'.world } origin :=
    regular.withWorld (.ofMild mild regular.sound.world) fun k => by
      unfold windowsUnder
      rw [World.windowsOf, (mild.same k).parked, World.windowsOf]
  obtain ⟨stack, same⟩ := mild.exists_eq
  rw [same]
  refine inWorld.withStacks (fun i below => ?_) inWorld.frames inWorld.domains inWorld.based
  have kept := mild.below i below
  rw [same] at kept
  exact kept

theorem Regular.withHeap
    (changes : s.world.heap.Changes heap)
    (list : ∀ l, s.world.Outlying l → l ≠ s.thread.scratch → l ≠ s.thread.transfer →
      heap.list l = s.world.heap.list l) :
    Regular P w0 { s with world := { s.world with heap } } origin :=
  regular.withWorld (.withHeap regular.sound.world changes list) fun _ => rfl

theorem Regular.served (serves : s.world.heap.Serves l heap)
    (own : l = s.thread.scratch ∨ l = s.thread.transfer) :
    Regular P w0 { s with world := { s.world with heap } } origin := by
  refine regular.withHeap serves.changes fun other _ notScratch notTransfer => ?_
  refine serves.lists other ?_
  rcases own with rfl | rfl
  · exact notScratch
  · exact notTransfer

theorem Regular.collected (valid : k < s.world.domains.size)
    (roots : List Value) : Regular P w0 { s with world := (s.world.collect k roots).2 } origin := by
  refine regular.withWorld (.collect regular.sound.world valid roots) fun j => ?_
  unfold windowsUnder
  rw [World.windowsOf, (World.same_collect _ _ _ j).parked, World.windowsOf]

end

/-! ### Where the thread is -/

section

variable (inside : s.Inside)
include inside

theorem Inside.cons : ∃ below, s.thread.domains = s.thread.current :: below :=
  Thread.eq_current_cons inside.nonempty

theorem Inside.seats
    (domains : s.thread.domains = c :: below) : s.world.Seats s.thread.key (c :: below) :=
  domains ▸ inside

theorem Inside.valid : s.thread.current.domain < s.world.domains.size := by
  obtain ⟨below, domains⟩ := inside.cons
  exact (inside.seats domains).valid

theorem Inside.withWorld {world : World}
    (same : ∀ k, (s.world.domain k).Same (world.domain k)) : Inside { s with world } :=
  World.Seats.congr inside (fun k => by rw [(same k).holder]) fun k => by
    rw [World.windowsOf, (same k).parked, World.windowsOf]

theorem Inside.mild (mild : s.Mild P base s') : s'.Inside := by
  obtain ⟨stack, same⟩ := mild.exists_eq
  rw [same]
  exact inside.withWorld mild.same

theorem Inside.onHeap (act : HeapM α) : (left (onHeap act s)).Inside := by
  rw [onHeap_left]
  exact inside

end

theorem clear_congr (list : s'.world.heap.list s'.thread.transfer = s.world.heap.list s.thread.transfer)
    (clear : s.Clear) : s'.Clear := by
  unfold Clear at *
  rw [Heap.members_eq] at *
  rw [list]
  exact clear

/-! ### How high the thread is -/

theorem Level.falling (level : s.Level origin pending) : s.Falling origin pending := by
  obtain ⟨inside, sure, stacked, -⟩ := level
  exact ⟨inside, sure, _, stacked, .refl _⟩

theorem Level.rises (level : s.Level origin pending) : s.thread.height.Over origin.thread.height := by
  obtain ⟨-, _, stacked, -⟩ := level
  exact stacked.rises

theorem Falling.rises (falling : s.Falling origin pending) :
    s.thread.height.Over origin.thread.height := by
  obtain ⟨-, _, _, stacked, rises⟩ := falling
  exact rises.trans stacked.rises

theorem Level.mild (level : s.Level origin (.frame bottom :: pending))
    (regular : s.Regular P w0 origin) (mild : s.Mild P base s') :
    s'.Level origin (.frame bottom :: pending) := by
  obtain ⟨inside, sure, stacked, clear⟩ := level
  refine ⟨inside.mild mild, sure, ?_, fun isSure wasClear => clear_congr ?_ (clear isSure wasClear)⟩
  rotate_left
  · rw [mild.thread]
    exact mild.lists _ regular.outlying
  have higher : s'.thread.height = { s.thread.height with size := s'.thread.stack.size } := by
    rw [Thread.height, mild.thread]
    rfl
  rw [higher]
  exact stacked.grow mild.grows

theorem Falling.mild (falling : s.Falling origin pending) (mild : s.Mild P base s') :
    s'.Falling origin pending := by
  obtain ⟨inside, sure, low, stacked, rises⟩ := falling
  refine ⟨inside.mild mild, sure, low, stacked, ?_⟩
  refine .trans ⟨?_, ?_, mild.grows⟩ rises
  all_goals
    rw [Thread.height, mild.thread]
    exact suffix_rfl

theorem Level.turns {next : Focus} (level : s.Level origin pending)
    (turns : Turns origin.hosted next) : Bearing origin s pending next := by
  cases next with
  | result => exact level
  | fault => exact level.falling
  | done =>
    have notHosted : origin.hosted = false := turns
    exact ⟨level.inside, fun hosted => by simp [notHosted] at hosted⟩
  | _ => exact turns.elim

theorem Inside.ready (inside : s.Inside) (regular : s.Regular P w0 origin)
    (fits : base ≤ s.thread.stack.size) : (motion P base).Ready s :=
  ⟨regular.sound.world, inside.valid, fits⟩

end State

theorem turns_stay (suits : errand = .stay → hosted = false) :
    Turns hosted (Machine.stay errand) := by
  cases errand with
  | call => trivial
  | stay => exact suits rfl

theorem Callable.Found.based {m : Machine} {c : Callable} (found : c.Found m.toState)
    (args : List Value) : (m.newFrame c args).Based m.world := by
  cases found with
  | efun => exact .efun rfl rfl
  | @component object component number program function found listed =>
    have valid : object < m.world.objects.size := by
      -- There are no functions where there is no object.
      by_contra missing
      have none : m.world.object object = default := by simp [World.object, missing]
      rw [none] at found
      obtain rfl : program = default := mem_singleton.mp (mem_of_getElem? found)
      simp [default] at listed
    have slice : (m.world.object object).program.slice? component =
        some ((m.world.object object).program.offset component, program.ownVariables.length) := by
      rw [Program.slice?, found, Option.map_some]
    refine .component rfl valid found (mem_of_getElem? listed) ?_
    unfold Machine.newFrame
    rw [slice]
    rfl

namespace Machine

variable {m m' : Machine} {pending : List Pending} {s : State} {bottom : Nat} {v : Value} {next : Focus}

/-- What a frame does on its own: it goes well, or its fault is on its way. -/
theorem after_rests {α : Type} {act : Exec α} {next : Machine → α → Except Breach Machine}
    (regular : m.toState.Regular P w0 origin) (falling : m.toState.Falling origin m.pending)
    (moves : (motion P origin.thread.stack.size).Moves act) (ran : m.after act next = .ok m') :
    (∃ a s, act m.toState = .ok a s ∧ m.toState.Mild P origin.thread.stack.size s ∧
      s.Regular P w0 origin ∧ next { m with toState := s } a = .ok m') ∨ m'.Rests P w0 origin := by
  have mild := moves m.toState (falling.inside.ready regular falling.rises.size)
  rcases after_cases ran with ⟨a, s, done, went⟩ | ⟨f, s, failed, rfl⟩
  · rw [done] at mild
    exact .inl ⟨a, s, done, mild, regular.mild mild, went⟩
  · rw [failed] at mild
    exact .inr ⟨regular.mild mild, falling.mild mild⟩

/-! ### Calls -/

/-- The window of a new frame lies on the stack. -/
theorem pushFrame_lies (m : Machine) (c : Callable) (args : List Value) :
    (m.newFrame c args).Lies (pushFrame m.thread (m.newFrame c args) args).stack.size := by
  refine ⟨Nat.le_max_left _ _, rfl, ?_⟩
  simp only [pushFrame, newFrame, Array.size_append, size_toArray, Array.size_replicate]
  omega

section Calls

variable (regular : m.toState.Regular P w0 origin) (level : m.toState.Level origin m.pending)

include regular level

theorem raise_rests (f : Fault) : (m.raise f).Rests P w0 origin := ⟨regular, level.falling⟩

theorem answer_rests (v : Value) : (m.answer v).Rests P w0 origin := ⟨regular, level⟩

omit regular level in
theorem beginNative_rests (regular : m.toState.Regular P w0 origin)
    (level : m.toState.Level origin (.frame bottom :: pending))
    (top : m.pending = .frame bottom :: pending) (running : m.thread.frames = f :: frames)
    (honest : body.Honest) (began : m.beginNative f body = .ok m') : m'.Rests P w0 origin := by
  obtain ⟨-, _, stacked, -⟩ := id level
  obtain ⟨-, above, -⟩ := stacked.frame_above running
  have mild := checkParameters_moves above.args m.toState
    (level.inside.ready regular level.rises.size)
  unfold beginNative at began
  split at began
  · rename_i s ran
    cases began
    rw [ran] at mild
    refine ⟨regular.mild mild, .inl ⟨honest, ?_, bottom, pending, top⟩⟩
    rw [top]
    exact level.mild regular mild
  · rename_i fault s ran
    cases began
    rw [ran] at mild
    refine ⟨regular.mild mild, ?_⟩
    show s.Falling origin m.pending
    rw [top]
    exact (level.mild regular mild).falling
  · simp at began

omit regular in
theorem pushFrame_level (c : Callable) (args : List Value) :
    State.Level { m.toState with thread := pushFrame m.thread (m.newFrame c args) args } origin
      (.frame m.thread.stack.size :: m.pending) := by
  obtain ⟨inside, sure, stacked, clear⟩ := level
  exact ⟨inside, sure, .frame stacked rfl (m.pushFrame_lies c args), clear⟩

theorem invoke_rests (lawful : ∀ f, P f → f.Honest) {c : Callable} (found : c.Found m.toState)
    (invoked : m.invoke c args = .ok m') : m'.Rests P w0 origin := by
  unfold invoke at invoked
  dsimp only at invoked
  split at invoked
  · cases invoked
    exact raise_rests regular level _
  rename_i room
  split at invoked
  · simp at invoked
  have pushed := pushFrame_level level c args
  have regularPushed : State.Regular P w0
      { m.toState with thread := pushFrame m.thread (m.newFrame c args) args } origin := by
    refine regular.withStacks (fun i below => ?_) (Nat.lt_of_not_le room) regular.domains
      (forall_mem_cons.mpr ⟨found.based args, regular.based⟩)
    have within : i < m.thread.stack.size := below.trans_le level.rises.size
    simp [within, Nat.lt_add_right]
  split at invoked
  · rename_i body isNative
    have honest := lawful _ (found.all regular.sound.world) _ isNative
    exact beginNative_rests regularPushed pushed rfl rfl honest invoked
  · cases invoked
    exact ⟨regularPushed, pushed, Nat.zero_le _, _, _, rfl, rfl⟩
  · cases invoked
    exact answer_rests regularPushed pushed .nil

end Calls

/-! ### Crossings -/

theorem departs_abroad {world : World} (regular : s.Regular P w0 origin) (inside : s.Inside)
    (rises : origin.thread.domains.length ≤ s.thread.domains.length) (departs : s.Departs world) :
    State.Regular P w0 { s with world } origin ∧
      State.Between { s with world } ∧ s.world.Does P s.thread world := by
  obtain ⟨below, domains⟩ := inside.cons
  have depth : s.thread.domains.length - 1 = below.length := by simp [domains]
  have seats := inside.seats domains
  have lower : origin.thread.domains.length - 1 ≤ below.length := by
    rw [domains, length_cons] at rises
    omega
  unfold State.Departs at departs
  rw [depth] at departs
  obtain ⟨world', left, awaits⟩ := seats.depart s.thread.window
  obtain rfl := Except.ok.inj (left.symm.trans departs)
  have does : s.world.Does P s.thread world' := (World.Does.park _ _ _).trans (.leave left)
  refine ⟨regular.withWorld does fun k => ?_, ?_, does⟩
  · unfold State.windowsUnder
    rw [World.windowsOf_leave left]
    exact World.filter_windowsOf_park seats.valid _ lower
  · show world'.Awaits s.thread.key s.thread.domains
    rw [domains]
    exact awaits

theorem visit_rests (regular : m.toState.Regular P w0 origin)
    (level : m.toState.Level origin m.pending) (suits : errand = .stay → origin.hosted = false)
    (visited : m.visit target args errand = .ok m') : m'.Rests P w0 origin := by
  have serves := Heap.copyAll_moves args m.world.heap
    ⟨regular.sound.world.heap, regular.sound.transfer⟩
  cases visit_cases visited with
  | stays fails same =>
    subst same
    rcases fails with rfl | ⟨f, rfl⟩
    · exact ⟨regular, level.turns (turns_stay suits)⟩
    · exact raise_rests regular level f
  | fails copied same =>
    subst same
    obtain ⟨inside, sure, stacked, -⟩ := level
    rw [copied] at serves
    exact ⟨regular.served serves (.inr rfl), inside, sure, _, stacked, .refl _⟩
  | leaves room found copied departs same =>
    subst same
    obtain ⟨inside, sure, stacked, -⟩ := level
    rw [copied] at serves
    obtain ⟨regularAway, between, does⟩ :=
      departs_abroad (regular.served serves (.inr rfl)) inside stacked.rises.domains.length_le departs
    refine ⟨regularAway, ⟨between, sure, stacked⟩, ?_, ?_, suits⟩
    · exact (regular.sound.world.findDomain? found).trans_eq does.size.symm
    · rw [does.settings]
      exact room

/-- A call keeps a run on its footing. -/
theorem Takes.rests (takes : Takes m.toState call) (regular : m.toState.Regular P w0 origin)
    (level : m.toState.Level origin m.pending) (lawful : ∀ f, P f → f.Honest)
    (called : call m = .ok m') : m'.Rests P w0 origin := by
  obtain ⟨course, took⟩ := takes.course called
  cases course with
  | raise f =>
    cases took
    exact raise_rests regular level f
  | answer v =>
    cases took
    exact answer_rests regular level v
  | invoke c args found => exact invoke_rests regular level lawful found took
  | visit target args name => exact visit_rests regular level (by simp) took

/-! ### Code and native bodies -/

section

variable (regular : m.toState.Regular P w0 origin) (lawful : ∀ f, P f → f.Honest)
include regular lawful

theorem stepCode_rests {f : Frame} {instrs : Array Instruction} {pc : Nat}
    (bearing : Bearing origin m.toState m.pending (.code f instrs pc))
    (stepped : m.stepCode f instrs pc = .ok m') : m'.Rests P w0 origin := by
  obtain ⟨level, -, below, frames, top, running⟩ := bearing
  have levelTop := level
  rw [top] at levelTop
  obtain ⟨-, _, stacked, -⟩ := id levelTop
  obtain ⟨-, above, lies⟩ := stacked.frame_above running
  rcases after_rests regular level.falling (instruction_moves above instrs pc)
    stepped with ⟨effect, s, ran, mild, regularNext, went⟩ | rests
  case inr => exact rests
  have within : effect.Within instrs pc := by
    have secure := instruction_secure ⟨_, lies⟩ instrs pc m.toState lies
    rw [ran] at secure
    exact secure.1
  have levelNext := levelTop.mild regular mild
  have runningNext : s.thread.frames = f :: frames := by
    rw [mild.thread]
    exact running
  have levelPending : s.Level origin m.pending := top ▸ levelNext
  split at went
  · cases went
    exact ⟨regularNext, levelPending, within, below, frames, top, runningNext⟩
  · cases went
    exact ⟨regularNext, levelPending⟩
  · rename_i r target
    obtain ⟨inside, sure, stackedNext, clear⟩ := levelNext
    refine (request_takes s r).rests
      (m := ⟨s, m.focus, .store f instrs (pc + 1) target :: m.pending⟩) regularNext
      ⟨inside, sure, ?_, clear⟩ lawful went
    rw [top]
    exact .store runningNext within stackedNext

theorem stepCommand_rests {frame : Frame} {c : Command} {next : c.Reply → Native Value}
    (bearing : Bearing origin m.toState m.pending (.native (.act c next)))
    (falling : m.toState.Falling origin m.pending)
    (stepped : m.stepCommand frame c next = .ok m') : m'.Rests P w0 origin := by
  by_cases quiet : c.Quiet
  · obtain ⟨act, answered, same⟩ := stepCommand_of_quiet m frame next quiet
    rw [same] at stepped
    rcases after_rests regular falling (reply_moves answered) stepped with
      ⟨reply, s, -, mild, regularNext, went⟩ | rests
    · cases went
      rcases bearing with ⟨honest, level, bottom, below, top⟩ | ⟨lost, -⟩
      · refine ⟨regularNext, .inl ⟨honest.goesOn quiet reply, ?_, bottom, below, top⟩⟩
        show s.Level origin m.pending
        rw [top] at level ⊢
        exact level.mild regular mild
      · exact ⟨regularNext, .inr ⟨lost.goesOn reply, falling.mild mild⟩⟩
    · exact rests
  -- What a lost body asks for waits over stacks that are not known exactly.
  rcases bearing with ⟨honest, ⟨inside, sure, stacked, clear⟩, bottom, below, top⟩ | ⟨lost, -⟩
  · rw [top] at stacked
    cases c with
    | call r =>
      refine (request_takes m.toState r).rests (m := { m with pending := .resume next :: m.pending })
        regular ⟨inside, sure, ?_, clear⟩ lawful stepped
      rw [top]
      exact .resume honest.1 honest.2 stacked
    | tryCall target name args =>
      refine (callOther_takes m.toState name args target).rests
        (m := { m with pending := .attempt m.thread.savePoint next :: m.pending }) regular
        ⟨inside, sure, ?_, clear⟩ lawful stepped
      rw [top]
      exact .attempt honest stacked
    | restore mark => exact honest.elim
    | _ => exact (quiet trivial).elim
  · obtain ⟨inside, sure, low, stacked, rises⟩ := falling
    cases c with
    | call r =>
      exact (request_takes m.toState r).rests (m := { m with pending := .resume next :: m.pending })
        regular ⟨inside, false, .lost lost (.inl rfl) rises stacked, by simp⟩ lawful stepped
    | tryCall target name args =>
      exact (callOther_takes m.toState name args target).rests
        (m := { m with pending := .attempt m.thread.savePoint next :: m.pending }) regular
        ⟨inside, false, .lost lost (.inr rfl) rises stacked, by simp⟩ lawful stepped
    | restore mark => exact lost.elim
    | _ => exact (quiet trivial).elim

theorem stepNative_rests {body : Native Value}
    (bearing : Bearing origin m.toState m.pending (.native body))
    (stepped : m.stepNative body = .ok m') : m'.Rests P w0 origin := by
  have falling : m.toState.Falling origin m.pending :=
    bearing.elim (fun running => running.2.1.falling) And.right
  cases body with
  | done v =>
    cases stepped
    rcases bearing with ⟨-, level, -⟩ | ⟨lost, -⟩
    · exact answer_rests regular level v
    · exact lost.elim
  | raise f =>
    cases stepped
    exact ⟨regular, falling⟩
  | act c next =>
    unfold stepNative at stepped
    dsimp only at stepped
    split at stepped
    · exact stepCommand_rests regular lawful bearing falling stepped
    · cases stepped
      exact ⟨regular, falling⟩

end

/-! ### Results -/

theorem cut_regular (regular : s.Regular P w0 origin) (floor : origin.thread.stack.size ≤ size)
    (suffix : frames <:+ s.thread.frames) :
    State.Regular P w0 { s with thread := { s.thread.truncate size with frames } } origin :=
  regular.withStacks (fun _ below => getElem?_take (below.trans_le floor))
    (suffix.length_le.trans regular.frames) regular.domains
    fun f listed => regular.based f (suffix.subset listed)

theorem ended_level (regular : s.Regular P w0 origin) (level : s.Level origin (.frame bottom :: pending)) :
    State.Regular P w0
        { s with thread := { s.thread.truncate bottom with frames := s.thread.frames.tail } } origin ∧
      State.Level
        { s with thread := { s.thread.truncate bottom with frames := s.thread.frames.tail } } origin
        pending := by
  obtain ⟨inside, sure, stacked, clear⟩ := level
  obtain ⟨f, low, below, rfl, same, fits⟩ := stacked.of_frame
  have frames : s.thread.frames = f :: low.frames := congrArg Stacks.frames same
  have domains : s.thread.domains = low.domains := congrArg Stacks.domains same
  refine ⟨cut_regular regular below.rises.size (tail_suffix _), inside, sure, ?_, clear⟩
  have lowered : Thread.height { s.thread.truncate low.size with frames := s.thread.frames.tail } =
      low := by
    rw [Thread.height]
    simp only [Thread.truncate, frames, domains, tail_cons]
    rw [size_take fits]
  rw [lowered]
  exact below

section

variable (regular : m.toState.Regular P w0 origin)
include regular

theorem safepoint_rests (level : m.toState.Level origin m.pending) (focus : m.focus = .result v) :
    (m.safepoint v).Rests P w0 origin := by
  unfold safepoint
  dsimp only
  split
  · refine ⟨regular.collected level.inside.valid _, ?_⟩
    show Bearing _ _ _ m.focus
    rw [focus]
    obtain ⟨inside, sure, stacked, clear⟩ := level
    refine ⟨inside.withWorld fun k => World.same_collect _ _ _ k, sure, stacked,
      fun isSure wasClear => State.clear_congr ?_ (clear isSure wasClear)⟩
    exact regular.sound.world.heap.consistent.list_collect_of_ne
      (regular.outlying _ inside.valid).symm
  · exact ⟨regular, by rw [focus]; exact level⟩

omit regular in
theorem leave_between {world : World} (regular : s.Regular P w0 origin) (inside : s.Inside)
    (deeper : 1 < s.thread.domains.length)
    (gone : s.world.leave s.thread.current.domain s.thread.key = .ok world)
    (slots : ∀ i < origin.thread.stack.size, stack[i]? = s.thread.stack[i]?) :
    let t : Thread := { s.thread with stack, domains := s.thread.domains.tail }
    State.Regular P w0 ⟨world, t⟩ origin ∧ State.Between ⟨world, t⟩ := by
  obtain ⟨below, domains⟩ := inside.cons
  have more : below ≠ [] := by
    rintro rfl
    simp [domains] at deeper
  obtain ⟨world', left, awaits⟩ := (inside.seats domains).leave more
  obtain rfl := Except.ok.inj (left.symm.trans gone)
  have regularGone := regular.withWorld (.leave gone) fun k => by
    unfold State.windowsUnder
    rw [World.windowsOf_leave gone]
  refine ⟨regularGone.withStacks slots regularGone.frames
    ((tail_suffix _).length_le.trans regularGone.domains) regularGone.based, ?_⟩
  show world'.Awaits s.thread.key s.thread.domains.tail
  rw [domains]
  exact awaits

theorem departBack_rests (level : m.toState.Level origin (.crossing :: m.pending))
    (departed : m.departBack v = .ok m') : m'.Rests P w0 origin := by
  obtain ⟨inside, sure, stacked, -⟩ := level
  obtain ⟨c, low, below, begins, same⟩ := stacked.of_crossing
  have frames : m.thread.frames = low.frames := congrArg Stacks.frames same
  have domains : m.thread.domains = c :: low.domains := congrArg Stacks.domains same
  have size : m.thread.stack.size = low.size := congrArg Stacks.size same
  have serves := Heap.copyValue_moves v m.world.heap
    ⟨regular.sound.world.heap, regular.sound.transfer⟩
  rcases departBack_cases departed with
    ⟨f, heap, copied, rfl⟩ | ⟨moved, heap, world, deeper, copied, gone, rfl⟩
  · rw [copied] at serves
    refine ⟨regular.served serves (.inr rfl), inside, sure, low, below, ?_⟩
    show m.thread.height.Over low
    rw [same]
    exact ⟨suffix_rfl, suffix_cons _ _, le_rfl⟩
  · rw [copied] at serves
    have start : m.thread.current.start = low.size := by rw [Thread.current, domains]; exact begins
    have floor : origin.thread.stack.size ≤ m.thread.current.start := start ▸ below.rises.size
    obtain ⟨regularGone, between⟩ := leave_between (regular.served serves (.inr rfl)) inside deeper gone
      fun _ lower => getElem?_take (lower.trans_le floor)
    refine ⟨regularGone, between, sure, ?_⟩
    have lowered : Thread.height { m.thread.truncate m.thread.current.start with
        domains := m.thread.domains.tail } = low := by
      rw [Thread.height]
      simp only [Thread.truncate, frames, domains, tail_cons]
      rw [start, size_take size.ge]
    rw [lowered]
    exact below

theorem collectHome_kept (inside : m.toState.Inside) :
    m.collectHome.toState.Regular P w0 origin ∧ m.collectHome.toState.Inside ∧
      m.collectHome.thread = m.thread ∧ (m.toState.Clear → m.collectHome.toState.Clear) := by
  unfold collectHome World.collectIfDue
  split
  · dsimp only
    split
    · refine ⟨regular.collected regular.home _, inside.withWorld fun k => World.same_collect _ _ _ k,
        rfl, State.clear_congr ?_⟩
      exact regular.sound.world.heap.consistent.list_collect_of_ne
        (regular.outlying _ regular.home).symm
    · exact ⟨regular, inside, rfl, id⟩
  · exact ⟨regular, inside, rfl, id⟩

theorem resultToHost_rests
    (level : m.toState.Level origin m.pending) (waits : m.pending = .host mark :: rest)
    (stepped : m.stepResult v = .ok m') : m'.Rests P w0 origin := by
  simp only [stepResult, waits] at stepped
  obtain ⟨inside, sure, stacked, clear⟩ := level
  have serves := Heap.copyValue_moves v m.world.heap
    ⟨regular.sound.world.heap, regular.sound.scratch⟩
  have copied : (left (onHeap (Heap.copyValue m.thread.scratch v) m.toState)).Regular P w0 origin := by
    rw [onHeap_left]
    exact regular.served serves (.inl rfl)
  have insideCopied := inside.onHeap (Heap.copyValue m.thread.scratch v)
  have left := onHeap_left (Heap.copyValue m.thread.scratch v) m.toState
  rcases after_cases stepped with ⟨copy, s, ran, went⟩ | ⟨f, s, ran, rfl⟩
  · rw [ran, left_ok] at left copied insideCopied
    cases went
    obtain ⟨regularHome, insideHome, thread, clearHome⟩ :=
      collectHome_kept (m := { m with toState := s }) copied insideCopied
    refine ⟨regularHome, insideHome, fun _ => ?_⟩
    rw [waits] at stacked
    obtain ⟨rfl, same⟩ := stacked.of_host
    refine ⟨?_, fun wasClear => clearHome (State.clear_congr ?_ (clear rfl wasClear))⟩
    · rw [thread, left]
      exact same
    · dsimp only
      rw [left]
      exact serves.lists _ regular.apart.symm
  · rw [ran, left_error] at left copied insideCopied
    subst left
    exact ⟨copied, insideCopied, sure, _, stacked, .refl _⟩

theorem resultToCode_rests {f : Frame} {instrs : Array Instruction} {pc : Nat}
    {target : Operand} {frames : List Frame}
    (level : m.toState.Level origin (.frame bottom :: pending))
    (running : m.thread.frames = f :: frames) (within : pc ≤ instrs.size)
    (waits : m.pending = .store f instrs pc target :: .frame bottom :: pending)
    (stepped : m.stepResult v = .ok m') : m'.Rests P w0 origin := by
  simp only [stepResult, waits] at stepped
  obtain ⟨-, _, stacked, -⟩ := id level
  obtain ⟨begins, above, -⟩ := stacked.frame_above running
  rcases after_rests (m := { m with pending := .frame bottom :: pending }) regular level.falling
    (write_moves above target v) stepped with ⟨_, s, -, mild, regularNext, went⟩ | rests
  · cases went
    refine ⟨regularNext, level.mild regular mild, within, pending, frames, by rw [begins], ?_⟩
    rw [mild.thread]
    exact running
  · exact rests

theorem push_mild (falling : m.toState.Falling origin pending) (v : Value) :
    m.toState.Mild P origin.thread.stack.size { m.toState with thread := m.thread.push v } :=
  (motion_enacts P _).push m.toState v (falling.inside.ready regular falling.rises.size)

theorem stepResult_rests (level : m.toState.Level origin m.pending) (focus : m.focus = .result v)
    (stepped : m.stepResult v = .ok m') : m'.Rests P w0 origin := by
  obtain ⟨inside, sure, stacked, clear⟩ := id level
  generalize waits : m.pending = pending at stacked
  generalize height : m.thread.height = high at stacked
  have went := stepped
  rw [stepResult, waits] at went
  cases stacked with
  | host => exact resultToHost_rests regular level waits stepped
  | bare notHosted =>
    cases went
    exact ⟨regular, inside, fun hosted => by simp [notHosted] at hosted⟩
  | frame =>
    cases went
    obtain ⟨regularEnded, levelEnded⟩ := ended_level regular (waits ▸ level)
    exact safepoint_rests (m := { m with thread := _, pending := _ }) regularEnded levelEnded focus
  | store running within lower =>
    subst height
    exact resultToCode_rests regular ⟨inside, sure, lower, clear⟩ running within waits stepped
  | resume goesOn _ lower =>
    subst height
    cases went
    have levelLower : m.toState.Level origin _ := ⟨inside, sure, lower, clear⟩
    have mild := push_mild regular levelLower.falling v
    exact ⟨regular.mild mild, .inl ⟨goesOn v, levelLower.mild regular mild, _, _, rfl⟩⟩
  | attempt goesOn lower =>
    subst height
    cases went
    have levelLower : m.toState.Level origin _ := ⟨inside, sure, lower, clear⟩
    have mild := push_mild regular levelLower.falling v
    exact ⟨regular.mild mild, .inl ⟨goesOn (.ok v), levelLower.mild regular mild, _, _, rfl⟩⟩
  | @crossing _ pending =>
    exact departBack_rests (m := { m with pending }) regular (waits ▸ level) went
  | @lost _ _ pending _ low _ fails asks rises lower =>
    subst height
    have falling : m.toState.Falling origin pending := ⟨inside, _, low, lower, rises⟩
    have mild := push_mild regular falling v
    rcases asks with rfl | rfl
    all_goals
      cases went
      exact ⟨regular.mild mild, .inr ⟨fails (.ok v), falling.mild mild⟩⟩

end

/-! ### Faults -/

theorem stepFault_rests (regular : m.toState.Regular P w0 origin)
    (falling : m.toState.Falling origin m.pending) (focus : m.focus = .fault f)
    (stepped : m.stepFault f = .ok m') : m'.Rests P w0 origin := by
  obtain ⟨inside, sure, low, stacked, rises⟩ := falling
  have nonempty := stacked.rises.nonempty regular.upon.nonempty
  obtain ⟨s, _, pending⟩ := m
  cases focus
  unfold stepFault at stepped
  cases stacked with
  | host =>
    obtain rfl := unwind_eq stepped
    exact ⟨regular, inside, _, rises, rfl, nonempty, .refl _, .done⟩
  | bare notHosted =>
    cases stepped
    exact ⟨regular, inside, fun hosted => by simp [notHosted] at hosted⟩
  | frame lower begins lies =>
    cases stepped
    exact ⟨regular, inside, _, _, lower, rises.trans (.frame begins lies)⟩
  | store _ _ lower =>
    cases stepped
    exact ⟨regular, inside, _, _, lower, rises⟩
  | resume _ fails lower =>
    cases stepped
    exact ⟨regular, .inr ⟨fails f, inside, _, _, lower, rises⟩⟩
  | attempt goesOn lower =>
    obtain rfl := unwind_eq stepped
    exact ⟨regular, inside, _, rises, rfl, nonempty, lower.rises, .honest (goesOn (.error f)) lower⟩
  | crossing _ lower =>
    cases stepped
    exact ⟨regular, inside, _, _, lower, rises.trans .crossing⟩
  | lost fails asks higher lower =>
    rcases asks with rfl | rfl
    · cases stepped
      exact ⟨regular, .inr ⟨fails (.error f), inside, _, _, lower, rises.trans higher⟩⟩
    · obtain rfl := unwind_eq stepped
      exact ⟨regular, inside, _, rises, rfl, nonempty, higher.trans lower.rises,
        .lost (fails (.error f)) higher lower⟩

theorem receive_inside (regular : m.toState.Regular P w0 origin) (inside : m.toState.Inside) :
    m.receive.toState.Regular P w0 origin ∧ m.receive.toState.Inside ∧ m.receive.toState.Clear := by
  have ne := regular.outlying _ inside.valid
  refine ⟨regular.withHeap (.single (.append (regular.sound.world.lists _ inside.valid) _)) ?_,
    inside, Heap.members_append ne.symm _⟩
  exact fun l outlying _ notTransfer =>
    Heap.list_append_of_ne (outlying _ inside.valid).symm notTransfer _

theorem landed_bearing (inside : s.Inside) (clear : s.Clear) (height : s.thread.height = target)
    (lands : Lands origin.thread.height origin.hosted pending target next) :
    Bearing origin s pending next := by
  cases lands with
  | honest honest stacked =>
    exact .inl ⟨honest, ⟨inside, _, height ▸ stacked, fun _ _ => clear⟩, _, _, rfl⟩
  | lost fails rises stacked => exact .inr ⟨fails, inside, _, _, stacked, height ▸ rises⟩
  | done => exact ⟨inside, fun _ => ⟨height, fun _ => clear⟩⟩

theorem height_cut {t : Thread} {target : Stacks} (rises : t.height.Over target)
    (domains : target.domains = t.domains) :
    Thread.height { t.truncate target.size with
      frames := t.frames.drop (t.frames.length - target.frames.length) } = target := by
  have frames : t.frames.drop (t.frames.length - target.frames.length) = target.frames :=
    drop_of_suffix rises.frames rfl
  rw [Thread.height]
  simp only [Thread.truncate, ← domains, frames]
  rw [size_take rises.size]

theorem stepUnwind_rests (regular : m.toState.Regular P w0 origin) (inside : m.toState.Inside)
    (bound : m.toState.Bound origin m.pending mark next)
    (stepped : m.stepUnwind mark next = .ok m') : m'.Rests P w0 origin := by
  obtain ⟨target, rises, rfl, nonempty, floor, lands⟩ := bound
  rcases stepUnwind_cases stepped with ⟨deeper, world, gone, rfl⟩ | ⟨reached, rfl⟩
  · -- One domain context goes, and what is aimed at lies below it.
    obtain ⟨below, domains⟩ := inside.cons
    have lower : target.domains <:+ m.thread.domains.tail := by
      have suffix : target.domains <:+ m.thread.current :: below := domains ▸ rises.domains
      rw [domains] at deeper ⊢
      refine (suffix_cons_iff.mp suffix).resolve_left fun same => ?_
      rw [Stacks.mark, same] at deeper
      exact Nat.lt_irrefl _ deeper
    have more : 1 < m.thread.domains.length := Nat.lt_of_le_of_lt (length_pos_iff.mpr nonempty) deeper
    obtain ⟨regularGone, between⟩ := leave_between regular inside more gone fun _ _ => rfl
    exact ⟨regularGone, between, target, ⟨rises.frames, lower, rises.size⟩, rfl, nonempty, floor, lands⟩
  · have sameDomains : target.domains = m.thread.domains := rises.domains.eq_of_length_le reached
    have cut := height_cut rises sameDomains
    obtain ⟨regularNext, insideNext, clear⟩ := receive_inside
      (m := { m with
        thread := { m.thread.truncate target.size with
          frames := m.thread.frames.drop (m.thread.frames.length - target.frames.length) } })
      (cut_regular regular floor.size (drop_suffix _ _)) inside
    exact ⟨regularNext, landed_bearing insideNext clear cut lands⟩

/-! ### Arrivals -/

section

variable (regular : m.toState.Regular P w0 origin)
include regular

theorem comeBack_inside (between : m.toState.Between)
    (rises : origin.thread.domains.length ≤ m.thread.domains.length)
    (free : (m.world.domain m.thread.current.domain).holder = none) :
    m.comeBack.toState.Regular P w0 origin ∧ m.comeBack.toState.Inside := by
  obtain ⟨below, domains⟩ := Thread.eq_current_cons between.nonempty
  have depth : m.thread.domains.length - 1 = below.length := by simp [domains]
  have awaits : m.world.Awaits m.thread.key (m.thread.current :: below) := domains ▸ between
  have valid : m.thread.current.domain <
      (m.world.hold m.thread.current.domain m.thread.key).domains.size := by
    simpa [World.hold] using awaits.parks.valid
  have lower : origin.thread.domains.length - 1 ≤ below.length := by
    rw [domains, length_cons] at rises
    omega
  unfold comeBack
  rw [depth]
  refine ⟨regular.withWorld ((World.Does.hold free).trans (.unpark _ _)) fun k => ?_, ?_⟩
  · unfold State.windowsUnder
    rw [World.filter_windowsOf_unpark valid lower, World.windowsOf_hold]
  · show World.Seats _ m.thread.key m.thread.domains
    rw [domains]
    exact awaits.comeBack

section

variable (abroad : m.toState.Abroad origin m.pending)
  (free : (m.world.domain m.thread.current.domain).holder = none)
include abroad free

theorem rolledBack_rests
    (turns : Turns origin.hosted next) : (m.rolledBack next).Rests P w0 origin := by
  obtain ⟨between, sure, stacked⟩ := abroad
  obtain ⟨regularBack, inside⟩ := comeBack_inside regular between stacked.rises.domains.length_le free
  have regularFreed : State.Regular P w0 { m.comeBack.toState with
      world := m.comeBack.world.modifyHeap (·.freeAll m.comeBack.thread.transfer) } origin :=
    regularBack.withHeap (.single (.freeAll _ _)) fun _ _ _ notTransfer =>
      Heap.list_freeAll_of_ne notTransfer _
  have level : State.Level { m.comeBack.toState with
      world := m.comeBack.world.modifyHeap (·.freeAll m.comeBack.thread.transfer) } origin
      m.pending := ⟨inside, sure, stacked, fun _ _ => Heap.members_freeAll _ _⟩
  exact ⟨regularFreed, level.turns turns⟩

theorem returned_rests (v : Value) :
    Rests P w0 origin { m.comeBack.receive with focus := .result v } := by
  obtain ⟨between, sure, stacked⟩ := abroad
  obtain ⟨regularBack, inside⟩ := comeBack_inside regular between stacked.rises.domains.length_le free
  obtain ⟨regularNext, insideNext, clear⟩ := receive_inside regularBack inside
  exact ⟨regularNext, insideNext, sure, stacked, fun _ _ => clear⟩

end

end

/-- The domain that the thread has come to, with a context that begins where the stack ends. What
was on its way is there. -/
def entered (m : Machine) (domain : DomainKey) : State :=
  let world := m.world.hold domain m.thread.key
  { world := world.modifyHeap (·.append (world.domain domain).values m.thread.transfer)
    thread :=
      { m.thread with
        domains := ⟨domain, m.thread.frames.length, m.thread.stack.size⟩ :: m.thread.domains } }

theorem entered_regular (regular : m.toState.Regular P w0 origin) (between : m.toState.Between)
    (valid : domain < m.world.domains.size)
    (room : m.thread.domains.length < m.world.settings.domainDepth)
    (free : (m.world.domain domain).holder = none) :
    (m.entered domain).Regular P w0 origin ∧ (m.entered domain).Inside ∧
      (m.entered domain).Clear := by
  have held : State.Regular P w0 { m.toState with world := m.world.hold domain m.thread.key } origin :=
    regular.withWorld (World.Does.hold free) fun k => by
      unfold State.windowsUnder
      rw [World.windowsOf_hold]
  have validHeld : domain < (m.world.hold domain m.thread.key).domains.size := by
    simpa [World.hold] using valid
  have ne := held.outlying domain validHeld
  have moved := held.withHeap (.single (.append (held.sound.world.lists _ validHeld) _))
    fun l outlying _ notTransfer =>
      Heap.list_append_of_ne (outlying domain validHeld).symm notTransfer _
  refine ⟨moved.withStacks (fun _ _ => rfl) moved.frames ?_ moved.based, ?_,
    Heap.members_append ne.symm _⟩
  · exact Nat.le_trans room (Nat.le_max_right _ _)
  · exact ⟨between.held.hold valid, between.parks.congr fun _ => World.windowsOf_hold _ _ _ _ _⟩

theorem turned_regular (regular : s.Regular P w0 origin) (free : (s.world.domain k).holder = none)
    (gone : (s.world.hold k s.thread.key).leave k s.thread.key = .ok world) :
    State.Regular P w0 { s with world } origin := by
  refine regular.withWorld ((World.Does.hold free).trans (.leave gone)) fun j => ?_
  unfold State.windowsUnder
  rw [World.windowsOf_leave gone, World.windowsOf_hold]

theorem arrive_rests (lawful : ∀ f, P f → f.Honest) (regular : m.toState.Regular P w0 origin)
    (abroad : m.toState.Abroad origin m.pending) (valid : domain < m.world.domains.size)
    (room : m.thread.domains.length < m.world.settings.domainDepth)
    (free : (m.world.domain domain).holder = none) (suits : errand = .stay → origin.hosted = false)
    (arrived : m.arrive domain target args errand = .ok m') : m'.Rests P w0 origin := by
  obtain ⟨between, sure, stacked⟩ := abroad
  obtain ⟨regularIn, inside, clear⟩ := entered_regular regular between valid room free
  unfold arrive at arrived
  dsimp only at arrived
  split at arrived
  · obtain ⟨world, gone, awaits⟩ := between.turnBack valid
    simp only [pure, bind, Except.bind, Except.pure, gone] at arrived
    cases arrived
    exact ⟨turned_regular regular free gone, ⟨awaits, sure, stacked⟩, turns_stay suits⟩
  · cases errand with
    | stay =>
      cases arrived
      exact ⟨regularIn, inside, fun hosted => by simp [suits rfl] at hosted⟩
    | call name =>
      exact (callObject_takes (m.entered domain) name args _).rests
        (m := ⟨m.entered domain, m.focus, .crossing :: m.pending⟩) regularIn
        ⟨inside, sure, .crossing rfl stacked, fun _ _ => clear⟩ lawful arrived

/-! ### Steps -/

/-- A step keeps a run on its footing. -/
theorem Rests.step (lawful : ∀ f, P f → f.Honest) (rests : m.Rests P w0 origin)
    (stepped : m.step = .next m') : m'.Rests P w0 origin := by
  obtain ⟨regular, bearing⟩ := rests
  unfold Machine.step at stepped
  obtain ⟨s, focus, pending⟩ := m
  cases focus with
  | code f instrs pc => exact stepCode_rests regular lawful bearing (next_eq stepped)
  | native body => exact stepNative_rests regular lawful bearing (next_eq stepped)
  | result v => exact stepResult_rests regular bearing rfl (next_eq stepped)
  | fault f => exact stepFault_rests regular bearing rfl (next_eq stepped)
  | visiting domain target args errand =>
    obtain ⟨abroad, valid, room, suits⟩ := bearing
    rcases whenFree_next stepped with ⟨-, turned⟩ | ⟨free, arrived⟩
    · cases turned
      exact ⟨regular, abroad, trivial⟩
    · exact arrive_rests lawful regular abroad valid room free suits arrived
  | rollingBack goesOn =>
    obtain ⟨free, rfl⟩ := comesBack_next stepped
    exact rolledBack_rests regular bearing.1 free bearing.2
  | returning v =>
    obtain ⟨free, rfl⟩ := comesBack_next stepped
    exact returned_rests regular bearing free v
  | unwinding mark goesOn => exact stepUnwind_rests regular bearing.1 bearing.2 (next_eq stepped)
  | reentering mark goesOn =>
    obtain ⟨between, target, rises, same, nonempty, floor, lands⟩ := bearing
    obtain ⟨free, rfl⟩ := comesBack_next stepped
    obtain ⟨regularBack, inside⟩ :=
      comeBack_inside regular between (rises.trans floor).domains.length_le free
    exact ⟨regularBack, inside, target, rises, same, nonempty, floor, lands⟩
  | done outcome => simp at stepped

/-- Giving up waiting keeps a run on its footing. -/
theorem Rests.expire (rests : m.Rests P w0 origin) (expired : m.expire? = some m') :
    m'.Rests P w0 origin := by
  obtain ⟨regular, bearing⟩ := rests
  obtain ⟨⟨_, _, _, _, focus⟩, f, rfl⟩ := expire?_cases expired
  rw [focus] at bearing
  exact ⟨regular, bearing.1, trivial⟩

end Machine

end Tenancy
