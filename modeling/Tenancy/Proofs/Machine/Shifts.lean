import Tenancy.Proofs.Machine.Pile

/-!
What a step does to the stacks and the windows of a thread.

A call puts a frame on top, or sets out for another domain and parks the window that it leaves. What
goes down again goes down by a frame, by a domain context, or to the save point that a fault is
unwound to. A step writes to no slot below the domain context on top, and no window that is parked
further down is touched.
-/

namespace Tenancy

open Tenancy.Action List Exec

/-! ### Save points that wait -/

/-- A call that is over takes something off the thread. -/
def Pending.Opens : Pending → Prop
  | .frame _ | .crossing => True
  | _ => False

def Pending.mark? : Pending → Option Mark
  | .attempt mark _ | .host mark => some mark
  | _ => none

def Focus.aim? : Focus → Option Mark
  | .unwinding mark _ | .reentering mark _ => some mark
  | _ => none

/-- The run is at its end but for what is unwound. -/
def Focus.Ends : Focus → Prop
  | .done _ | .unwinding _ (.done _) | .reentering _ (.done _) => True
  | _ => False

theorem Stacked.mark_over (stacked : Stacked base hosted sure pending high) (waits : e ∈ pending)
    (saved : e.mark? = some mark) : ∃ low, high.Over low ∧ mark = low.mark := by
  induction stacked with
  | host =>
    obtain rfl := mem_singleton.mp waits
    exact ⟨_, .refl _, (Option.some.inj saved).symm⟩
  | bare =>
    obtain rfl := mem_singleton.mp waits
    simp [Pending.mark?] at saved
  | frame _ begins lies ih =>
    rcases mem_cons.mp waits with rfl | below
    · simp [Pending.mark?] at saved
    · obtain ⟨low, rises, same⟩ := ih below
      exact ⟨low, (Stacks.Over.frame begins lies).trans rises, same⟩
  | store _ _ _ ih | resume _ _ _ ih =>
    rcases mem_cons.mp waits with rfl | below
    · simp [Pending.mark?] at saved
    · exact ih below
  | attempt _ _ ih =>
    rcases mem_cons.mp waits with rfl | below
    · exact ⟨_, .refl _, (Option.some.inj saved).symm⟩
    · exact ih below
  | crossing _ _ ih =>
    rcases mem_cons.mp waits with rfl | below
    · simp [Pending.mark?] at saved
    · obtain ⟨low, rises, same⟩ := ih below
      exact ⟨low, Stacks.Over.crossing.trans rises, same⟩
  | lost _ asks higher _ ih =>
    rcases mem_cons.mp waits with rfl | below
    · rcases asks with rfl | rfl
      · simp [Pending.mark?] at saved
      · exact ⟨_, .refl _, (Option.some.inj saved).symm⟩
    · obtain ⟨low, rises, same⟩ := ih below
      exact ⟨low, higher.trans rises, same⟩

namespace Machine

variable {P : Function → Prop} {w0 : World} {origin : Footing} {m m' : Machine} {mark : Mark}
  {base : Nat}

theorem Rests.mark_over (rests : m.Rests P w0 origin) (goesOn : ¬ m.focus.Ends)
    (waits : e ∈ m.pending) (saved : e.mark? = some mark) :
    ∃ low, m.thread.height.Over low ∧ mark = low.mark := by
  have bearing := rests.bearing
  have ofFalling : m.toState.Falling origin m.pending →
      ∃ low, m.thread.height.Over low ∧ mark = low.mark := by
    rintro ⟨-, _, high, stacked, rises⟩
    obtain ⟨low, higher, same⟩ := stacked.mark_over waits saved
    exact ⟨low, rises.trans higher, same⟩
  have ofAbroad : m.toState.Abroad origin m.pending →
      ∃ low, m.thread.height.Over low ∧ mark = low.mark := by
    rintro ⟨-, _, stacked⟩
    exact stacked.mark_over waits saved
  have ofBound : ∀ {aim next}, (∀ outcome, next ≠ .done outcome) →
      m.toState.Bound origin m.pending aim next →
        ∃ low, m.thread.height.Over low ∧ mark = low.mark := by
    rintro aim next more ⟨target, rises, -, -, -, lands⟩
    generalize m.pending = pending at waits lands
    cases lands with
    | honest _ stacked =>
      obtain ⟨low, higher, same⟩ := stacked.mark_over waits saved
      exact ⟨low, rises.trans higher, same⟩
    | lost _ above stacked =>
      obtain ⟨low, higher, same⟩ := stacked.mark_over waits saved
      exact ⟨low, rises.trans (above.trans higher), same⟩
    | done => exact (more _ rfl).elim
  obtain ⟨s, focus, pending⟩ := m
  cases focus with
  | code => exact ofFalling bearing.1.falling
  | native => exact ofFalling (bearing.elim (fun honest => honest.2.1.falling) And.right)
  | result => exact ofFalling (State.Level.falling bearing)
  | fault => exact ofFalling bearing
  | visiting | rollingBack => exact ofAbroad bearing.1
  | returning => exact ofAbroad bearing
  | unwinding aim next | reentering aim next =>
    refine ofBound (fun outcome last => goesOn ?_) bearing.2
    rw [last]
    trivial
  | done => exact (goesOn trivial).elim

theorem ends_of_step (ends : m.focus.Ends) (stepped : m.step = .next m') : m'.focus.Ends := by
  unfold step at stepped
  obtain ⟨s, focus, pending⟩ := m
  cases focus with
  | unwinding aim next =>
    cases next with
    | done outcome =>
      rcases stepUnwind_cases (next_eq stepped) with ⟨-, _, -, rfl⟩ | ⟨-, rfl⟩ <;> trivial
    | _ => exact ends.elim
  | reentering aim next =>
    cases next with
    | done outcome =>
      obtain ⟨-, rfl⟩ := comesBack_next stepped
      trivial
    | _ => exact ends.elim
  | done => simp at stepped
  | _ => exact ends.elim

theorem not_ends_of_step (runs : m.focus.aim? = none) (stepped : m.step = .next m') :
    ¬ m.focus.Ends := by
  intro ends
  obtain ⟨s, focus, pending⟩ := m
  cases focus with
  | unwinding | reentering => simp [Focus.aim?] at runs
  | done => simp [step] at stepped
  | _ => exact ends

end Machine

/-! ### Windows below the top -/

namespace World.Saves

variable {w w' : World} {depth : Nat}

theorem ofDomains (same : w'.domains = w.domains) : w.Saves key depth w' :=
  .ofParked (congrArg Array.size same) fun k => by rw [domain, same, domain]

theorem leave (left : w.leave k thread = .ok w') : w.Saves key depth w' := by
  rw [World.leave_eq left]
  exact .modifyDomain w k fun _ _ isParked _ _ => isParked

theorem hold (w : World) (k : DomainKey) (thread : ThreadKey) :
    w.Saves key depth (w.hold k thread) :=
  .modifyDomain w k fun _ _ isParked _ _ => isParked

theorem collected (collects : w' = w ∨ w' = (w.collect k roots).2) : w.Saves key depth w' := by
  obtain rfl | rfl := collects
  · exact .refl _
  · exact .ofParked (size_domains_modifyDomain _ _ _) fun j => (same_collect w k roots j).parked

end World.Saves

namespace State

variable {P : Function → Prop} {s s' : State} {base : Nat}

/-- The slots below a height are left alone, as far as the stack still goes, and so are the windows
that are parked below the top context. -/
structure Leaves (s : State) (base : Nat) (s' : State) : Prop where
  thread : s'.thread = { s.thread with stack := s'.thread.stack, frames := s'.thread.frames }
  saves : s.world.Saves s.thread.key (s.thread.domains.length - 1) s'.world
  slots : ∀ i < base, i < s'.thread.stack.size → s'.thread.stack[i]? = s.thread.stack[i]?

namespace Leaves

theorem key (leaves : s.Leaves base s') : s'.thread.key = s.thread.key := by rw [leaves.thread]

theorem domains (leaves : s.Leaves base s') : s'.thread.domains = s.thread.domains := by
  rw [leaves.thread]

theorem current (leaves : s.Leaves base s') : s'.thread.current = s.thread.current := by
  rw [leaves.thread]
  rfl

theorem trans (first : s.Leaves base s') (higher : base ≤ s'.thread.stack.size)
    (second : s'.Leaves base s'') : s.Leaves base s'' where
  thread := by rw [second.thread, first.thread]
  saves := by
    have saves := second.saves
    rw [first.key, first.domains] at saves
    exact first.saves.trans saves
  slots i before within := by
    rw [second.slots i before within]
    exact first.slots i before (before.trans_le higher)

theorem ofWorld {world : World}
    (saves : s.world.Saves s.thread.key (s.thread.domains.length - 1) world) :
    s.Leaves base { s with world } :=
  ⟨rfl, saves, fun _ _ _ => rfl⟩

theorem refl (s : State) : s.Leaves base s := ofWorld (.refl _)

end Leaves

theorem Resting.ready (resting : s.Resting P) (fits : base ≤ s.thread.stack.size) :
    (motion P base).Ready s :=
  resting.inside.ready resting.regular fits

theorem Mild.leaves (mild : s.Mild P base s') : s.Leaves base s' where
  thread := by rw [mild.thread]
  saves := .ofParked mild.size fun k => (mild.same k).parked
  slots i before _ := mild.below i before

theorem getElem?_truncate (t : Thread) (within : i < (t.truncate size).stack.size) :
    (t.truncate size).stack[i]? = t.stack[i]? := by
  simp only [Thread.truncate, Array.take_eq_extract, Array.size_extract] at within
  simp only [Thread.truncate, Array.take_eq_extract, getElem?_window, Nat.zero_add]
  rw [if_pos (by omega)]

end State

namespace Machine

variable {P : Function → Prop} {w0 : World} {origin : Footing} {m m' : Machine} {mark : Mark}
  {base : Nat}

/-! ### What a call does to the stacks -/

def Parks (m m' : Machine) : Prop :=
  ⟨m.thread.key, m.thread.domains.length - 1, m.thread.window⟩ ∈
    (m'.world.domain m.thread.current.domain).parked

/-- A call is answered at once, sets out for another domain, or puts a frame on top. -/
inductive Called (m : Machine) (base : Nat) (m' : Machine) : Prop where
  | stays (thread : m'.thread = m.thread) (pending : m'.pending = m.pending)
      (runs : m'.focus.aim? = none) (leaves : m.toState.Leaves base m'.toState)
      (parks : m'.focus.Enters → m.Parks m')
  | enters {f : Frame} {size : Nat} (begins : f.argsBase = m.thread.stack.size)
      (depth : f.domainDepth = m.thread.domains.length - 1) (lies : f.Lies size)
      (height : m'.thread.height = ⟨f :: m.thread.frames, m.thread.domains, size⟩)
      (pending : m'.pending = .frame f.argsBase :: m.pending) (runs : m'.focus.aim? = none)
      (leaves : m.toState.Leaves base m'.toState) (inside : ¬ m'.focus.Enters)

theorem Called.runs (called : m.Called base m') : m'.focus.aim? = none := by
  cases called with
  | stays _ _ runs => exact runs
  | enters _ _ _ _ _ runs => exact runs

theorem Called.domains (called : m.Called base m') : m'.thread.domains = m.thread.domains := by
  cases called with
  | stays thread => rw [thread]
  | enters _ _ _ height => exact congrArg Stacks.domains height

theorem grows_of_mild {s s' : State} (mild : s.Mild P base s') :
    s.thread.height.Grows s'.thread.height := by
  refine ⟨?_, mild.domains, mild.grows⟩
  rw [mild.thread]
  rfl

theorem leaves_pushFrame (s : State) (f : Frame) (args : List Value)
    (fits : base ≤ s.thread.stack.size) :
    s.Leaves base { s with thread := pushFrame s.thread f args } where
  thread := rfl
  saves := .refl _
  slots i before _ := by
    have within := before.trans_le fits
    simp [pushFrame, within, Nat.lt_add_right]

section Calls

variable (ready : (motion P base).Ready m.toState)

include ready

theorem beginNative_grows (above : base ≤ f.argsBase) (began : m.beginNative f body = .ok m') :
    m.thread.height.Grows m'.thread.height ∧ m'.pending = m.pending ∧ m'.focus.aim? = none ∧
      m.toState.Leaves base m'.toState ∧ ¬ m'.focus.Enters := by
  have mild := checkParameters_moves above m.toState ready
  unfold beginNative at began
  split at began
  · rename_i s ran
    cases began
    rw [ran] at mild
    exact ⟨grows_of_mild mild, rfl, rfl, mild.leaves, id⟩
  · rename_i fault s ran
    cases began
    rw [ran] at mild
    exact ⟨grows_of_mild mild, rfl, rfl, mild.leaves, id⟩
  · simp at began

theorem invoke_called (invoked : m.invoke c args = .ok m') : m.Called base m' := by
  have lies := m.pushFrame_lies c args
  have pushed := leaves_pushFrame m.toState (m.newFrame c args) args ready.2.2
  have higher : base ≤ (pushFrame m.thread (m.newFrame c args) args).stack.size :=
    ready.2.2.trans lies.le_size
  unfold invoke at invoked
  dsimp only at invoked
  split at invoked
  · cases invoked
    exact .stays rfl rfl rfl (.refl _) False.elim
  split at invoked
  · simp at invoked
  split at invoked
  · have readyPushed : (motion P base).Ready
        { m.toState with thread := pushFrame m.thread (m.newFrame c args) args } :=
      ⟨ready.1, ready.2.1, higher⟩
    obtain ⟨grows, pending, runs, leaves, inside⟩ := beginNative_grows (m := { m with
      thread := pushFrame m.thread (m.newFrame c args) args
      pending := .frame (m.newFrame c args).argsBase :: m.pending }) readyPushed ready.2.2 invoked
    refine .enters (f := m.newFrame c args) rfl rfl (lies.grow grows.size) ?_ pending runs
      (pushed.trans higher leaves) inside
    show (⟨m'.thread.frames, m'.thread.domains, _⟩ : Stacks) = _
    rw [show m'.thread.frames = _ from grows.frames, show m'.thread.domains = _ from grows.domains]
    rfl
  · cases invoked
    exact .enters rfl rfl lies rfl rfl rfl pushed id
  · cases invoked
    exact .enters rfl rfl lies rfl rfl rfl pushed id

omit ready in
theorem departs_parks {s : State} {world : World} (departs : s.Departs world)
    (valid : s.thread.current.domain < s.world.domains.size) :
    s.Leaves base { s with world } ∧ ⟨s.thread.key, s.thread.domains.length - 1, s.thread.window⟩ ∈
      (world.domain s.thread.current.domain).parked := by
  refine ⟨.ofWorld (.trans (.park _ _ ⟨s.thread.key, _, s.thread.window⟩ le_rfl)
    (.leave departs)), ?_⟩
  obtain rfl := World.leave_eq departs
  rw [World.domain_modifyDomain, if_pos ⟨rfl, by simpa using valid⟩, World.domain_modifyDomain,
    if_pos ⟨rfl, valid⟩]
  exact mem_cons_self

/-- A visit begins with the frames that the thread has. -/
theorem visit_stays (visited : m.visit target args errand = .ok m') :
    m'.thread = m.thread ∧ m'.pending = m.pending ∧ m'.focus.aim? = none ∧
      m.toState.Leaves base m'.toState ∧ (m'.focus.Enters → m.Parks m') := by
  cases visit_cases visited with
  | stays fails same =>
    obtain rfl := same
    rcases fails with rfl | ⟨f, rfl⟩
    · cases errand <;> exact ⟨rfl, rfl, rfl, .refl _, False.elim⟩
    · exact ⟨rfl, rfl, rfl, .refl _, False.elim⟩
  | fails copied same =>
    obtain rfl := same
    exact ⟨rfl, rfl, rfl, .ofWorld (.ofDomains rfl), False.elim⟩
  | @leaves _ _ _ heap _ _ _ _ departs same =>
    obtain rfl := same
    have copies : m.toState.Leaves base ⟨{ m.world with heap }, m.thread⟩ := .ofWorld (.ofDomains rfl)
    obtain ⟨leaves, parks⟩ := departs_parks departs ready.2.1
    exact ⟨rfl, rfl, rfl, copies.trans ready.2.2 leaves, fun _ => parks⟩

theorem Takes.called (takes : Takes m.toState call)
    (called : call m = .ok m') : m.Called base m' := by
  obtain ⟨c, went⟩ := takes.course called
  cases c with
  | raise f | answer v =>
    cases went
    exact .stays rfl rfl rfl (.refl _) False.elim
  | invoke => exact invoke_called ready went
  | visit =>
    obtain ⟨thread, pending, runs, leaves, parks⟩ := visit_stays ready went
    exact .stays thread pending runs leaves parks

end Calls

/-! ### What a step does to the stacks -/

/-- The frame whose slots the next step may write to. -/
def writer? (m : Machine) : Option Frame :=
  match m.focus, m.pending with
  | .code f _ _, _ | .result _, .store f _ _ _ :: _ => some f
  | _, _ => none

/-- Nothing that the next step writes to lies below the top context. -/
structure Poised (m : Machine) : Prop where
  fits : m.thread.current.start ≤ m.thread.stack.size
  above : ∀ f, m.writer? = some f → f.Above m.thread.current.start

/-- What becomes of the windows while the stacks stay as they are: the thread is and stays where it
is, or it is and stays on its way, or it comes back. -/
inductive Berths (m m' : Machine) : Prop where
  | stays (inside : ¬ m.focus.Enters) (inside' : ¬ m'.focus.Enters)
      (leaves : m.toState.Leaves m.thread.current.start m'.toState)
  | waits (enters : m.focus.Enters) (enters' : m'.focus.Enters) (thread : m'.thread = m.thread)
      (saves : m.world.Saves m.thread.key m.thread.domains.length m'.world)
  | returns (enters : m.focus.Enters) (inside' : ¬ m'.focus.Enters) (thread : m'.thread = m.thread)
      (saves : m.world.Saves m.thread.key (m.thread.domains.length - 1) m'.world)

/-- What becomes of the stacks and of what waits, in one step. -/
inductive Shifts (P : Function → Prop) (m m' : Machine) : Prop where
  /-- The thread goes on with the frames that it has. -/
  | runs (grows : m.thread.height.Grows m'.thread.height) (pending : m'.pending <:+ m.pending)
      (aim : m'.focus.aim? = m.focus.aim?) (berths : m.Berths m')
  | calls (m0 : Machine) {waits : Pending} (runs : m.focus.aim? = none) (inside : ¬ m.focus.Enters)
      (grows : m.thread.height.Grows m0.thread.height)
      (leaves : m.toState.Leaves m.thread.current.start m0.toState) (resting : m0.toState.Resting P)
      (pending : m0.pending = waits :: m.pending) (shut : ¬ waits.Opens)
      (saved : ∀ mark, waits.mark? = some mark → mark = m0.thread.height.mark)
      (called : m0.Called m0.thread.current.start m') (within : m'.Within P m0.toState m0.pending)
  /-- A call gets to the domain of its object. -/
  | arrives (domain : DomainKey) (runs : m.focus.aim? = none) (enters : m.focus.Enters)
      (resting : (m.entered domain).Resting P)
      (called : Called ⟨m.entered domain, m.focus, .crossing :: m.pending⟩ m.thread.stack.size m')
      (inner : m'.Within P (m.entered domain) (.crossing :: m.pending))
      (outer : m'.Within P m.toState m.pending)
  /-- The host has had the thread go to a domain. -/
  | settles (domain : DomainKey) {outcome : Outcome} (runs : m.focus.aim? = none)
      (enters : m.focus.Enters) (state : m'.toState = m.entered domain)
      (pending : m'.pending = m.pending) (focus : m'.focus = .done outcome)
  /-- A result takes a frame off the thread. -/
  | closes {base : Nat} {v : Value} (pending : m.pending = .frame base :: m'.pending)
      (inside : ¬ m.focus.Enters) (lower : m.thread.height.Over m'.thread.height)
      (focus : m'.focus = .result v) (leaves : m.toState.Leaves m.thread.current.start m'.toState)
  /-- A result takes a domain context off the thread. -/
  | leaves {v : Value} (pending : m.pending = .crossing :: m'.pending) (inside : ¬ m.focus.Enters)
      (focus : m'.focus = .returning v)
      (thread : m'.thread =
        { m.thread.truncate m.thread.current.start with domains := m.thread.domains.tail })
      (saves : m.world.Saves m.thread.key (m.thread.domains.length - 1) m'.world)
  /-- A fault comes to where it is unwound. -/
  | fails {mark : Mark} (state : m'.toState = m.toState) (inside : ¬ m.focus.Enters)
      (inside' : ¬ m'.focus.Enters) (pending : m'.pending <:+ m.pending)
      (aim : m'.focus.aim? = some mark) (going : ¬ m.focus.Ends)
      (saved : ∃ e ∈ m.pending, e.mark? = some mark)
  | unwinds {mark : Mark} (aim : m.focus.aim? = some mark) (inside : ¬ m.focus.Enters)
      (aimed : m'.focus.aim? = some mark) (enters : m'.focus.Enters)
      (deeper : mark.domains < m.thread.domains.length)
      (thread : m'.thread = { m.thread with domains := m.thread.domains.tail })
      (saves : m.world.Saves m.thread.key (m.thread.domains.length - 1) m'.world)
      (pending : m'.pending = m.pending)
  | lands {mark : Mark} (aim : m.focus.aim? = some mark) (inside : ¬ m.focus.Enters)
      (runs : m'.focus.aim? = none) (inside' : ¬ m'.focus.Enters)
      (lower : m.thread.height.Over m'.thread.height) (reached : m'.thread.height.mark = mark)
      (leaves : m.toState.Leaves m.thread.current.start m'.toState) (pending : m'.pending = m.pending)

theorem Shifts.nested (shifts : m.Shifts P m') :
    m.thread.domains <:+ m'.thread.domains ∨ m'.thread.domains <:+ m.thread.domains := by
  cases shifts with
  | runs grows =>
    rw [show m'.thread.domains = m.thread.domains from grows.domains]
    exact .inl suffix_rfl
  | calls m0 _ _ grows _ _ _ _ _ called =>
    rw [called.domains, show m0.thread.domains = m.thread.domains from grows.domains]
    exact .inl suffix_rfl
  | arrives domain _ _ _ called =>
    rw [called.domains]
    exact .inl (suffix_cons _ _)
  | settles domain _ _ state =>
    rw [state]
    exact .inl (suffix_cons _ _)
  | closes _ _ lower | lands _ _ _ _ lower => exact .inr lower.domains
  | leaves _ _ _ thread | unwinds _ _ _ _ _ thread =>
    rw [thread]
    exact .inr (tail_suffix _)
  | fails state =>
    rw [state]
    exact .inl suffix_rfl

namespace Rests

theorem resting (rests : m.Rests P w0 origin) (runs : ¬ m.focus.Enters) : m.toState.Resting P :=
  rests.regular.resting (rests.inside runs)

end Rests

theorem above_zero (f : Frame) : f.Above 0 := ⟨Nat.zero_le _, Nat.zero_le _⟩

/-- What a frame does on its own. -/
theorem after_grows {next : Machine → α → _} (resting : m.toState.Resting P)
    (fits : base ≤ m.thread.stack.size)
    (moves : (motion P base).Moves act) (ran : m.after act next = .ok m') :
    (∃ a s, act m.toState = .ok a s ∧ m.thread.height.Grows s.thread.height ∧
      m.toState.Leaves base s ∧ s.Resting P ∧ next { m with toState := s } a = .ok m') ∨
    m.thread.height.Grows m'.thread.height ∧ m'.pending = m.pending ∧ m'.focus.aim? = none ∧
      m.toState.Leaves base m'.toState ∧ ¬ m'.focus.Enters := by
  have mild := moves m.toState (resting.ready fits)
  rcases after_cases ran with ⟨a, s, done, went⟩ | ⟨f, s, failed, rfl⟩
  · rw [done] at mild
    exact .inl ⟨a, s, done, grows_of_mild mild, mild.leaves, resting.mild mild, went⟩
  · rw [failed] at mild
    exact .inr ⟨grows_of_mild mild, rfl, rfl, mild.leaves, id⟩

section Steps

variable (lawful : ∀ f, P f → f.Honest) (rests : m.Rests P w0 origin) (poised : m.Poised)

include lawful rests poised

theorem stepCode_shifts (focus : m.focus = .code f instrs pc)
    (stepped : m.stepCode f instrs pc = .ok m') : m.Shifts P m' := by
  have aim : m.focus.aim? = none := by rw [focus]; rfl
  have inside : ¬ m.focus.Enters := by rw [focus]; exact id
  have above : f.Above m.thread.current.start := poised.above f (by rw [writer?, focus])
  rcases after_grows (rests.resting inside) poised.fits (instruction_moves above instrs pc)
    stepped with ⟨effect, s, -, grows, leaves, resting, went⟩ | ⟨grows, pending, runs, leaves, inside'⟩
  · dsimp only at went
    split at went
    · cases went
      exact .runs grows suffix_rfl aim.symm (.stays inside id leaves)
    · cases went
      exact .runs grows suffix_rfl aim.symm (.stays inside id leaves)
    · rename_i r target
      exact .calls ⟨s, m.focus, .store f instrs (pc + 1) target :: m.pending⟩ aim inside
        grows leaves resting rfl id (by simp [Pending.mark?])
        ((request_takes s r).called (resting.ready (leaves.current ▸ poised.fits.trans grows.size)) went)
        ((request_takes s r).within lawful resting went)
  · exact .runs grows (pending ▸ suffix_rfl) (runs.trans aim.symm) (.stays inside inside' leaves)

theorem stepNative_shifts (focus : m.focus = .native body)
    (stepped : m.stepNative body = .ok m') : m.Shifts P m' := by
  have aim : m.focus.aim? = none := by rw [focus]; rfl
  have inside : ¬ m.focus.Enters := by rw [focus]; exact id
  have resting := rests.resting inside
  have ready := resting.ready poised.fits
  cases body with
  | done | raise =>
    cases stepped
    exact .runs (.refl _) suffix_rfl aim.symm (.stays inside id (.refl _))
  | act c next =>
    unfold stepNative at stepped
    dsimp only at stepped
    split at stepped
    case h_2 =>
      cases stepped
      exact .runs (.refl _) suffix_rfl aim.symm (.stays inside id (.refl _))
    rename_i frame _ _
    by_cases quiet : c.Quiet
    · obtain ⟨act, answered, same⟩ := stepCommand_of_quiet m frame next quiet
      rw [same] at stepped
      rcases after_grows resting poised.fits (reply_moves answered) stepped with
        ⟨reply, s, -, grows, leaves, -, went⟩ | ⟨grows, pending, runs, leaves, inside'⟩
      · cases went
        exact .runs grows suffix_rfl aim.symm (.stays inside id leaves)
      · exact .runs grows (pending ▸ suffix_rfl) (runs.trans aim.symm)
          (.stays inside inside' leaves)
    cases c with
    | call r =>
      exact .calls { m with pending := .resume next :: m.pending } aim inside (.refl _)
        (.refl _) resting rfl id (by simp [Pending.mark?])
        ((request_takes _ r).called ready stepped) ((request_takes _ r).within lawful resting stepped)
    | tryCall target name args =>
      refine .calls { m with pending := .attempt m.thread.savePoint next :: m.pending } aim
        inside (.refl _) (.refl _) resting rfl id ?_
        ((callOther_takes _ name args target).called ready stepped)
        ((callOther_takes _ name args target).within lawful resting stepped)
      exact fun mark same => (Option.some.inj same).symm
    | restore mark =>
      have bearing := rests.bearing
      rw [focus] at bearing
      exact bearing.elim (fun honest => honest.1.elim) fun lost => lost.1.elim
    | _ => exact (quiet trivial).elim

omit lawful rests poised in
theorem over_truncate (t : Thread) (size : Nat) (fewer : frames <:+ t.frames)
    (shorter : domains <:+ t.domains) :
    t.height.Over (Thread.height { t.truncate size with frames, domains }) := by
  refine ⟨fewer, shorter, ?_⟩
  simp only [Thread.height, Thread.truncate, Array.take_eq_extract, Array.size_extract]
  omega

omit lawful rests poised in
theorem departBack_shifts (waits : m.pending = .crossing :: below) (focus : m.focus = .result v)
    (departed : departBack { m with pending := below } v = .ok m') : m.Shifts P m' := by
  have inside : ¬ m.focus.Enters := by rw [focus]; exact id
  rcases departBack_cases departed with ⟨f, heap, -, rfl⟩ | ⟨moved, heap, world, -, -, left, rfl⟩
  · exact .runs (.refl _) (waits ▸ suffix_cons _ _) (by rw [focus]; rfl)
      (.stays inside id (.ofWorld (.ofDomains rfl)))
  · have copies : m.world.Saves m.thread.key (m.thread.domains.length - 1) { m.world with heap } :=
      .ofDomains rfl
    exact .leaves waits inside rfl rfl (copies.trans (.leave left))

omit lawful in
theorem stepResult_shifts (focus : m.focus = .result v)
    (stepped : m.stepResult v = .ok m') : m.Shifts P m' := by
  have aim : m.focus.aim? = none := by rw [focus]; rfl
  have inside : ¬ m.focus.Enters := by rw [focus]; exact id
  have resting := rests.resting inside
  unfold stepResult at stepped
  split at stepped
  case h_1 | h_8 =>
    cases stepped
    exact .runs (.refl _) suffix_rfl aim.symm (.stays inside id (.refl _))
  case h_2 bottom below waits =>
    cases stepped
    rw [safepoint_eq]
    refine .closes waits inside (over_truncate m.thread _ (tail_suffix _) suffix_rfl) focus
      ⟨rfl, ?_, fun _ _ within => State.getElem?_truncate m.thread within⟩
    exact .collected (world_safepoint { m with
      thread := { m.thread.truncate bottom with frames := m.thread.frames.tail }, pending := below } v)
  case h_3 frame _ _ target below waits =>
    have above : frame.Above m.thread.current.start :=
      poised.above frame (by rw [writer?, focus, waits])
    rcases after_grows (m := { m with pending := below }) resting poised.fits
      (write_moves above target v) stepped with
      ⟨_, s, -, grows, leaves, -, went⟩ | ⟨grows, pending, runs, leaves, inside'⟩
    · cases went
      exact .runs grows (waits ▸ suffix_cons _ _) aim.symm (.stays inside id leaves)
    · exact .runs grows (pending ▸ waits ▸ suffix_cons _ _) (runs.trans aim.symm)
        (.stays inside inside' leaves)
  case h_4 below waits | h_5 below waits =>
    cases stepped
    refine .runs ⟨rfl, rfl, by simp [Thread.height, Thread.push]⟩ (waits ▸ suffix_cons _ _)
      aim.symm (.stays inside id ⟨rfl, .refl _, fun i before _ => ?_⟩)
    have within := before.trans_le poised.fits
    simp [Thread.push, Array.getElem?_push, within.ne]
  case h_6 below waits => exact departBack_shifts waits focus stepped
  case h_7 =>
    have left := onHeap_left (Heap.copyValue m.thread.scratch v) m.toState
    rcases after_cases stepped with ⟨copy, s, ran, went⟩ | ⟨f, s, ran, rfl⟩
    · rw [ran, left_ok] at left
      subst left
      cases went
      rw [collectHome_eq]
      have copies : m.world.Saves m.thread.key (m.thread.domains.length - 1)
          { m.world with heap := left (Heap.copyValue m.thread.scratch v m.world.heap) } := .ofDomains rfl
      exact .runs (.refl _) suffix_rfl aim.symm
        (.stays inside id (.ofWorld (copies.trans (.collected (world_collectHome { m with world := _ })))))
    · rw [ran, left_error] at left
      subst left
      exact .runs (.refl _) suffix_rfl aim.symm (.stays inside id (.ofWorld (.ofDomains rfl)))

omit lawful rests poised in
theorem stepFault_shifts (focus : m.focus = .fault f)
    (stepped : m.stepFault f = .ok m') : m.Shifts P m' := by
  have aim : m.focus.aim? = none := by rw [focus]; rfl
  have inside : ¬ m.focus.Enters := by rw [focus]; exact id
  unfold stepFault at stepped
  split at stepped
  case h_6 mark next below waits =>
    obtain rfl := unwind_eq stepped
    exact .fails rfl inside id (waits ▸ suffix_cons _ _) rfl
      (by rw [focus]; exact id) ⟨.attempt mark next, by simp [waits], rfl⟩
  case h_7 mark below waits =>
    obtain rfl := unwind_eq stepped
    exact .fails rfl inside id suffix_rfl rfl (by rw [focus]; exact id)
      ⟨.host mark, by simp [waits], rfl⟩
  case h_1 | h_8 =>
    cases stepped
    exact .runs (.refl _) suffix_rfl aim.symm (.stays inside id (.refl _))
  case h_5 below waits =>
    cases stepped
    exact .runs (.refl _) (waits ▸ suffix_cons _ _) aim.symm (.stays inside id (.refl _))
  all_goals
    rename_i waits
    cases stepped
    exact .runs (.refl _) (waits ▸ suffix_cons _ _) rfl (.stays inside inside (.refl _))

omit poised in
theorem arrive_shifts (focus : m.focus = .visiting domain target args errand)
    (free : (m.world.domain domain).holder = none) (stepped : m.step = .next m')
    (arrived : m.arrive domain target args errand = .ok m') : m.Shifts P m' := by
  have aim : m.focus.aim? = none := by rw [focus]; rfl
  have enters : m.focus.Enters := by rw [focus]; trivial
  have bearing := rests.bearing
  rw [focus] at bearing
  obtain ⟨⟨between, -⟩, valid, room, -⟩ := bearing
  obtain ⟨regular, inside, -⟩ := entered_regular rests.regular between valid room free
  unfold arrive at arrived
  dsimp only at arrived
  split at arrived
  · simp only [pure, bind, Except.bind, Except.pure] at arrived
    split at arrived
    · simp at arrived
    · rename_i world left
      cases arrived
      exact .runs (.refl _) suffix_rfl aim.symm
        (.waits enters trivial rfl (.trans (.hold _ _ _) (.leave left)))
  · cases errand with
    | stay =>
      cases arrived
      exact .settles domain aim enters rfl rfl rfl
    | call name =>
      have resting := regular.resting inside
      refine .arrives domain aim enters resting
        ((callObject_takes (m.entered domain) name args _).called
          (m := ⟨m.entered domain, m.focus, .crossing :: m.pending⟩) (resting.ready le_rfl) arrived)
        ((callObject_takes (m.entered domain) name args _).within
          (m := ⟨m.entered domain, m.focus, .crossing :: m.pending⟩) lawful resting arrived) ?_
      refine (rests.within focus).step lawful (fun back => ?_) stepped
      have yields := back.1
      rw [focus] at yields
      exact yields

omit lawful poised in
theorem stepUnwind_shifts {next : Focus} (focus : m.focus = .unwinding mark next)
    (stepped : m.stepUnwind mark next = .ok m') : m.Shifts P m' := by
  have aim : m.focus.aim? = some mark := by rw [focus]; rfl
  have inside : ¬ m.focus.Enters := by rw [focus]; exact id
  have bearing := rests.bearing
  rw [focus] at bearing
  obtain ⟨-, target, rises, rfl, -, -, lands⟩ := bearing
  have after : next.aim? = none ∧ ¬ next.Enters := by
    generalize m.pending = pending at lands
    cases lands <;> exact ⟨rfl, id⟩
  rcases stepUnwind_cases stepped with ⟨deeper, world, left, rfl⟩ | ⟨reached, rfl⟩
  · exact .unwinds aim inside rfl trivial deeper rfl (.leave left) rfl
  · have cut := height_cut rises (rises.domains.eq_of_length_le reached)
    exact .lands aim inside after.1 after.2 (over_truncate m.thread _ (drop_suffix _ _) suffix_rfl)
      (congrArg Stacks.mark cut)
      ⟨rfl, .ofDomains rfl, fun _ _ within => State.getElem?_truncate m.thread within⟩ rfl

omit lawful rests poised in
theorem saves_comeBack (m : Machine) :
    m.world.Saves m.thread.key (m.thread.domains.length - 1) m.comeBack.world :=
  .trans (.hold _ _ _) (.unpark _ _ _ le_rfl)

/-- Whatever a step does, it does one of these things to the stacks. -/
theorem Rests.shifts (stepped : m.step = .next m') : m.Shifts P m' := by
  have went := stepped
  unfold Machine.step at went
  obtain ⟨s, focus, pending⟩ := m
  cases focus with
  | code f instrs pc => exact stepCode_shifts lawful rests poised rfl (next_eq went)
  | native body => exact stepNative_shifts lawful rests poised rfl (next_eq went)
  | result v => exact stepResult_shifts rests poised rfl (next_eq went)
  | fault f => exact stepFault_shifts rfl (next_eq went)
  | visiting domain target args errand =>
    rcases whenFree_next went with ⟨-, turned⟩ | ⟨free, arrived⟩
    · cases turned
      exact .runs (.refl _) suffix_rfl rfl (.waits trivial trivial rfl (.refl _))
    · exact arrive_shifts lawful rests rfl free stepped arrived
  | rollingBack next =>
    have bearing := rests.bearing
    obtain ⟨-, rfl⟩ := comesBack_next went
    have turns : next.aim? = none ∧ ¬ next.Enters := by
      have turns := bearing.2
      cases next with
      | result | fault | done => exact ⟨rfl, id⟩
      | _ => exact turns.elim
    exact .runs (.refl _) suffix_rfl turns.1
      (.returns trivial turns.2 rfl (.trans (saves_comeBack ⟨s, _, pending⟩) (.ofDomains rfl)))
  | returning v =>
    obtain ⟨-, rfl⟩ := comesBack_next went
    exact .runs (.refl _) suffix_rfl rfl
      (.returns trivial id rfl (.trans (saves_comeBack ⟨s, _, pending⟩) (.ofDomains rfl)))
  | unwinding mark next => exact stepUnwind_shifts rests rfl (next_eq went)
  | reentering mark next =>
    obtain ⟨-, rfl⟩ := comesBack_next went
    exact .runs (.refl _) suffix_rfl rfl (.returns trivial id rfl (saves_comeBack ⟨s, _, pending⟩))
  | done => simp at went

end Steps

end Machine

end Tenancy
