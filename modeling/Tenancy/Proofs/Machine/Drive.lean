import Tenancy.Proofs.Machine.Company

/-!
What steps do to states.

A thread in a domain works on the heap, on slots and on variables as its frames do, copies what it is to
carry, collects, puts a frame on top that runs a function that it has come upon, or takes frames off.
Then it goes on there, unwinds, or leaves the domain. So much is true whatever the native bodies do.
A motion that allows each of these, and what is done on the way from domain to domain, leads from every
state to the next. Only the commands that make or end objects and domains are left to say.
-/

namespace Tenancy

open Tenancy.Action Motion List Exec

/-! ### Strides -/

/-- A focus of a thread that stays where it is. -/
def Focus.Calm : Focus → Prop
  | .code _ _ _ | .native _ | .result _ | .fault _ | .done _ => True
  | _ => False

theorem Focus.Fails.calm {focus : Focus} (fails : focus.Fails errand) : focus.Calm := by
  obtain rfl | ⟨f, rfl⟩ := fails
  · cases errand <;> trivial
  · trivial

namespace State

/-- What a thread does in the domain that it is in. `free` says whether it may also make and end objects
and domains. -/
inductive Works (free : Prop) : State → State → Prop where
  | enact {s s' : State} (leads : ∀ M : Motion State, M.Enacts 0 → M.Ready s → M.Leads s s') :
      Works free s s'
  | reply {s : State} (allowed : free) (answered : reply frame c = some act) :
      Works free s (left (act s))
  | copy {s : State} {α : Type} {act : HeapM α} (moves : (Heap.motion l).Moves act)
      (own : l = s.thread.scratch ∨ l = s.thread.transfer) : Works free s (left (onHeap act s))
  | collect {s : State} (roots : List Value) (own : k = s.thread.current.domain ∨ k = s.thread.home) :
      Works free s { s with world := (s.world.collect k roots).2 }
  | frame {m : Machine} {c : Callable} (args : List Value) (found : c.Found m.toState)
      (room : m.thread.frames.length < m.world.settings.callDepth) :
      Works free m.toState
        { m.toState with thread := Machine.pushFrame m.thread (m.newFrame c args) args }
  | cut {s : State} (size : Nat) (suffix : frames <:+ s.thread.frames) :
      Works free s { s with thread := { s.thread.truncate size with frames } }

/-- A thread in a domain works there, and then goes on, unwinds or leaves. -/
inductive Strides (free : Prop) : State → Machine → Prop where
  | works {s : State} (works : s.Works free s') (strides : Strides free s' m) : Strides free s m
  | stays {focus : Focus} (calm : focus.Calm) : Strides free s ⟨s, focus, pending⟩
  | unwinds {mark : Mark} {next : Focus} (some : 1 ≤ mark.domains) (calm : next.Calm) :
      Strides free s ⟨s, .unwinding mark next, pending⟩
  | departs {s : State} {world : World} {id : DomainId}
      (room : s.thread.domains.length < s.world.settings.domainDepth)
      (found : s.world.findDomain? id = some domain) (departs : s.Departs world) :
      Strides free s ⟨⟨world, s.thread⟩, .visiting domain target moved errand, pending⟩
  | returns {s : State} {world : World} (deeper : 1 < s.thread.domains.length)
      (left : s.world.leave s.thread.current.domain s.thread.key = .ok world) :
      Strides free s ⟨⟨world, { s.thread.truncate s.thread.current.start with
        domains := s.thread.domains.tail }⟩, .returning v, pending⟩

end State

/-- The machine is not about to make or end an object or a domain. -/
def Machine.Modest (m : Machine) : Prop := ∀ c next, m.focus = .native (.act c next) → c.Modest

namespace Machine

variable {m m' : Machine} {free : Prop} {next : Focus}

theorem after_strides {next : Machine → α → _}
    (works : m.toState.Works free (left (act m.toState))) (ran : m.after act next = .ok m')
    (goesOn : ∀ a s, next { m with toState := s } a = .ok m' → s.Strides free m') :
    m.toState.Strides free m' := by
  refine .works works ?_
  rcases after_cases ran with ⟨a, s, done, went⟩ | ⟨f, s, failed, rfl⟩
  · rw [done]
    exact goesOn a s went
  · rw [failed]
    exact .stays trivial

theorem unwind_strides (unwound : m.unwind mark next = .ok m') (calm : next.Calm) :
    m.toState.Strides free m' := by
  have valid := unwind_valid unwound
  obtain rfl := unwind_eq unwound
  exact .unwinds valid.1 calm

theorem invoke_strides (found : c.Found m.toState) (invoked : m.invoke c args = .ok m') :
    m.toState.Strides free m' := by
  unfold invoke at invoked
  dsimp only at invoked
  split at invoked
  · cases invoked
    exact .stays trivial
  rename_i room
  split at invoked
  · cases invoked
  refine .works (.frame args found (Nat.lt_of_not_le room)) ?_
  split at invoked
  · refine .works (.enact fun M enacts => enacts.checkParameters_moves
      (show 0 ≤ (m.newFrame c args).argsBase from Nat.zero_le _) _) ?_
    unfold beginNative at invoked
    split at invoked
    · rename_i ran
      cases invoked
      rw [ran]
      exact .stays trivial
    · rename_i ran
      cases invoked
      rw [ran]
      exact .stays trivial
    · cases invoked
  all_goals
    cases invoked
    exact .stays trivial

theorem visit_strides (visited : m.visit target args errand = .ok m') : m.toState.Strides free m' := by
  have copies : m.toState.Works free _ := .copy (Heap.copyAll_moves args) (.inr rfl)
  rw [onHeap_left] at copies
  cases visit_cases visited with
  | stays fails same =>
    subst same
    exact .stays fails.calm
  | fails copied same =>
    subst same
    rw [copied] at copies
    exact .works copies (.stays trivial)
  | leaves room found copied departs same =>
    subst same
    rw [copied] at copies
    exact .works copies (.departs room found departs)

theorem Takes.strides (takes : Takes m.toState call) (called : call m = .ok m') :
    m.toState.Strides free m' := by
  obtain ⟨c, went⟩ := takes.course called
  cases c with
  | raise | answer =>
    cases went
    exact .stays trivial
  | invoke _ _ found => exact invoke_strides found went
  | visit => exact visit_strides went

theorem stepCode_strides (stepped : m.stepCode f instrs pc = .ok m') : m.toState.Strides free m' := by
  refine after_strides (.enact fun M enacts =>
    enacts.instruction_moves ⟨Nat.zero_le _, Nat.zero_le _⟩ instrs pc _) stepped
    fun effect s went => ?_
  split at went
  case h_3 r _ => exact (request_takes s r).strides (m := ⟨s, m.focus, _ :: m.pending⟩) went
  all_goals
    cases went
    exact .stays trivial

theorem stepNative_strides (immodest : ∀ c next, body = .act c next → ¬ c.Modest → free)
    (stepped : m.stepNative body = .ok m') : m.toState.Strides free m' := by
  cases body with
  | done | raise =>
    cases stepped
    exact .stays trivial
  | act c next =>
    unfold stepNative at stepped
    dsimp only at stepped
    split at stepped
    case h_2 =>
      cases stepped
      exact .stays trivial
    rename_i frame _ _
    by_cases quiet : c.Quiet
    · obtain ⟨act, answered, same⟩ := stepCommand_of_quiet m frame next quiet
      rw [same] at stepped
      refine after_strides ?_ stepped fun reply s went => ?_
      · by_cases modest : c.Modest
        · exact .enact fun M enacts => enacts.reply_moves modest answered _
        · exact .reply (immodest c next rfl modest) answered
      · cases went
        exact .stays trivial
    · cases c with
      | call r =>
        exact (request_takes m.toState r).strides (m := { m with pending := .resume next :: m.pending })
          stepped
      | tryCall =>
        exact (callOther_takes m.toState _ _ _).strides
          (m := { m with pending := .attempt m.thread.savePoint next :: m.pending }) stepped
      | restore => exact unwind_strides stepped trivial
      | _ => exact (quiet trivial).elim

theorem departBack_strides (departed : m.departBack v = .ok m') : m.toState.Strides free m' := by
  have copies : m.toState.Works free _ := .copy (Heap.copyValue_moves v) (.inr rfl)
  rw [onHeap_left] at copies
  rcases departBack_cases departed with
    ⟨f, heap, copied, rfl⟩ | ⟨moved, heap, world, deeper, copied, left, rfl⟩
  · rw [copied] at copies
    exact .works copies (.stays trivial)
  · rw [copied] at copies
    exact .works copies (.returns deeper left)

theorem collected_strides {s : State} (own : k = s.thread.current.domain ∨ k = s.thread.home)
    (calm : next.Calm) (collects : w = s.world ∨ w = (s.world.collect k roots).2) :
    s.Strides free ⟨⟨w, s.thread⟩, next, waits⟩ := by
  obtain rfl | rfl := collects
  · exact .stays calm
  · exact .works (.collect _ own) (.stays calm)

theorem stepResult_strides (calm : m.focus.Calm) (stepped : m.stepResult v = .ok m') :
    m.toState.Strides free m' := by
  unfold stepResult at stepped
  split at stepped
  case h_2 base pending _ =>
    cases stepped
    refine .works (.cut base (tail_suffix _)) ?_
    rw [safepoint_eq]
    exact collected_strides (.inl rfl) calm (world_safepoint ⟨⟨m.world, _⟩, m.focus, pending⟩ v)
  case h_3 pending _ =>
    refine after_strides (m := { m with pending }) (.enact fun M enacts =>
      enacts.write_moves ⟨Nat.zero_le _, Nat.zero_le _⟩ _ v _) stepped fun _ s went => ?_
    cases went
    exact .stays trivial
  case h_4 | h_5 =>
    cases stepped
    exact .works (.enact fun M enacts => enacts.push _ v) (.stays trivial)
  case h_6 pending _ => exact departBack_strides (m := { m with pending }) stepped
  case h_7 =>
    refine after_strides (.copy (Heap.copyValue_moves v) (.inl rfl)) stepped fun v s went => ?_
    cases went
    rw [collectHome_eq]
    exact collected_strides (.inr rfl) trivial (world_collectHome ⟨s, m.focus, m.pending⟩)
  all_goals
    cases stepped
    exact .stays trivial

theorem stepFault_strides (calm : m.focus.Calm) (stepped : m.stepFault f = .ok m') :
    m.toState.Strides free m' := by
  unfold stepFault at stepped
  split at stepped
  case h_6 pending _ => exact unwind_strides (m := { m with pending }) stepped trivial
  case h_7 => exact unwind_strides stepped trivial
  all_goals
    cases stepped
    first | exact .stays trivial | exact .stays calm

/-- What a step from a calm focus comes to. -/
theorem strides_of_step (calm : m.focus.Calm) (stepped : m.step = .next m') :
    m.toState.Strides (¬ m.Modest) m' := by
  unfold Machine.step at stepped
  obtain ⟨s, focus, pending⟩ := m
  cases focus with
  | code => exact stepCode_strides (next_eq stepped)
  | native =>
    exact stepNative_strides (fun c next same immodest modest =>
      immodest (modest c next (congrArg Focus.native same))) (next_eq stepped)
  | result => exact stepResult_strides calm (next_eq stepped)
  | fault => exact stepFault_strides calm (next_eq stepped)
  | done => cases stepped
  | _ => exact calm.elim

/-- A command that makes or ends an object or a domain is answered at once. -/
theorem step_of_immodest {c : Command} {next : c.Reply → Native Value}
    (focus : m.focus = .native (.act c next)) (immodest : ¬ c.Modest) (stepped : m.step = .next m') :
    m.thread.frames = [] ∧ m'.toState = m.toState ∨ ∃ frame frames act,
      m.thread.frames = frame :: frames ∧ reply frame c = some act ∧
      m'.toState = left (act m.toState) := by
  have quiet : c.Quiet := by
    cases c with
    | call | tryCall | restore => exact (immodest trivial).elim
    | _ => trivial
  simp only [step, focus] at stepped
  have stepped := next_eq stepped
  unfold stepNative at stepped
  dsimp only at stepped
  split at stepped
  · rename_i frame frames running
    obtain ⟨act, answered, same⟩ := stepCommand_of_quiet m frame next quiet
    rw [same] at stepped
    refine .inr ⟨frame, frames, act, running, answered, ?_⟩
    rcases after_cases stepped with ⟨reply, s, done, went⟩ | ⟨f, s, failed, rfl⟩
    · cases went
      rw [done]
      rfl
    · rw [failed]
      rfl
  · cases stepped
    exact .inl ⟨‹_›, rfl⟩

end Machine

/-- What a host has a thread do. -/
theorem State.Begins.strides {s : State} {m : Machine} (begins : s.Begins m) : s.Strides False m := by
  cases begins with
  | @call _ _ args called =>
    exact Machine.after_strides (m := s.idle _)
      (.enact fun M enacts => enacts.inDomain (fun _ => Heap.copyAll_moves args) s) called
      fun _ s went => (Machine.callOther_takes s _ _ _).strides (m := ⟨s, _, _⟩) went
  | request requested => exact (Machine.request_takes s _).strides (m := s.idle [.bare]) requested
  | callObject called => exact (Machine.callObject_takes s _ _ _).strides (m := s.idle [.bare]) called
  | visit visited => exact Machine.visit_strides (m := s.idle [.bare]) visited
  | restore restored => exact Machine.unwind_strides (m := s.idle []) restored trivial

/-! ### Motions -/

/-- Motions that allow all that steps do by themselves. -/
structure Motion.Drives (M : Motion State) : Prop where
  enacts : M.Enacts 0
  anywhere : ∀ s, M.Ready s
  heap : ∀ (s : State) (heap : Heap), M.Leads s { s with world := { s.world with heap } }
  domain : ∀ (s : State) (k : DomainKey) (f : Domain → Domain),
    (∀ d, (f d).id = d.id ∧ (f d).values = d.values ∧ (f d).members = d.members) →
    M.Leads s { s with world := s.world.modifyDomain k f }
  thread : ∀ (s : State) (t : Thread), t.frames <:+ s.thread.frames → M.Leads s { s with thread := t }
  frame : ∀ (m : Machine) {c : Callable} (args : List Value), c.Found m.toState →
    M.Leads m.toState
      { m.toState with thread := Machine.pushFrame m.thread (m.newFrame c args) args }

/-- The motion allows what commands do that make or end objects and domains, too. -/
def Motion.Replies (M : Motion State) : Prop :=
  ∀ {frame c act}, reply frame c = some act → ∀ s, M.Leads s (left (act s))

namespace Motion.Drives

variable {M : Motion State} {m m' : Machine} (drives : M.Drives) {s s' : State} {free : Prop}
include drives

theorem onHeap (act : HeapM α) (s : State) : M.Leads s (left (onHeap act s)) := by
  rw [onHeap_left]
  exact drives.heap s _

theorem leave (left : s.world.leave k key = .ok w) : M.Leads s { s with world := w } := by
  rw [World.leave_eq left]
  exact drives.domain s k _ fun _ => ⟨rfl, rfl, rfl⟩

theorem hold (s : State) (k : DomainKey) (key : ThreadKey) :
    M.Leads s { s with world := s.world.hold k key } :=
  drives.domain s k (fun d => { d with holder := some key }) fun _ => ⟨rfl, rfl, rfl⟩

theorem comeBack (m : Machine) : M.Leads m.toState m.comeBack.toState := by
  have held := drives.hold m.toState m.thread.current.domain m.thread.key
  exact M.trans held (drives.domain _ m.thread.current.domain
    (·.unpark m.thread.key (m.thread.domains.length - 1)) fun _ => ⟨rfl, rfl, rfl⟩)

theorem entered (m : Machine) (domain : DomainKey) : M.Leads m.toState (m.entered domain) := by
  have held := drives.hold m.toState domain m.thread.key
  exact M.trans held (M.trans (drives.heap _ _) (drives.thread _ _ suffix_rfl))

section

variable (replies : free → M.Replies)
include replies

theorem works (works : s.Works free s') : M.Leads s s' := by
  cases works with
  | enact leads => exact leads M drives.enacts (drives.anywhere s)
  | reply allowed answered => exact replies allowed answered s
  | copy => exact drives.onHeap _ s
  | collect => exact M.trans (drives.heap s _) (drives.domain _ _ _ fun _ => ⟨rfl, rfl, rfl⟩)
  | frame _ found => exact drives.frame _ _ found
  | cut _ suffix => exact drives.thread s _ suffix

theorem strides (strides : s.Strides free m) : M.Leads s m.toState := by
  induction strides with
  | works works _ ih => exact M.trans (drives.works replies works) ih
  | stays | unwinds => exact M.refl _
  | @departs _ _ _ _ _ s _ _ _ _ departs =>
    have parked := drives.domain s s.thread.current.domain
      (·.park ⟨s.thread.key, s.thread.domains.length - 1, s.thread.window⟩) fun _ => ⟨rfl, rfl, rfl⟩
    exact M.trans parked (drives.leave departs)
  | returns _ left => exact M.trans (drives.leave left) (drives.thread _ _ suffix_rfl)

end

theorem stepUnwind {next : Focus} (stepped : m.stepUnwind mark next = .ok m') :
    M.Leads m.toState m'.toState := by
  rcases Machine.stepUnwind_cases stepped with ⟨-, world, left, rfl⟩ | ⟨-, rfl⟩
  · exact M.trans (drives.leave left) (drives.thread _ _ suffix_rfl)
  · exact M.trans (drives.thread m.toState _ (drop_suffix _ _)) (drives.heap _ _)

theorem arrive {domain : DomainKey} {target : ObjectId} {errand : Errand}
    (arrived : m.arrive domain target args errand = .ok m') : M.Leads m.toState m'.toState := by
  have held := drives.hold m.toState domain m.thread.key
  unfold Machine.arrive at arrived
  dsimp only at arrived
  split at arrived
  · simp only [pure, bind, Except.bind, Except.pure] at arrived
    split at arrived
    · cases arrived
    · rename_i left
      cases arrived
      exact M.trans held (drives.leave left)
  · split at arrived
    · cases arrived
      exact drives.entered m domain
    · exact M.trans (drives.entered m domain) (drives.strides False.elim
        ((Machine.callObject_takes _ _ _ _).strides
          (m := ⟨m.entered domain, m.focus, .crossing :: m.pending⟩) arrived))

theorem step (replies : ¬ m.Modest → M.Replies) (stepped : m.step = .next m') :
    M.Leads m.toState m'.toState := by
  have calmly : m.focus.Calm → M.Leads m.toState m'.toState := fun calm =>
    drives.strides replies (Machine.strides_of_step calm stepped)
  unfold Machine.step at stepped
  obtain ⟨s, focus, pending⟩ := m
  cases focus with
  | unwinding => exact drives.stepUnwind (Machine.next_eq stepped)
  | visiting =>
    rcases Machine.whenFree_next stepped with ⟨-, mine⟩ | ⟨-, enter⟩
    · cases mine
      exact M.refl _
    · exact drives.arrive enter
  | rollingBack | returning =>
    obtain ⟨-, rfl⟩ := Machine.comesBack_next stepped
    exact M.trans (drives.comeBack ⟨s, _, pending⟩) (drives.heap _ _)
  | reentering =>
    obtain ⟨-, rfl⟩ := Machine.comesBack_next stepped
    exact drives.comeBack ⟨s, _, pending⟩
  | _ => exact calmly trivial

theorem begins (begins : s.Begins m) : M.Leads s m.toState :=
  drives.strides False.elim begins.strides

end Motion.Drives

end Tenancy
