import Tenancy.Proofs.Machine.Drive

/-!
Where a thread is, whatever native bodies do.

A native body may unwind as it likes and take frames and values from under what waits. But it changes
domains only as the thread does. So a thread is in the domain of its top context, or on its way with
all its windows parked, as its focus says.
-/

namespace Tenancy

open Tenancy.Action Exec List

variable {P : Function → Prop} {w0 : World} {origin : Footing} {s0 s s' : State} {m m' : Machine}
  {contexts : List DomainContext} {focus : Focus}

/-- What the focus promises: a domain that can be entered, a mark that leaves the thread a context, a
calm focus after that. -/
def Focus.Sane (s : State) : Focus → Prop
  | .visiting domain _ _ _ => domain < s.world.domains.size ∧
      s.thread.domains.length < s.world.settings.domainDepth
  | .rollingBack next => next.Calm
  | .unwinding mark next | .reentering mark next => 1 ≤ mark.domains ∧ next.Calm
  | _ => True

/-- The thread without its stacks. -/
def State.ground (s : State) : Footing :=
  ⟨{ s with thread := { s.thread with stack := #[], frames := [], domains := [default] } }, false⟩

theorem State.Regular.grounded (regular : s.Regular P w0 origin) : s.Regular P s.world s.ground :=
  { regular with
    upon := ⟨by simp [ground], rfl, by simp [ground], by simp [ground, windowsUnder]⟩
    does := .refl _ _ }

/-- The thread is in a domain, and has these contexts. -/
structure State.Dwells (P : Function → Prop) (contexts : List DomainContext) (s0 s : State) : Prop where
  regular : s.Regular P s0.world s0.ground
  inside : s.Inside
  domains : s.thread.domains = contexts

/-- The thread is where its focus says. -/
structure Machine.Roams (P : Function → Prop) (s0 : State) (m : Machine) : Prop where
  regular : m.toState.Regular P s0.world s0.ground
  inside : m.focus.Enters ∨ m.toState.Inside
  between : m.focus.Enters → m.toState.Between
  sane : m.focus.Sane m.toState

/-- The thread has the contexts that it had, or has set out. -/
structure Machine.Ventures (P : Function → Prop) (contexts : List DomainContext) (s0 : State)
    (m : Machine) : Prop extends m.Roams P s0 where
  shorter : m.thread.domains <:+ contexts
  remains : m.focus.Enters ∨ m.thread.domains = contexts

namespace State.Dwells

variable (dwells : s0.Dwells P contexts s)
include dwells

theorem mild (mild : s.Mild P 0 s') : s0.Dwells P contexts s' :=
  ⟨dwells.regular.mild mild, dwells.inside.mild mild, mild.domains.trans dwells.domains⟩

theorem calm (calm : focus.Calm) (pending : List Pending) :
    Machine.Ventures P contexts s0 ⟨s, focus, pending⟩ := by
  refine ⟨⟨dwells.regular, .inr dwells.inside, fun enters => ?_, ?_⟩, dwells.domains ▸ suffix_rfl,
    .inr dwells.domains⟩
  all_goals
    cases focus with
    | visiting | rollingBack | returning | unwinding | reentering => exact calm.elim
    | _ => first | exact enters.elim | trivial

theorem works (works : s.Works free s') : s0.Dwells P contexts s' := by
  obtain ⟨regular, inside, domains⟩ := id dwells
  have ready : (motion P 0).Ready s := inside.ready regular (Nat.zero_le _)
  cases works with
  | enact leads => exact dwells.mild (leads _ (motion_enacts P 0) ready)
  | reply _ answered => exact dwells.mild (reply_moves answered s ready)
  | @copy l _ _ _ moves own =>
    have valid : l.number < s.world.heap.lists.size := by
      rcases own with rfl | rfl
      · exact regular.sound.scratch
      · exact regular.sound.transfer
    rw [onHeap_left]
    exact ⟨regular.served (moves _ ⟨regular.sound.world.heap, valid⟩) own, inside, domains⟩
  | @collect k _ roots own =>
    have valid : k < s.world.domains.size := by
      rcases own with rfl | rfl
      · exact inside.valid
      · exact regular.home
    exact ⟨regular.collected valid roots, inside.withWorld (World.same_collect _ _ _), domains⟩
  | frame _ found room =>
    exact ⟨regular.withStacks (fun i below => absurd below (Nat.not_lt_zero i)) room regular.domains
      (forall_mem_cons.mpr ⟨found.based _, regular.based⟩), inside, domains⟩
  | cut size suffix => exact ⟨Machine.cut_regular regular (Nat.zero_le _) suffix, inside, domains⟩

end State.Dwells

theorem State.Strides.ventures (strides : s.Strides free m) (dwells : s0.Dwells P contexts s) :
    m.Ventures P contexts s0 := by
  induction strides with
  | works works _ ih => exact ih (dwells.works works)
  | stays calm => exact dwells.calm calm _
  | unwinds some calm =>
    exact ⟨⟨dwells.regular, .inr dwells.inside, False.elim, some, calm⟩,
      dwells.domains ▸ suffix_rfl, .inr dwells.domains⟩
  | departs room found departs =>
    obtain ⟨away, between, does⟩ := Machine.departs_abroad dwells.regular dwells.inside
      (length_pos_iff.mpr dwells.inside.nonempty) departs
    refine ⟨⟨away, .inl trivial, fun _ => between, ?_, ?_⟩, dwells.domains ▸ suffix_rfl,
      .inl trivial⟩
    · exact (dwells.regular.sound.world.findDomain? found).trans_eq does.size.symm
    · rw [does.settings]
      exact room
  | returns deeper left =>
    obtain ⟨regular, between⟩ := Machine.leave_between dwells.regular dwells.inside deeper left
      fun _ below => absurd below (Nat.not_lt_zero _)
    exact ⟨⟨regular, .inl trivial, fun _ => between, trivial⟩,
      dwells.domains ▸ tail_suffix _, .inl trivial⟩

namespace Machine

theorem comeBack_dwells (regular : m.toState.Regular P s0.world s0.ground) (between : m.toState.Between)
    (free : (m.world.domain m.thread.current.domain).holder = none) :
    s0.Dwells P m.thread.domains m.comeBack.toState := by
  obtain ⟨regular, inside⟩ :=
    comeBack_inside regular between (length_pos_iff.mpr between.nonempty) free
  exact ⟨regular, inside, rfl⟩

theorem arrive_roams (regular : m.toState.Regular P s0.world s0.ground) (between : m.toState.Between)
    (valid : domain < m.world.domains.size)
    (room : m.thread.domains.length < m.world.settings.domainDepth)
    (free : (m.world.domain domain).holder = none)
    (arrived : m.arrive domain target args errand = .ok m') : m'.Roams P s0 := by
  obtain ⟨regularIn, inside, -⟩ := entered_regular regular between valid room free
  unfold arrive at arrived
  dsimp only at arrived
  split at arrived
  · obtain ⟨world, gone, awaits⟩ := between.turnBack valid
    simp only [pure, bind, Except.bind, Except.pure, gone] at arrived
    cases arrived
    exact ⟨turned_regular regular free gone, .inl trivial, fun _ => awaits, Focus.Fails.calm (.inl rfl)⟩
  · cases errand with
    | stay =>
      cases arrived
      exact ⟨regularIn, .inr inside, False.elim, trivial⟩
    | call name =>
      have strides : (m.entered domain).Strides False m' :=
        (callObject_takes (m.entered domain) name args _).strides
          (m := ⟨m.entered domain, m.focus, .crossing :: m.pending⟩) arrived
      exact (strides.ventures ⟨regularIn, inside, rfl⟩).toRoams

namespace Roams

variable (roams : m.Roams P s0)
include roams

theorem ventures (stays : ¬ m.focus.Enters) (stepped : m.step = .next m') :
    m'.Ventures P m.thread.domains s0 := by
  have dwells : s0.Dwells P _ m.toState := ⟨roams.regular, roams.inside.resolve_left stays, rfl⟩
  have sane := roams.sane
  have calmly : m.focus.Calm → m'.Ventures P m.thread.domains s0 := fun calm =>
    (strides_of_step calm stepped).ventures dwells
  unfold Machine.step at stepped
  obtain ⟨s, focus, pending⟩ := m
  cases focus with
  | unwinding mark next =>
    rcases stepUnwind_cases (next_eq stepped) with ⟨deeper, world, gone, rfl⟩ | ⟨-, rfl⟩
    · obtain ⟨regular, between⟩ := leave_between dwells.regular dwells.inside
        (Nat.lt_of_le_of_lt sane.1 deeper) gone fun _ _ => rfl
      exact ⟨⟨regular, .inl trivial, fun _ => between, sane⟩, tail_suffix _, .inl trivial⟩
    · have cut := cut_regular dwells.regular (Nat.zero_le mark.stack)
        (drop_suffix (s.thread.frames.length - mark.calls) s.thread.frames)
      obtain ⟨regular, inside, -⟩ :=
        receive_inside (m := ⟨_, .unwinding mark next, pending⟩) cut dwells.inside
      exact State.Dwells.calm ⟨regular, inside, rfl⟩ sane.2 _
  | visiting | rollingBack | returning | reentering => exact (stays trivial).elim
  | _ => exact calmly trivial

/-- A thread is where its focus says after every step. -/
theorem step (stepped : m.step = .next m') : m'.Roams P s0 := by
  by_cases stays : ¬ m.focus.Enters
  · exact (roams.ventures stays stepped).toRoams
  have between := roams.between (not_not.mp stays)
  obtain ⟨regular, -, -, sane⟩ := roams
  unfold Machine.step at stepped
  obtain ⟨s, focus, pending⟩ := m
  cases focus with
  | visiting =>
    rcases whenFree_next stepped with ⟨-, mine⟩ | ⟨free, arrived⟩
    · cases mine
      exact ⟨regular, .inl trivial, fun _ => between, trivial⟩
    · exact arrive_roams regular between sane.1 sane.2 free arrived
  | rollingBack next =>
    obtain ⟨free, rfl⟩ := comesBack_next stepped
    have back := comeBack_dwells regular between free
    have freed := back.regular.withHeap (.single (.freeAll _ s.thread.transfer))
      fun _ _ _ notTransfer => Heap.list_freeAll_of_ne notTransfer _
    exact (State.Dwells.calm ⟨freed, back.inside, rfl⟩ sane _).toRoams
  | returning =>
    obtain ⟨free, rfl⟩ := comesBack_next stepped
    have back := comeBack_dwells regular between free
    obtain ⟨received, inside, -⟩ := receive_inside back.regular back.inside
    exact ⟨received, .inr inside, False.elim, trivial⟩
  | reentering =>
    obtain ⟨free, rfl⟩ := comesBack_next stepped
    have back := comeBack_dwells regular between free
    exact ⟨back.regular, .inr back.inside, False.elim, sane⟩
  | _ => exact (stays id).elim

theorem expire (expired : m.expire? = some m') : m'.Roams P s0 := by
  obtain ⟨⟨_, _, _, _, focus⟩, f, rfl⟩ := expire?_cases expired
  exact ⟨roams.regular, .inl trivial, fun _ => roams.between (by rw [focus]; trivial), trivial⟩

theorem anew : m.Roams P m.toState := { roams with regular := roams.regular.grounded }

/-- A thread that is spared stays where it is. -/
theorem spared (spares : m.world.Spares m.thread world) (sound : world.Sound P) :
    Roams P ⟨world, m.thread⟩ { m with world } := by
  refine ⟨(roams.regular.lets spares.toLets sound).grounded,
    roams.inside.imp_right (·.lets spares.toLets), fun enters => ?_, ?_⟩
  · obtain ⟨nonempty, held, parks⟩ := roams.between enters
    exact ⟨nonempty, held.congr spares.holder, parks.congr spares.windows⟩
  · have sane := roams.sane
    obtain ⟨s, focus, pending⟩ := m
    cases focus with
    | visiting =>
      refine ⟨sane.1.trans_le spares.size, ?_⟩
      rw [spares.settings]
      exact sane.2
    | _ => exact sane

end Roams

end Machine

/-- Whatever a host has a thread do, the thread is where its focus says. -/
theorem State.Resting.ventures (resting : s.Resting P) (begins : s.Begins m) :
    m.Ventures P s.thread.domains s :=
  begins.strides.ventures ⟨resting.regular.grounded, resting.inside, rfl⟩

end Tenancy
