import Tenancy.Proofs.Machine.Company

/-!
Calls within a run.

What a machine does depends on what waits only from the moment when it hands a result or a fault to
it. A call that is made in the middle of a run is therefore a run of its own, on the footing that the
thread has when it calls, and the rest of what waits lies below it.
-/

namespace Tenancy

open Except

def Machine.onto (m : Machine) (rest : List Pending) : Machine :=
  { m with pending := m.pending ++ rest }

def Progress.onto (rest : List Pending) : Progress → Progress
  | .next m => .next (m.onto rest)
  | .done outcome s => .done outcome s
  | .blocked m => .blocked (m.onto rest)
  | .broken b => .broken b

/-- The outcome of the focus goes to what waits. -/
def Focus.Yields : Focus → Prop
  | .result _ | .fault _ => True
  | _ => False

instance (focus : Focus) : Decidable focus.Yields :=
  match focus with
  | .result _ | .fault _ => .isTrue trivial
  | .code _ _ _ | .native _ | .visiting _ _ _ _ | .rollingBack _ | .returning _ | .unwinding _ _
  | .reentering _ _ | .done _ => .isFalse id

theorem Progress.ofExcept_onto (r : Except Breach Machine) (rest : List Pending) :
    Progress.ofExcept (r.map (·.onto rest)) = (Progress.ofExcept r).onto rest := by
  cases r <;> rfl

namespace Machine

variable (m : Machine) (rest : List Pending)

@[simp] theorem toState_onto : (m.onto rest).toState = m.toState := rfl

@[simp] theorem focus_onto : (m.onto rest).focus = m.focus := rfl

theorem after_onto (act : Exec α)
    (goesOn : ∀ (n : Machine) a, next' (n.onto rest) a = (next n a).map (·.onto rest)) :
    (m.onto rest).after act next' = (m.after act next).map (·.onto rest) := by
  rcases m with ⟨s, focus, pending⟩
  unfold onto after
  dsimp only
  cases act s with
  | ok a s => exact goesOn ⟨s, focus, pending⟩ a
  | error trouble s => cases trouble <;> rfl

theorem beginNative_onto (f : Frame) (body : Native Value) :
    (m.onto rest).beginNative f body = (m.beginNative f body).map (·.onto rest) := by
  unfold beginNative onto
  cases Exec.checkParameters f m.toState with
  | ok _ s => rfl
  | error trouble s => cases trouble <;> rfl

theorem newFrame_onto (c : Callable) (args : List Value) :
    (m.onto rest).newFrame c args = m.newFrame c args := rfl

theorem invoke_onto (c : Callable) (args : List Value) :
    (m.onto rest).invoke c args = (m.invoke c args).map (·.onto rest) := by
  unfold invoke
  simp only [toState_onto, newFrame_onto]
  by_cases deep : m.world.settings.callDepth ≤ m.thread.frames.length
  · simp only [deep, ↓reduceIte]
    rfl
  simp only [deep, ↓reduceIte]
  cases reserve (m.newFrame c args) with
  | error b => rfl
  | ok =>
    cases c.function.body with
    | native body =>
      exact beginNative_onto { m with
        thread := pushFrame m.thread (m.newFrame c args) args
        pending := .frame (m.newFrame c args).argsBase :: m.pending } rest _ body
    | code => rfl
    | undefined => rfl

theorem departHere_onto : (m.onto rest).departHere = m.departHere.map (·.onto rest) := by
  unfold departHere
  simp only [toState_onto, pure, bind, bind, pure]
  by_cases low : m.thread.stack.size < m.thread.current.start
  · simp only [low, ↓reduceIte]
    rfl
  simp only [low, ↓reduceIte]
  cases World.leave _ _ _ <;> rfl

theorem visit_onto (target : ObjectId) (args : List Value) (errand : Errand) :
    (m.onto rest).visit target args errand = (m.visit target args errand).map (·.onto rest) := by
  unfold visit
  simp only [toState_onto]
  by_cases deep : m.world.settings.domainDepth ≤ m.thread.domains.length
  · simp only [deep, ↓reduceIte]
    rfl
  simp only [deep, ↓reduceIte]
  cases (m.world.findObject? target).bind fun o => m.world.findDomain? (m.world.object o).domain with
  | none => rfl
  | some domain =>
  cases Exec.onHeap (Heap.copyAll m.thread.transfer args) m.toState with
  | error trouble s => cases trouble <;> rfl
  | ok moved s =>
    have departs := departHere_onto { m with toState := s } rest
    unfold onto at departs ⊢
    dsimp only at departs ⊢
    rw [departs]
    cases departHere { m with toState := s } <;> rfl

theorem take_onto (c : Course s) : (m.onto rest).take c = (m.take c).map (·.onto rest) := by
  cases c with
  | raise f => rfl
  | answer v => rfl
  | invoke c args found => exact m.invoke_onto rest c args
  | visit target args name => exact m.visit_onto rest target args _

theorem Takes.onto (takes : Takes m.toState call) (rest : List Pending) :
    call (m.onto rest) = (call m).map (·.onto rest) := by
  obtain ⟨c, same⟩ := takes
  have here : call m = m.take c := same m.focus m.pending
  rw [here, ← m.take_onto rest c]
  exact same m.focus (m.pending ++ rest)

theorem unwind_onto (mark : Mark) (next : Focus) :
    (m.onto rest).unwind mark next = (m.unwind mark next).map (·.onto rest) := by
  unfold unwind
  simp only [toState_onto]
  by_cases fits : 1 ≤ mark.domains ∧ mark.domains ≤ m.thread.domains.length ∧
      mark.calls ≤ m.thread.frames.length ∧ mark.stack ≤ m.thread.stack.size
  · simp only [fits]
    rfl
  · simp only [fits, ↓reduceIte]
    rfl

theorem stepCode_onto (frame : Frame) (instrs : Array Instruction) (pc : Nat) :
    (m.onto rest).stepCode frame instrs pc = (m.stepCode frame instrs pc).map (·.onto rest) := by
  refine m.after_onto rest _ fun n effect => ?_
  cases effect with
  | next => rfl
  | ret => rfl
  | call r target =>
    exact (request_takes n.toState r).onto
      (m := { n with pending := .store frame instrs (pc + 1) target :: n.pending }) rest

theorem stepCommand_onto (frame : Frame) (c : Command) (next : c.Reply → Native Value) :
    (m.onto rest).stepCommand frame c next = (m.stepCommand frame c next).map (·.onto rest) := by
  by_cases quiet : c.Quiet
  · obtain ⟨act, answered, same⟩ := stepCommand_of_quiet m frame next quiet
    obtain ⟨act', answered', same'⟩ := stepCommand_of_quiet (m.onto rest) frame next quiet
    obtain rfl := Option.some.inj (answered.symm.trans answered')
    rw [same, same']
    exact m.after_onto rest act fun _ _ => rfl
  cases c with
  | call r =>
    exact (request_takes m.toState r).onto (m := { m with pending := .resume next :: m.pending }) rest
  | tryCall target name args =>
    exact (callOther_takes m.toState name args target).onto
      (m := { m with pending := .attempt m.thread.savePoint next :: m.pending }) rest
  | restore mark => exact m.unwind_onto rest mark _
  | _ => exact (quiet trivial).elim

theorem stepNative_onto (body : Native Value) :
    (m.onto rest).stepNative body = (m.stepNative body).map (·.onto rest) := by
  cases body with
  | done => rfl
  | raise => rfl
  | act c next =>
    unfold stepNative
    rw [toState_onto]
    cases m.thread.frames with
    | nil => rfl
    | cons frame frames => exact m.stepCommand_onto rest frame c next

theorem safepoint_onto (v : Value) : (m.onto rest).safepoint v = (m.safepoint v).onto rest := by
  unfold safepoint
  simp only [toState_onto]
  by_cases due : m.world.needsCollection m.thread.current.domain = true
  · simp only [due, ↓reduceIte]
    rfl
  · simp only [due, Bool.false_eq_true, ↓reduceIte]

theorem departBack_onto (v : Value) :
    (m.onto rest).departBack v = (m.departBack v).map (·.onto rest) := by
  unfold departBack
  simp only [toState_onto]
  by_cases home : m.thread.domains.length ≤ 1
  · simp only [home, ↓reduceIte]
    rfl
  simp only [home, ↓reduceIte]
  refine m.after_onto rest _ fun n v => ?_
  simp only [toState_onto, pure, bind, bind, pure]
  cases World.leave _ _ _ <;> rfl

theorem collectHome_onto : (m.onto rest).collectHome = m.collectHome.onto rest := by
  unfold collectHome
  simp only [toState_onto]
  by_cases ended : m.thread.domains.length = 1 ∧ m.thread.frames = []
  · simp only [ended]
    rfl
  · simp only [ended, ↓reduceIte]

theorem stepResult_onto (waits : m.pending ≠ []) (v : Value) :
    (m.onto rest).stepResult v = (m.stepResult v).map (·.onto rest) := by
  obtain ⟨s, focus, pending⟩ := m
  cases pending with
  | nil => exact (waits rfl).elim
  | cons e below =>
    cases e with
    | frame base =>
      exact congrArg ok (safepoint_onto ⟨{ s with
        thread := { s.thread.truncate base with frames := s.thread.frames.tail } }, focus, below⟩ rest v)
    | store frame instrs pc target =>
      unfold stepResult
      exact after_onto ⟨s, focus, below⟩ rest (Exec.write frame target v) fun _ _ => rfl
    | resume => rfl
    | attempt => rfl
    | crossing => exact departBack_onto ⟨s, focus, below⟩ rest v
    | host mark =>
      unfold stepResult
      refine after_onto ⟨s, focus, .host mark :: below⟩ rest
        (Exec.onHeap (Heap.copyValue s.thread.scratch v)) fun n v => ?_
      rw [collectHome_onto]
      rfl
    | bare => rfl

theorem stepFault_onto (waits : m.pending ≠ []) (f : Fault) :
    (m.onto rest).stepFault f = (m.stepFault f).map (·.onto rest) := by
  obtain ⟨s, focus, pending⟩ := m
  cases pending with
  | nil => exact (waits rfl).elim
  | cons e below =>
    cases e with
    | attempt mark next => exact unwind_onto ⟨s, focus, below⟩ rest mark _
    | host mark => exact unwind_onto ⟨s, focus, .host mark :: below⟩ rest mark _
    | _ => rfl

theorem arrive_onto (domain : DomainKey) (target : ObjectId) (args : List Value) (errand : Errand) :
    (m.onto rest).arrive domain target args errand =
      (m.arrive domain target args errand).map (·.onto rest) := by
  obtain ⟨s, focus, pending⟩ := m
  unfold arrive onto
  dsimp only
  generalize ((s.world.hold domain s.thread.key).findObject? target).filter
    (fun o => ((s.world.hold domain s.thread.key).object o).domain =
      ((s.world.hold domain s.thread.key).domain domain).id) = found
  cases found with
  | none =>
    simp only [pure, bind, bind, pure]
    cases World.leave _ _ _ <;> rfl
  | some o =>
    cases errand with
    | stay => rfl
    | call name =>
      exact (callObject_takes (entered ⟨s, focus, pending⟩ domain) name args o).onto
        (m := ⟨entered ⟨s, focus, pending⟩ domain, focus, .crossing :: pending⟩) rest

theorem stepUnwind_onto (mark : Mark) (next : Focus) :
    (m.onto rest).stepUnwind mark next = (m.stepUnwind mark next).map (·.onto rest) := by
  unfold stepUnwind
  simp only [toState_onto, pure, bind, bind, pure]
  by_cases deeper : mark.domains < m.thread.domains.length
  · simp only [deeper, ↓reduceIte]
    cases World.leave _ _ _ <;> rfl
  · simp only [deeper, ↓reduceIte]
    rfl

theorem whenFree_onto (domain : DomainKey) (own : mine' = mine.map (·.onto rest))
    (free : enter' = enter.map (·.onto rest)) :
    (m.onto rest).whenFree domain mine' enter' = (m.whenFree domain mine enter).onto rest := by
  subst own free
  unfold whenFree
  simp only [toState_onto]
  cases (m.world.domain domain).holder with
  | none => exact Progress.ofExcept_onto enter rest
  | some key =>
    by_cases same : key = m.thread.key
    · simp only [same, ↓reduceIte]
      exact Progress.ofExcept_onto mine rest
    · simp only [same, ↓reduceIte]
      rfl

theorem step_onto (waits : m.focus.Yields → m.pending ≠ []) :
    (m.onto rest).step = m.step.onto rest := by
  unfold step
  simp only [toState_onto, focus_onto]
  cases focus : m.focus with
  | code frame instrs pc =>
    dsimp only
    rw [stepCode_onto, Progress.ofExcept_onto]
  | native body =>
    dsimp only
    rw [stepNative_onto, Progress.ofExcept_onto]
  | result v =>
    dsimp only
    rw [stepResult_onto m rest (waits (focus ▸ trivial)), Progress.ofExcept_onto]
  | fault f =>
    dsimp only
    rw [stepFault_onto m rest (waits (focus ▸ trivial)), Progress.ofExcept_onto]
  | visiting domain target args errand =>
    exact m.whenFree_onto rest domain rfl (m.arrive_onto rest domain target args errand)
  | rollingBack next => exact m.whenFree_onto rest _ rfl rfl
  | returning v => exact m.whenFree_onto rest _ rfl rfl
  | unwinding mark next =>
    dsimp only
    rw [stepUnwind_onto, Progress.ofExcept_onto]
  | reentering mark next => exact m.whenFree_onto rest _ rfl rfl
  | done => rfl

theorem expire?_onto : (m.onto rest).expire? = m.expire?.map (·.onto rest) := by
  unfold expire?
  simp only [toState_onto, focus_onto]
  split <;> rfl

variable {P : Function → Prop} {s : State} {waits : List Pending}

variable {m rest} {m' : Machine}

/-- The machine runs a call that was made in `s`, over what waits for its outcome. -/
def Within (P : Function → Prop) (s : State) (waits : List Pending) (m : Machine) : Prop :=
  ∃ above, m.pending = above ++ waits ∧
    Rests P m.world ⟨s, true⟩ { m with pending := above ++ [.host s.thread.savePoint] }

/-- The call is over: what waits for its outcome gets it. -/
def Back (waits : List Pending) (m : Machine) : Prop := m.focus.Yields ∧ m.pending = waits

theorem Rests.rises (rests : m.Rests P w0 origin)
    (hosted : origin.hosted = true) : m.thread.height.Over origin.thread.height := by
  have bearing := rests.bearing
  obtain ⟨s, focus, pending⟩ := m
  cases focus with
  | code => exact bearing.1.rises
  | native => exact bearing.elim (fun honest => honest.2.1.rises) fun lost => lost.2.rises
  | result => exact State.Level.rises bearing
  | fault => exact State.Falling.rises bearing
  | visiting | rollingBack =>
    obtain ⟨-, _, stacked⟩ := bearing.1
    exact stacked.rises
  | returning =>
    obtain ⟨-, _, stacked⟩ := bearing
    exact stacked.rises
  | unwinding | reentering =>
    obtain ⟨-, _, rises, -, -, floor, -⟩ := bearing
    exact rises.trans floor
  | done =>
    rw [(bearing.2 hosted).1]
    exact .refl _

namespace Within

theorem rises (within : m.Within P s waits) : m.thread.height.Over s.thread.height := by
  obtain ⟨_, -, rests⟩ := within
  exact rests.rises rfl

theorem slots (within : m.Within P s waits) (below : i < s.thread.stack.size) :
    m.thread.stack[i]? = s.thread.stack[i]? := by
  obtain ⟨_, -, rests⟩ := within
  exact rests.regular.upon.slots i below

/-- The steps of a call are those of a run on its own footing. -/
theorem step (lawful : ∀ f, P f → f.Honest) (within : m.Within P s waits) (away : ¬ m.Back waits)
    (stepped : m.step = .next m') : m'.Within P s waits := by
  obtain ⟨above, pending, rests⟩ := within
  let core : Machine := { m with pending := above }
  have open_ : core.focus.Yields → core.pending ≠ [] := by
    intro yields none
    refine away ⟨yields, ?_⟩
    rw [pending, show above = [] from none, List.nil_append]
  have same : m = core.onto waits := by rw [onto, ← pending]
  rw [same, step_onto core waits open_] at stepped
  cases went : core.step with
  | next core' =>
    rw [went] at stepped
    obtain rfl := Progress.next.inj stepped
    have alone := step_onto core [.host s.thread.savePoint] open_
    rw [went] at alone
    exact ⟨core'.pending, rfl, (rests.step lawful alone).anew⟩
  | _ =>
    rw [went] at stepped
    simp [Progress.onto] at stepped

theorem expire (within : m.Within P s waits) (expired : m.expire? = some m') :
    m'.Within P s waits := by
  obtain ⟨above, pending, rests⟩ := within
  let core : Machine := { m with pending := above }
  have same : m = core.onto waits := by rw [onto, ← pending]
  rw [same, expire?_onto, Option.map_eq_some_iff] at expired
  obtain ⟨core', went, rfl⟩ := expired
  have alone := expire?_onto core [.host s.thread.savePoint]
  rw [went] at alone
  exact ⟨core'.pending, rfl, (rests.expire alone).anew⟩

theorem spared (within : m.Within P s waits) (spares : m.world.Spares m.thread world)
    (sound : world.Sound P) : Within P s waits { m with world } := by
  obtain ⟨above, pending, rests⟩ := within
  exact ⟨above, pending, rests.spared spares sound⟩

/-- Nothing of the call is left when its result is there. -/
theorem thread_eq (within : m.Within P s waits) (pending : m.pending = waits)
    (stacked : ∃ v, m.focus = .result v ∨ m.focus = .returning v) : m.thread = s.thread := by
  obtain ⟨above, same, rests⟩ := within
  obtain rfl : above = [] := by simpa [pending] using same
  have bearing := rests.bearing
  obtain ⟨v, focus | focus⟩ := stacked
  · rw [show Machine.focus { m with pending := [] ++ [.host s.thread.savePoint] } = .result v from focus]
      at bearing
    obtain ⟨-, _, stacked, -⟩ := bearing
    exact rests.regular.upon.thread_eq stacked.of_host.2
  · rw [show Machine.focus { m with pending := [] ++ [.host s.thread.savePoint] } =
      .returning v from focus]
      at bearing
    obtain ⟨-, _, stacked⟩ := bearing
    exact rests.regular.upon.thread_eq stacked.of_host.2

end Within

/-- A thread that is in a domain can make a call on a footing of its own. -/
theorem Takes.within (takes : Takes m.toState call) (lawful : ∀ f, P f → f.Honest)
    (resting : m.toState.Resting P) (called : call m = .ok m') :
    m'.Within P m.toState m.pending := by
  let core : Machine := { m with pending := [] }
  have onWaits : call m = (call core).map (·.onto m.pending) := takes.onto (m := core) m.pending
  have alone := takes.onto (m := core) [.host m.thread.savePoint]
  cases went : call core with
  | error b => simp [called, went, Except.map] at onWaits
  | ok core' =>
    rw [called, went] at onWaits
    cases onWaits
    rw [went] at alone
    have level : m.toState.Level ⟨m.toState, true⟩ [.host m.thread.savePoint] :=
      ⟨resting.inside, true, .host rfl, fun _ clear => clear⟩
    have regular : m.toState.Regular P m.world ⟨m.toState, true⟩ := { resting.regular with }
    exact ⟨core'.pending, rfl, (takes.rests (m := core.onto [.host m.thread.savePoint]) regular level
      lawful alone).anew⟩

theorem Rests.within (rests : m.Rests P w0 origin)
    (focus : m.focus = .visiting domain target args (.call name)) :
    m.Within P m.toState m.pending := by
  have between := rests.between (focus ▸ trivial)
  have bearing := rests.bearing
  rw [focus] at bearing
  obtain ⟨-, valid, room, -⟩ := bearing
  refine ⟨[], rfl, { rests.regular with upon := .refl between.nonempty, does := .refl _ _ }, ?_⟩
  show Bearing _ _ _ m.focus
  rw [focus]
  exact ⟨⟨between, true, .host rfl⟩, valid, room, by simp⟩

end Machine

end Tenancy
