import Tenancy.Proofs.Heap.Duplicate
import Tenancy.Proofs.Machine.Company

/-!
Breaches that no run meets.

A domain is never entered by a thread that holds it, nor left by one that does not, and no thread
goes back out of its home. What frames do on their own has nothing to do with domains; where a
machine enters or leaves one, the footing of the run says that it may. Code meets no breach but in
making a call.
-/

namespace Tenancy

variable {breach : Breach}

open Tenancy.Action Machine Exec Except

def Breach.OfDomains : Breach → Prop
  | .reentered _ | .notHeld _ _ | .leavingHome => True
  | _ => False

/-- No stack has room for the frame. -/
def Frame.Vast (f : Frame) : Prop := Block.limit ≤ Value.width * (f.localsBase + f.localCount)

/-- The window of the domain that the thread is in does not lie on the stack. -/
def Thread.Cut (t : Thread) : Prop := t.stack.size < t.current.start

def Trouble.Plain : Trouble → Prop
  | .fault _ => True
  | .breach b => ¬ b.OfDomains

/-! ### Actions of frames -/

namespace Exec

variable {α β : Type}

def Plain (act : Exec α) : Prop :=
  ∀ s, Ends (fun _ _ => True) (fun trouble _ => trouble.Plain) (act s)

theorem plain_pure (a : α) : Plain (pure a : Exec α) := fun _ => trivial

theorem plain_fail (f : Fault) : Plain (fail f : Exec α) := fun _ => trivial

theorem Plain.bind (first : Plain x) (next : ∀ a, Plain (f a)) :
    Plain (x >>= f) := fun s => (first s).bind fun a t _ => next a t

theorem plain_get_bind (next : ∀ s, Plain (f s)) : Plain (get >>= f) :=
  fun s => next s s

theorem plain_modify (f : State → State) : Plain (modify f) := fun _ => trivial

theorem plain_modifyGet (f : State → α × State) : Plain (modifyGet f) := fun _ => trivial

theorem plain_ofExcept (r : Except Fault α) : Plain (ofExcept r) := by
  cases r with
  | ok a => exact plain_pure a
  | error f => exact plain_fail f

theorem onHeap_plain (act : HeapM α) : Plain (onHeap act) := by
  intro s
  rw [onHeap_apply]
  cases act s.world.heap <;> trivial

theorem inDomain_plain (act : ListId → HeapM α) : Plain (inDomain act) :=
  plain_get_bind fun _ => onHeap_plain _

theorem setMember_plain (object : ObjectKey) (slot : Nat) (v : Value) :
    Plain (setMember object slot v) := by
  refine plain_get_bind fun s => ?_
  split
  · exact (plain_modify _).bind fun _ => plain_pure _
  · exact plain_pure _

theorem caught_plain (plain : Plain act) : Plain (caught act) := by
  intro s
  have ends := plain s
  unfold caught
  split
  · trivial
  · trivial
  · rename_i ran
    rwa [ran] at ends

theorem localize_plain (v : Value) : Plain (localize v) := by
  unfold localize
  split
  · refine plain_get_bind fun s => ?_
    split
    · exact plain_pure _
    · exact onHeap_plain _
  · exact plain_pure _

theorem getMember_plain (frame : Frame) (index : Nat) : Plain (getMember frame index) := by
  unfold getMember
  split
  · refine plain_get_bind fun s => ?_
    split
    · exact plain_pure _
    · exact plain_fail _
  · exact plain_fail _

theorem putMember_plain (frame : Frame) (index : Nat) (v : Value) :
    Plain (putMember frame index v) := by
  unfold putMember
  split
  · exact (localize_plain v).bind fun _ => (setMember_plain _ _ _).bind fun _ => plain_pure _
  · exact plain_fail _

end Exec

theorem Draft.reserve_plain {draft : Draft} (failed : draft.reserve = .error breach) :
    ¬ breach.OfDomains := by
  cases draft with
  | instances c count =>
    unfold Draft.reserve at failed
    cases size : Size.mul c.instanceSize count with
    | error b =>
      simp only [size, bind, Except.bind, Except.error.injEq] at failed
      unfold Size.mul at size
      split at size <;> cases size
      exact failed ▸ id
    | ok bytes =>
      simp only [size, bind, Except.bind] at failed
      unfold Block.reserve at failed
      split at failed <;> cases failed
      exact id
  | _ => simp [Draft.reserve] at failed

theorem Exec.make_plain (share : Share) (draft : Draft) : Plain (make share draft) := by
  unfold make
  cases reserved : draft.reserve with
  | error b => exact fun _ => Draft.reserve_plain reserved
  | ok => exact plain_get_bind fun _ => plain_modifyGet _

theorem Exec.reply_plain (answered : reply frame c = some act) : Plain act := by
  cases c with
  | call | tryCall | restore => simp [reply] at answered
  | argc =>
    cases answered
    exact plain_pure _
  | args =>
    cases answered
    refine plain_get_bind fun s => ?_
    dsimp only
    split
    · exact plain_pure _
    · exact fun _ => id
  | thisObject | objectSize | callDepth | heap | savePoint | lookup | domainId | domainName
    | domainSize =>
    cases answered
    exact plain_get_bind fun _ => plain_pure _
  | member index =>
    cases answered
    exact caught_plain (getMember_plain _ _)
  | setMember index v =>
    cases answered
    exact caught_plain (putMember_plain _ _ _)
  | make share draft =>
    cases answered
    exact make_plain _ _
  | binary op a b =>
    cases answered
    exact caught_plain (inDomain_plain _)
  | indexGet | indexSet | arrayPush =>
    cases answered
    exact caught_plain (onHeap_plain _)
  | keep | output | report =>
    cases answered
    exact plain_modify _
  | newObject program =>
    cases answered
    refine plain_get_bind fun s => ?_
    split
    · exact plain_pure _
    · exact fun _ => trivial
  | destruct | collect =>
    cases answered
    exact plain_modifyGet _
  | destroyDomain id =>
    cases answered
    exact caught_plain (plain_get_bind fun _ => (plain_ofExcept _).bind fun _ => plain_modify _)

/-! ### Machines -/

namespace Machine

variable {P : Function → Prop} {w0 : World} {origin : Footing} {m : Machine} {b : Breach} {α : Type}
  {f : Frame} {args : List Value}

theorem after_error_cases
    (failed : m.after act next = .error b) : (∃ s, act m.toState = .error (.breach b) s) ∨
      ∃ a s, act m.toState = .ok a s ∧ next { m with toState := s } a = .error b := by
  rcases m with ⟨s, focus, pending⟩
  unfold after at failed
  dsimp only at failed
  split at failed
  · exact .inr ⟨_, _, ‹_›, failed⟩
  · simp at failed
  · obtain rfl := error.inj failed
    exact .inl ⟨_, ‹_›⟩

theorem after_error {act : Exec α} (plain : act.Plain) (failed : m.after act next = .error b) :
    ¬ b.OfDomains ∨ ∃ a s, act m.toState = .ok a s ∧ next { m with toState := s } a = .error b := by
  refine (after_error_cases failed).imp_left fun ⟨s, ran⟩ => ?_
  have ends := plain m.toState
  rwa [ran] at ends

theorem after_error_of_faults (ends : Ends Q (fun trouble _ => trouble.IsFault) (act m.toState))
    (failed : m.after act next = .error b) :
    ∃ a s, act m.toState = .ok a s ∧ next { m with toState := s } a = .error b := by
  rcases after_error_cases failed with ⟨s, ran⟩ | went
  · rw [ran] at ends
    exact ends.elim
  · exact went

theorem beginNative_ne_error (lies : f.Lies m.thread.stack.size) (body : Native Value) :
    m.beginNative f body ≠ .error b := by
  have ends := checkParameters_secure m.toState lies
  unfold beginNative
  split
  · simp
  · simp
  · rename_i ran
    rw [ran] at ends
    exact ends.elim

theorem reserve_error (failed : reserve f = .error b) : f.Vast ∧ ¬ b.OfDomains := by
  unfold reserve at failed
  cases size : Size.add f.localsBase f.localCount with
  | error b =>
    simp only [size, bind, Except.bind, Except.error.injEq] at failed
    unfold Size.add at size
    split at size
    · cases size
    · rename_i large
      cases size
      subst failed
      refine ⟨?_, id⟩
      unfold Frame.Vast Block.limit Value.width
      unfold Size.limit at large
      omega
  | ok slots =>
    have sum : slots = f.localsBase + f.localCount := by
      unfold Size.add at size
      split at size <;> cases size
      rfl
    simp only [size, bind, Except.bind] at failed
    unfold Block.reserve Block.fits at failed
    split at failed
    · cases failed
    · rename_i large
      cases failed
      refine ⟨?_, id⟩
      subst sum
      simpa [Frame.Vast] using large

theorem invoke_error (failed : m.invoke c args = .error b) :
    (m.newFrame c args).Vast ∧ ¬ b.OfDomains := by
  unfold invoke at failed
  dsimp only at failed
  split at failed
  · simp at failed
  split at failed
  · rename_i reserved
    obtain rfl := error.inj failed
    exact reserve_error reserved
  split at failed
  · exact (beginNative_ne_error (m.pushFrame_lies c args) _ failed).elim
  · simp at failed
  · simp at failed

theorem departHere_error (inside : m.toState.Inside) (failed : m.departHere = .error b) :
    m.thread.Cut ∧ ¬ b.OfDomains := by
  obtain ⟨below, domains⟩ := inside.cons
  have depth : m.thread.domains.length - 1 = below.length := by simp [domains]
  obtain ⟨world, left, -⟩ := (inside.seats domains).depart m.thread.window
  unfold departHere at failed
  dsimp only at failed
  split at failed
  · simp only [bind, Except.bind, throw, throwThe, MonadExceptOf.throw, Except.error.injEq] at failed
    subst failed
    exact ⟨‹_›, id⟩
  · rw [depth] at failed
    simp [pure, bind, Except.bind, Except.pure, left] at failed

theorem visit_error (inside : m.toState.Inside)
    (failed : m.visit target args errand = .error b) : m.thread.Cut ∧ ¬ b.OfDomains := by
  have copied := inside.onHeap (Heap.copyAll m.thread.transfer args)
  have left := onHeap_left (Heap.copyAll m.thread.transfer args) m.toState
  unfold visit at failed
  dsimp only at failed
  split at failed
  · simp at failed
  split at failed
  · simp at failed
  split at failed
  · simp at failed
  · rename_i ran
    rw [onHeap_apply] at ran
    split at ran <;> simp at ran
  · rename_i ran
    rw [ran] at copied
    rw [ran, left_ok] at left
    subst left
    simp only [pure, bind, Except.bind, Except.pure] at failed
    split at failed
    · rename_i departed
      obtain rfl := Except.error.inj failed
      have departs := departHere_error (m := ⟨_, m.focus, m.pending⟩) copied departed
      exact departs
    · simp at failed

/-- A call is not made where the thread cannot leave its domain, or the frame has no room. -/
theorem Takes.error (takes : Takes m.toState call) (inside : m.toState.Inside)
    (failed : call m = .error b) :
    (m.thread.Cut ∨ ∃ c args, call m = m.invoke c args ∧ (m.newFrame c args).Vast) ∧
      ¬ b.OfDomains := by
  obtain ⟨course, went⟩ := takes.course rfl
  rw [failed] at went
  cases course with
  | raise | answer => simp [take] at went
  | invoke c args =>
    obtain ⟨vast, plain⟩ := invoke_error went
    exact ⟨.inr ⟨c, args, failed.trans went.symm, vast⟩, plain⟩
  | visit => exact (visit_error inside went).imp_left .inl

theorem unwind_error (failed : m.unwind mark next = .error b) : ¬ b.OfDomains := by
  unfold unwind at failed
  dsimp only at failed
  split at failed
  · simp at failed
  · obtain rfl := error.inj failed
    exact id

theorem stepCode_error (rests : m.Rests P w0 origin) (focus : m.focus = .code f instrs pc)
    (failed : m.stepCode f instrs pc = .error b) :
    (∃ r target s, instruction f instrs pc m.toState = .ok (.call r target) s ∧
      (s.thread.Cut ∨ ∃ c args,
        let m0 : Machine := ⟨s, m.focus, .store f instrs (pc + 1) target :: m.pending⟩
        m0.request r = m0.invoke c args ∧ (m0.newFrame c args).Vast)) ∧ ¬ b.OfDomains := by
  obtain ⟨regular, bearing⟩ := rests
  rw [focus] at bearing
  obtain ⟨level, -, below, frames, top, running⟩ := bearing
  obtain ⟨inside, _, stacked, -⟩ := id level
  rw [top] at stacked
  obtain ⟨-, above, lies⟩ := stacked.frame_above running
  obtain ⟨effect, s, ran, went⟩ := after_error_of_faults
    (instruction_secure ⟨_, lies⟩ instrs pc m.toState lies) failed
  have mild := instruction_moves above instrs pc m.toState (inside.ready regular level.rises.size)
  rw [ran] at mild
  have insideNext : s.Inside := inside.mild mild
  split at went
  · simp at went
  · simp at went
  · obtain ⟨reason, plain⟩ := (request_takes s _).error (m := ⟨s, _, _⟩) insideNext went
    exact ⟨⟨_, _, s, ran, reason⟩, plain⟩

theorem stepNative_error (inside : m.toState.Inside)
    (failed : m.stepNative body = .error b) : ¬ b.OfDomains := by
  cases body with
  | done | raise => simp [stepNative] at failed
  | act c next =>
    unfold stepNative at failed
    dsimp only at failed
    split at failed
    case h_2 => simp at failed
    rename_i frame _ _
    by_cases quiet : c.Quiet
    · obtain ⟨act, answered, same⟩ := stepCommand_of_quiet m frame next quiet
      rw [same] at failed
      rcases after_error (reply_plain answered) failed with plain | ⟨_, _, -, went⟩
      · exact plain
      · simp at went
    cases c with
    | call r =>
      exact ((request_takes m.toState r).error (m := { m with pending := .resume next :: m.pending })
        inside failed).2
    | tryCall target name args =>
      exact ((callOther_takes m.toState name args target).error
        (m := { m with pending := .attempt m.thread.savePoint next :: m.pending }) inside failed).2
    | restore mark => exact unwind_error failed
    | _ => exact (quiet trivial).elim

theorem departBack_error (regular : m.toState.Regular P w0 origin)
    (level : m.toState.Level origin (.crossing :: m.pending))
    (failed : m.departBack v = .error b) : ¬ b.OfDomains := by
  obtain ⟨inside, _, stacked, -⟩ := level
  obtain ⟨c, low, below, -, same⟩ := stacked.of_crossing
  have domains : m.thread.domains = c :: low.domains := congrArg Stacks.domains same
  have more : low.domains ≠ [] := below.rises.nonempty regular.upon.nonempty
  have left := onHeap_left (Heap.copyValue m.thread.transfer v) m.toState
  have copied := inside.onHeap (Heap.copyValue m.thread.transfer v)
  unfold departBack at failed
  split at failed
  · rename_i short
    have some := List.length_pos_iff_ne_nil.mpr more
    simp only [domains, List.length_cons] at short
    omega
  rcases after_error (onHeap_plain _) failed with plain | ⟨moved, s, ran, went⟩
  · exact plain
  · rw [ran, left_ok] at left copied
    subst left
    obtain ⟨world, gone, -⟩ := (copied.seats domains).leave more
    have current : m.thread.current = c := by simp [Thread.current, domains]
    simp [pure, bind, Except.bind, Except.pure, current, gone] at went

theorem stepResult_error (rests : m.Rests P w0 origin) (focus : m.focus = .result v)
    (failed : m.stepResult v = .error b) : ¬ b.OfDomains := by
  obtain ⟨regular, bearing⟩ := rests
  rw [focus] at bearing
  have level : m.toState.Level origin m.pending := bearing
  unfold stepResult at failed
  split at failed
  · simp at failed
  · simp at failed
  · rename_i pending waits
    rw [waits] at level
    obtain ⟨-, _, stacked, -⟩ := level
    obtain ⟨-, lies, -⟩ := stacked.of_store
    obtain ⟨_, _, -, went⟩ := after_error_of_faults (m := { m with pending })
      (write_secure ⟨_, lies⟩ _ v m.toState lies) failed
    simp at went
  · simp at failed
  · simp at failed
  · rename_i pending waits
    rw [waits] at level
    exact departBack_error (m := { m with pending }) regular level failed
  · rcases after_error (onHeap_plain _) failed with plain | ⟨_, _, -, went⟩
    · exact plain
    · simp at went
  · simp at failed

theorem stepFault_error {f : Fault} (failed : m.stepFault f = .error b) : ¬ b.OfDomains := by
  unfold stepFault at failed
  split at failed
  · simp at failed
  · simp at failed
  · simp at failed
  · simp at failed
  · simp at failed
  · exact unwind_error failed
  · exact unwind_error failed
  · simp at failed

theorem stepUnwind_error (inside : m.toState.Inside)
    (failed : m.stepUnwind mark next = .error b) : ¬ b.OfDomains := by
  obtain ⟨below, domains⟩ := inside.cons
  have gone := (inside.seats domains).1.leave
  unfold stepUnwind at failed
  split at failed
  · simp [pure, bind, Except.bind, Except.pure, gone] at failed
  · simp at failed

theorem arrive_error (between : m.toState.Between) (valid : domain < m.world.domains.size)
    (inside : (m.entered domain).Inside)
    (failed : m.arrive domain target args errand = .error b) : ¬ b.OfDomains := by
  obtain ⟨world, gone, -⟩ := between.turnBack valid
  unfold arrive at failed
  dsimp only at failed
  split at failed
  · simp [pure, bind, Except.bind, Except.pure, gone] at failed
  · split at failed
    · simp at failed
    · exact ((callObject_takes (m.entered domain) _ args _).error
        (m := ⟨m.entered domain, m.focus, .crossing :: m.pending⟩) inside failed).2

theorem broken_eq (broken : Progress.ofExcept r = .broken b) : r = .error b := by
  cases r with
  | ok n => simp [Progress.ofExcept] at broken
  | error _ => rw [Progress.broken.inj broken]

theorem whenFree_broken (between : m.toState.Between)
    (broken : m.whenFree domain mine enter = .broken b) :
    (m.world.domain domain).holder = none ∧ enter = .error b := by
  unfold whenFree at broken
  split at broken
  · exact ⟨‹_›, broken_eq broken⟩
  · rename_i key holder
    split at broken
    · rename_i same
      have none := (between.held domain).mp (same ▸ holder)
      simp at none
    · simp at broken

theorem Rests.broken (rests : m.Rests P w0 origin) (broken : m.step = .broken b) :
    ¬ b.OfDomains := by
  obtain ⟨regular, bearing⟩ := id rests
  unfold Machine.step at broken
  obtain ⟨s, focus, pending⟩ := m
  cases focus with
  | code f instrs pc => exact (stepCode_error rests rfl (broken_eq broken)).2
  | native body =>
    have inside : s.Inside :=
      bearing.elim (fun running => running.2.1.inside) fun lost => lost.2.inside
    exact stepNative_error inside (broken_eq broken)
  | result v => exact stepResult_error rests rfl (broken_eq broken)
  | fault f => exact stepFault_error (broken_eq broken)
  | visiting domain target args errand =>
    obtain ⟨abroad, valid, room, -⟩ := bearing
    obtain ⟨free, failed⟩ := whenFree_broken abroad.between broken
    obtain ⟨-, inside, -⟩ := entered_regular regular abroad.between valid room free
    exact arrive_error abroad.between valid inside failed
  | rollingBack next =>
    have impossible := (whenFree_broken bearing.1.between broken).2
    simp at impossible
  | returning v =>
    have bearing : s.Abroad origin pending := bearing
    have impossible := (whenFree_broken bearing.between broken).2
    simp at impossible
  | unwinding mark next => exact stepUnwind_error bearing.1 (broken_eq broken)
  | reentering mark next =>
    have impossible := (whenFree_broken bearing.1 broken).2
    simp at impossible
  | done outcome => simp at broken

end Machine

/-! ### Hosts -/

namespace State

variable {P : Function → Prop} {s : State} {b : Breach}

/-- What a host has a thread do, and the thread does not even begin. -/
inductive Refuses (s : State) (b : Breach) : Prop where
  | call {target : ObjectId} {name : String} {args : List Value}
      (called : s.call target name args = .error b)
  | request {r : Request} (requested : s.request r = .error b)
  | callObject {object : ObjectKey} {name : String} {args : List Value}
      (called : s.callObject object name args = .error b)
  | visit {target : ObjectId} {args : List Value} (visited : s.visit target args = .error b)
  | restore {mark : Mark} (restored : s.restore mark = .error b)

theorem Resting.refuses (resting : s.Resting P) (refuses : s.Refuses b) : ¬ b.OfDomains := by
  have inside := resting.inside
  cases refuses with
  | @call target name args called =>
    rcases after_error (m := s.idle [.host s.thread.savePoint]) (inDomain_plain _) called with
      plain | ⟨copies, s', ran, went⟩
    · exact plain
    · have copied := inside.onHeap (Heap.copyAll s.owner args)
      change onHeap (Heap.copyAll s.owner args) s = _ at ran
      rw [ran] at copied
      exact ((callOther_takes s' _ _ _).error (m := ⟨s', _, _⟩) copied went).2
  | request requested =>
    exact ((request_takes s _).error (m := s.idle [.bare]) inside requested).2
  | callObject called =>
    exact ((callObject_takes s _ _ _).error (m := s.idle [.bare]) inside called).2
  | visit visited => exact (visit_error (m := s.idle [.bare]) inside visited).2
  | restore restored => exact unwind_error restored

end State

end Tenancy
