import Tenancy.Proofs.Machine.Crossing
import Tenancy.Proofs.Machine.Shape

/-!
Machines in lockstep: steps, calls of the host and whole runs.

Two machines that go together take the same steps, so they finish, block or break after the same
number of steps and with the same outcome. What the host is given is outside the domains, as long as
all that it could reach before was.
-/

namespace Tenancy

open Tenancy.Action Coupling

structure State.Pair (S T : ListId) (G : Nat → Prop) (s1 s2 : State) : Prop where
  twin : State.Twin S T G s1.thread.domains s1 s2
  crewed : s1.Crewed [.host ⟨0, 0, 1⟩]
  idle : s1.Idle Function.Tame

namespace Machine

variable {S T : ListId} {G : Nat → Prop} {contexts : List DomainContext} {m m1 m2 : Machine}

/-- How the next steps of two machines compare. -/
inductive Marches (S T : ListId) (G : Nat → Prop) (m1 m2 : Machine) : Progress → Progress → Prop where
  | next {n1 n2 : Machine} (follows : Follows S T G m1.world.heap (.ok n1) (.ok n2)) :
      Marches S T G m1 m2 (.next n1) (.next n2)
  | done (outcome : Outcome) (focus : m1.focus = .done outcome) :
      Marches S T G m1 m2 (.done outcome m1.toState) (.done outcome m2.toState)
  | blocked : Marches S T G m1 m2 (.blocked m1) (.blocked m2)
  | broken (b : Breach) : Marches S T G m1 m2 (.broken b) (.broken b)

theorem Follows.marches (follows : Follows S T G m1.world.heap r1 r2) :
    Marches S T G m1 m2 (.ofExcept r1) (.ofExcept r2) := by
  cases follows with
  | ok passage hands twin => exact .next (.ok passage hands twin)
  | error b => exact .broken b

theorem whenFree_marches (twin : State.Twin S T G contexts m1.toState m2.toState)
    (mine : Follows S T G m1.world.heap mine1 mine2)
    (enter : Follows S T G m1.world.heap enter1 enter2) :
    Marches S T G m1 m2 (m1.whenFree domain mine1 enter1) (m2.whenFree domain mine2 enter2) := by
  unfold whenFree
  rw [twin.alike.holder, twin.thread]
  cases (m1.world.domain domain).holder with
  | none => exact enter.marches
  | some key =>
    dsimp only
    split
    · exact mine.marches
    · exact .blocked

theorem step_marches (twin : Twin S T G contexts m1 m2)
    (shaped : m1.Shaped P) : Marches S T G m1 m2 m1.step m2.step := by
  obtain ⟨state, same, pending, stance⟩ := twin
  have reentered : Follows S T G m1.world.heap
      (.error (.reentered (m1.world.domain m1.thread.current.domain).id))
      (.error (.reentered (m2.world.domain m1.thread.current.domain).id)) := by
    rw [state.alike.id]
    exact .error _
  unfold step
  rw [same, state.thread]
  cases focus : m1.focus with
  | code f instrs pc =>
    rw [focus] at stance
    obtain ⟨rfl, crewed, below, frames, top, running⟩ := stance
    exact (stepCode_follows ⟨state, pending, crewed⟩ top running instrs pc).marches
  | native body =>
    rw [focus] at stance
    obtain ⟨rfl, crewed, ⟨base, below, top⟩, known, tame, fits⟩ := stance
    exact (stepNative_follows ⟨state, pending, crewed⟩ top tame fits).marches
  | result v =>
    rw [focus] at stance
    obtain ⟨rfl, crewed, fits⟩ := stance
    refine (stepResult_follows ⟨state, pending, crewed⟩ (shaped.here (by rw [focus]; exact id)) ?_ fits
      focus (same.trans focus)).marches
    intro base below waits
    have posture := shaped.posture
    rw [focus, waits] at posture
    exact (ended_settled posture).here
  | fault f =>
    rw [focus] at stance
    obtain ⟨rfl, waits, dropped, crewed⟩ := stance
    exact (stepFault_follows state pending waits crewed focus (same.trans focus)).marches
  | visiting domain target args errand =>
    have away := shaped.away (by rw [focus]; trivial) (by rw [focus]; rfl)
    rw [focus] at stance
    obtain ⟨rfl, crewed, ⟨name, rfl⟩, valid, suits⟩ := stance
    have id := state.alike.id domain
    dsimp only
    rw [id]
    exact whenFree_marches state (.ok (.refl S G _) nofun
      ⟨state, rfl, pending, rfl, crewed, .inr ⟨_, rfl⟩⟩)
      (arrive_follows ⟨state, pending, crewed⟩ away valid target suits name)
  | rollingBack next =>
    have away := shaped.away (by rw [focus]; trivial) (by rw [focus]; rfl)
    rw [focus] at stance
    obtain ⟨rfl, crewed, goesOn⟩ := stance
    exact whenFree_marches state reentered (rolledBack_follows ⟨state, pending, crewed⟩ away goesOn)
  | returning v =>
    have away := shaped.away (by rw [focus]; trivial) (by rw [focus]; rfl)
    rw [focus] at stance
    obtain ⟨rfl, crewed, suits⟩ := stance
    exact whenFree_marches state reentered (returned_follows ⟨state, pending, crewed⟩ away suits)
  | unwinding mark next =>
    have here := shaped.here (by rw [focus]; exact id)
    rw [focus] at stance
    obtain ⟨within, ⟨before, staffed⟩, rfl, waits, f, trace, rfl⟩ := stance
    exact (stepUnwind_follows state pending here within staffed waits).marches
  | reentering mark next =>
    rw [focus] at stance
    obtain ⟨within, ⟨before, staffed⟩, rfl, waits, f, trace, rfl⟩ := stance
    exact whenFree_marches state reentered (.ok (.refl S G _) nofun ⟨comeBack_twin state, rfl, pending,
      within, ⟨before, staffed.mono fun _ _ runs => runs.firm (firm_comeBack m1)⟩, rfl, waits, f,
      trace, rfl⟩)
  | done outcome => exact .done outcome focus

theorem expire_follows (twin : Twin S T G contexts m1 m2) :
    m1.expire? = none ∧ m2.expire? = none ∨ ∃ n1 n2, m1.expire? = some n1 ∧ m2.expire? = some n2 ∧
      Follows S T G m1.world.heap (.ok n1) (.ok n2) := by
  obtain ⟨state, same, pending, stance⟩ := twin
  unfold expire?
  rw [same, state.alike.enterTimeout]
  cases focus : m1.focus with
  | visiting domain target args errand =>
    rw [focus] at stance
    obtain ⟨rfl, crewed, -, -, -⟩ := stance
    cases m1.world.settings.enterTimeout with
    | none => exact .inl ⟨rfl, rfl⟩
    | some limit =>
      have id := state.alike.id domain
      refine .inr ⟨_, _, rfl, rfl, ?_⟩
      rw [id]
      exact .ok (.refl S G _) nofun ⟨state, rfl, pending, rfl, crewed, .inr ⟨_, rfl⟩⟩
  | _ => exact .inl ⟨rfl, rfl⟩

theorem savePoint_eq {s : State} (crewed : s.Crewed [.host ⟨0, 0, 1⟩]) :
    s.thread.savePoint = ⟨0, 0, 1⟩ := by
  unfold State.Crewed at crewed
  unfold Thread.savePoint
  generalize s.thread.frames = frames at crewed
  generalize s.thread.domains = domains at crewed
  cases crewed with
  | host _ empty => rw [empty]; rfl

theorem call_follows {s1 s2 : State} (pair : s1.Pair S T G s2) (target : ObjectId) (name : String)
    (admits : ∀ v ∈ args, s1.world.heap.Clean v ∧ v.Avoids G) :
    Follows S T G s1.world.heap (s1.call target name args) (s2.call target name args) := by
  have twin := pair.twin
  have valid : s1.thread.current.domain < s1.world.domains.size := pair.idle.here.valid
  have owner : s2.owner = s1.owner := by
    unfold State.owner
    rw [twin.thread, twin.alike.values]
  have copied : (State.coupling S T G s1.thread.domains).Couples s1 s2
      (fun copies s => ∀ c ∈ copies, s.world.heap.Suits G s1.owner c)
      (Exec.inDomain fun owner => Heap.copyAll owner args)
      (Exec.inDomain fun owner => Heap.copyAll owner args) := by
    unfold Couples
    rw [Exec.inDomain_apply, Exec.inDomain_apply, owner]
    exact Exec.onHeap_couples twin
      (Heap.copyAll_couples twin.heap (twin.stocked.lists _ valid) admits)
  have ready : Ready S T G (s1.idle [.host ⟨0, 0, 1⟩]) (s2.idle [.host ⟨0, 0, 1⟩]) :=
    ⟨twin, rfl, pair.crewed⟩
  unfold State.call
  rw [twin.thread, savePoint_eq pair.crewed]
  refine after_follows ready copied ?_
  intro copies t1 t2 stays suits ready
  have current : t1.thread.current = s1.thread.current := by
    rw [stays.thread]
    rfl
  refine callOther_follows ready ?_ (fun v listed => ?_) target name
  · show t1.thread.current.domain < t1.world.domains.size
    rw [current, stays.firm.domains]
    exact valid
  · show t1.world.heap.Suits G (t1.world.domain t1.thread.current.domain).values v
    rw [current, stays.firm.values]
    exact suits v listed

/-- How the runs of two machines end that have come from a heap. -/
inductive Concludes (S T : ListId) (G : Nat → Prop) (h : Heap) : RunResult → RunResult → Prop where
  | finished {s1 s2 : State} {G' : Nat → Prop} (outcome : Outcome)
      (passage : Heap.Passage S G h G' s1.world.heap)
      (hands : ∀ v, outcome = .returned v → h.Sealed S G → s1.world.heap.Outside S v ∧ v.Avoids G')
      (pair : s1.Pair S T G' s2) : Concludes S T G h (.finished outcome s1) (.finished outcome s2)
  | blocked {n1 n2 : Machine} {G' : Nat → Prop} {contexts : List DomainContext}
      (passage : Heap.Passage S G h G' n1.world.heap) (twin : Twin S T G' contexts n1 n2) :
      Concludes S T G h (.blocked n1) (.blocked n2)
  | broken (b : Breach) : Concludes S T G h (.broken b) (.broken b)
  | exhausted {n1 n2 : Machine} {G' : Nat → Prop} {contexts : List DomainContext}
      (passage : Heap.Passage S G h G' n1.world.heap) (twin : Twin S T G' contexts n1 n2) :
      Concludes S T G h (.exhausted n1) (.exhausted n2)

theorem Twin.pair (twin : Twin S T G contexts m1 m2) (shaped : m1.Shaped Function.Tame)
    (focus : m1.focus = .done outcome) : m1.toState.Pair S T G m2.toState := by
  have idle := shaped.finish (step_done_iff.mpr ⟨focus, rfl⟩)
  have stance := twin.stance
  rw [focus] at stance
  obtain ⟨rfl, crewed, mark, waits⟩ := stance
  rw [waits] at crewed
  refine ⟨twin.state, ?_, idle⟩
  rcases crewed.suffix List.suffix_rfl with ⟨same, -⟩ | ⟨more, -⟩
  · exact same ▸ crewed
  · simp at more

theorem run_concludes (patient : Bool) (fuel : Nat) (passage : Heap.Passage S G0 h G m1.world.heap)
    (hands : Hands S G0 h G m1) (twin : Twin S T G contexts m1 m2)
    (shaped : m1.Shaped Function.Tame) :
    Concludes S T G0 h (m1.run patient fuel) (m2.run patient fuel) := by
  have lawful : ∀ f : Function, f.Tame → f.Disciplined := fun _ => Function.Tame.disciplined
  induction fuel generalizing m1 m2 G contexts with
  | zero => exact .exhausted passage twin
  | succ fuel ih =>
    have marches := step_marches twin shaped
    unfold run
    generalize first : m1.step = r1 at marches
    generalize second : m2.step = r2 at marches
    cases marches with
    | @next n1 n2 follows =>
      cases follows with
      | ok later given twin =>
        exact ih (passage.trans later)
          (fun v returned closed => given v returned (passage.sealed closed)) twin
          (shaped.step lawful first)
    | done outcome focus =>
      exact .finished outcome passage (fun v same => hands v (same ▸ focus)) (twin.pair shaped focus)
    | broken b => exact .broken b
    | blocked =>
      rcases expire_follows twin with ⟨none, noneToo⟩ | ⟨n1, n2, expired, expiredToo, follows⟩
      · dsimp only
        rw [none, noneToo]
        cases patient <;> exact .blocked passage twin
      · dsimp only
        rw [expired, expiredToo]
        cases patient with
        | true => exact .blocked passage twin
        | false =>
          cases follows with
          | ok later given twin =>
            exact ih (passage.trans later)
              (fun v returned closed => given v returned (passage.sealed closed)) twin
              (shaped.expire expired)

theorem call_concludes {s1 s2 : State} (pair : s1.Pair S T G s2) (patient : Bool) (fuel : Nat)
    (target : ObjectId) (name : String) (admits : ∀ v ∈ args, s1.world.heap.Clean v ∧ v.Avoids G) :
    Concludes S T G s1.world.heap (runFrom patient fuel (s1.call target name args))
      (runFrom patient fuel (s2.call target name args)) := by
  have follows := call_follows pair target name admits
  generalize called : s1.call target name args = r1 at follows
  generalize s2.call target name args = r2 at follows
  cases follows with
  | ok passage hands twin =>
    exact run_concludes patient fuel passage hands twin
      (call_shaped (fun _ => Function.Tame.disciplined) pair.idle called)
  | error b => exact .broken b

end Machine

end Tenancy
