import Tenancy.Proofs.Occupancy

/-!
Calls that leave no trace on the thread.

A call of the host may visit any number of domains, and fail in any of them, on the way there or on
the way back. While it runs, the other threads of the system go on, and hosts change the world. When
it is over the thread is as it was: its stacks are the same, nothing is on its way, and it holds and
has parked what it held and had parked before.
-/

namespace Tenancy

namespace System

variable {P : Function → Prop} {σ σ' : System} {key : ThreadKey} {origin : Footing}

/-- A call by a thread of the system, from its beginning to its end. -/
inductive Calls (P : Function → Prop) (key : ThreadKey) (target : ObjectId) (name : String)
    (args : List Value) (outcome : Outcome) (σ : System) : System → Prop where
  | intro {t t' : Thread} {m : Machine} {σ1 : System} {focus : Focus} {pending : List Pending}
      {s : State} (idle : σ.tasks key = some (.idle t))
      (called : State.call ⟨σ.world, t⟩ target name args = .ok m)
      (during : During P key (σ.place key (.running m)) σ1)
      (runs : σ1.tasks key = some (.running t' focus pending))
      (finished : Machine.step ⟨⟨σ1.world, t'⟩, focus, pending⟩ = .done outcome s) :
      Calls P key target name args outcome σ (σ1.place key (.idle s))

def RestsOn (P : Function → Prop) (key : ThreadKey) (origin : Footing) (σ : System) : Prop :=
  ∃ t focus pending, σ.tasks key = some (.running t focus pending) ∧
    Machine.Rests P σ.world origin ⟨⟨σ.world, t⟩, focus, pending⟩

section

variable (lawful : ∀ f, P f → f.Honest) (orderly : σ.Orderly P) (rests : σ.RestsOn P key origin)
include lawful orderly rests

theorem RestsOn.moves (moves : σ.Moves P σ') (busy : σ'.Busy key) : σ'.RestsOn P key origin := by
  obtain ⟨t, focus, pending, among, rests⟩ := rests
  obtain ⟨t', focus', pending', among'⟩ := busy
  refine ⟨t', focus', pending', among', ?_⟩
  rcases orderly.run_moves moves among among' with stepped | expired | ⟨⟨rfl, rfl, rfl⟩, spares⟩
  · exact (rests.step lawful stepped).anew
  · exact (rests.expire expired).anew
  · exact rests.spared spares (orderly.moves moves).sound

theorem RestsOn.during (during : During P key σ σ') : σ'.Orderly P ∧ σ'.RestsOn P key origin := by
  induction during with
  | refl => exact ⟨orderly, rests⟩
  | tail _ moves ih =>
    obtain ⟨orderly, rests⟩ := ih
    exact ⟨orderly.moves moves.1, rests.moves lawful orderly moves.1 moves.2⟩

end

end System

namespace State

variable {s origin : State}

theorem Inside.windowsUnder_eq (inside : s.Inside) (k : DomainKey) :
    s.windowsUnder (s.thread.domains.length - 1) k = s.world.windowsOf s.thread.key k := by
  refine List.filter_eq_self.mpr fun p parked => ?_
  have below := inside.top.2.depth_lt parked
  rw [List.length_tail] at below
  exact decide_eq_true below

theorem Upon.windowsOf_eq (upon : s.Upon origin) (same : s.thread = origin.thread) (inside : s.Inside)
    (before : origin.Inside) (k : DomainKey) :
    s.world.windowsOf s.thread.key k = origin.world.windowsOf origin.thread.key k := by
  have windows := upon.windows k
  rw [before.windowsUnder_eq, ← same, inside.windowsUnder_eq] at windows
  rw [windows, same]

end State

namespace System

variable {σ σ' : System} {key : ThreadKey} {t : Thread} {target : ObjectId} {name : String}
  {args : List Value} {outcome : Outcome}

/-- A call that ends, well or with a fault, leaves the thread as it was. -/
theorem call_leaves_thread_as_it_was (reachable : σ.Reachable Function.Honest)
    (idle : σ.tasks key = some (.idle t)) (clear : State.Clear ⟨σ.world, t⟩)
    (calls : σ.Calls Function.Honest key target name args outcome σ') :
    σ'.tasks key = some (.idle t) ∧ State.Clear ⟨σ'.world, t⟩ ∧
    σ.world.HeldBy key (some t.current.domain) ∧ σ'.world.HeldBy key (some t.current.domain) ∧
    ∀ k, σ'.world.windowsOf key k = σ.world.windowsOf key k := by
  have orderly := reachable.orderly
  obtain ⟨idle', called, during, runs, finished⟩ := calls
  obtain rfl := Task.idle.inj (Option.some.inj (idle.symm.trans idle'))
  obtain rfl : t.key = key := orderly.key _ _ idle
  have resting : State.Resting Function.Honest ⟨σ.world, t⟩ := orderly.phase _ _ idle
  have begun : (σ.place t.key (.running _)).Orderly Function.Honest :=
    orderly.go idle (.begin (.call called))
  have rests : (σ.place t.key (.running _)).RestsOn Function.Honest t.key ⟨⟨σ.world, t⟩, true⟩ :=
    ⟨_, _, _, tasks_place σ t.key _, (resting.call (fun _ => id) called).anew⟩
  obtain ⟨-, t', focus', pending', runs', restsAtEnd⟩ := rests.during (fun _ => id) begun during
  obtain ⟨rfl, rfl, rfl⟩ := Task.running.inj (Option.some.inj (runs.symm.trans runs'))
  obtain ⟨done, rfl⟩ := Machine.step_done_iff.mp finished
  have bearing := restsAtEnd.bearing
  rw [done] at bearing
  obtain ⟨inside, atHost⟩ := bearing
  obtain ⟨height, cleared⟩ := atHost rfl
  have upon := restsAtEnd.regular.upon
  have same := upon.thread_eq height
  have windows := upon.windowsOf_eq same inside resting.inside
  subst same
  exact ⟨tasks_place _ _ _, cleared clear, resting.inside.top.1, inside.top.1, windows⟩

end System

/-- A stadium where a thread may not be in more than three domains. -/
def cramped : World := { stadium with settings := { stadium.settings with domainDepth := 3 } }

theorem cramped_honest : cramped.Blank Function.Honest :=
  { stadium_honest with domainIds := rfl, objectIds := rfl }

def Machine.failure? (m : Machine) : Option Fault :=
  match m.focus with
  | .done (.failed f _) => some f
  | _ => none

theorem Machine.failure?_eq_some {m : Machine} (failed : m.failure? = some f) :
    ∃ trace, m.focus = .done (.failed f trace) := by
  unfold failure? at failed
  split at failed
  · rename_i trace focus
    cases failed
    exact ⟨trace, focus⟩
  · simp at failed

/-- The race is called off. -/
def calledOff? : Option (State × Machine × Machine) := stride? (raceIn cramped) State.startRace 19

/-- The second runner may not go back to the domain of the first one: the thread unwinds from three
domains and is as it was. -/
theorem System.race_leaves_thread_as_it_was : ∃ (σ σ' : System) (key : ThreadKey) (t : Thread)
    (target : ObjectId) (args : List Value) (trace : Trace),
    σ.Reachable Function.Honest ∧ σ.tasks key = some (.idle t) ∧ State.Clear ⟨σ.world, t⟩ ∧
    σ.Calls Function.Honest key target "start" args (.failed (.domainStackOverflow 3) trace) σ' ∧
    σ'.tasks key = some (.idle t) ∧ State.Clear ⟨σ'.world, t⟩ ∧
    σ.world.HeldBy key (some t.current.domain) ∧ σ'.world.HeldBy key (some t.current.domain) ∧
    ∀ k, σ'.world.windowsOf key k = σ.world.windowsOf key k := by
  have ran : calledOff?.any (fun off => off.2.2.failure? = some (.domainStackOverflow 3) ∧
      (off.1.world.heap.members off.1.thread.transfer).isEmpty = true) = true := by decide +kernel
  obtain ⟨⟨s, last, m⟩, off, passed⟩ := (Option.any_eq_true _ _).mp ran
  obtain ⟨failed, empty⟩ := of_decide_eq_true passed
  obtain ⟨trace, focus⟩ := Machine.failure?_eq_some failed
  obtain ⟨ready, ⟨first, called, ran⟩, stepped⟩ := stride?_eq_some off
  have reachable := raceIn_reachable cramped_honest ready
  have idle := tasks_place ⟨cramped, fun _ => none⟩ s.thread.key (.idle s)
  have clear : State.Clear s := List.isEmpty_iff.mp empty
  have calls : (System.place ⟨cramped, fun _ => none⟩ s.thread.key (.idle s)).Calls Function.Honest
      s.thread.key _ "start" _ (.failed (.domainStackOverflow 3) trace) _ :=
    .intro idle called ((During.run ran).tail ⟨.place (.step stepped), busy_place _ _ m⟩)
      (tasks_place _ _ (.running m)) (Machine.step_done_iff.mpr ⟨focus, rfl⟩)
  exact ⟨_, _, s.thread.key, s.thread, _, _, trace, reachable, idle, clear, calls,
    call_leaves_thread_as_it_was reachable idle clear calls⟩

end Tenancy
