import Tenancy.Proofs.Safepoint

/-!
Who is in which domain.

In every state of a system, whatever its threads have been through, a thread is in the domain of its
top context and nowhere else, and has one window parked for each context below. Only on its way from
one domain to the next is it nowhere. So no thread enters a domain while it is in one, no thread
leaves a domain that it is not in, and none goes back out of its home.
-/

namespace Tenancy

open Tenancy.Action Machine Exec

theorem State.Inside.top {s : State} (inside : s.Inside) :
    s.world.HeldBy s.thread.key (some s.thread.current.domain) ∧
      s.world.Parks s.thread.key s.thread.domains.tail := by
  obtain ⟨below, domains⟩ := inside.cons
  rw [domains]
  exact inside.seats domains

namespace Phase

variable {P : Function → Prop} {phase phase' : Phase} {b : Breach}

def Enters : Phase → Prop
  | .idle _ => False
  | .running m => m.focus.Enters

/-- What a thread does next runs into a breach. -/
def Breaks : Phase → Breach → Prop
  | .idle s, b => s.Refuses b
  | .running m, b => m.step = .broken b

section

variable (orderly : phase.Orderly P)
include orderly

theorem Orderly.regular : ∃ w0 origin, phase.state.Regular P w0 origin := by
  cases phase with
  | idle => exact ⟨_, _, orderly.regular⟩
  | running => exact ⟨_, _, orderly.1.regular⟩

theorem Orderly.inside (stays : ¬ phase.Enters) : phase.state.Inside := by
  cases phase with
  | idle => exact State.Resting.inside orderly
  | running => exact orderly.1.inside.resolve_left stays

theorem Orderly.between (enters : phase.Enters) : phase.state.Between := by
  cases phase with
  | idle => exact enters.elim
  | running => exact orderly.1.between enters

theorem Orderly.breaks (lawful : ∀ f, P f → f.Honest) (breaks : phase.Breaks b) : ¬ b.OfDomains := by
  cases phase with
  | idle => exact State.Resting.refuses orderly breaks
  | running =>
    obtain ⟨_, rests⟩ := orderly.2 lawful
    exact rests.broken breaks

theorem Orderly.remains (stays : ¬ phase.Enters) (goes : phase.Goes phase') :
    phase'.Enters ∨ phase'.state.thread.domains = phase.state.thread.domains := by
  cases goes with
  | begin begins => exact (State.Resting.ventures orderly begins).remains
  | step stepped => exact (orderly.1.ventures stays stepped).remains
  | @expire m m' expired =>
    obtain ⟨⟨_, _, _, _, focus⟩, -⟩ := expire?_cases expired
    exact (stays (by rw [Enters, focus]; trivial)).elim
  | finish finished =>
    obtain ⟨-, rfl⟩ := step_done_iff.mp finished
    exact .inr rfl

end

theorem Orderly.takes (orderly : phase.Orderly P) (goes : phase.Goes phase')
    (taken : (phase'.state.world.domain k).holder = some phase.state.thread.key) :
    (phase.state.world.domain k).holder = some phase.state.thread.key ∨
      phase.state.world.HeldBy phase.state.thread.key none := by
  by_cases enters : phase.Enters
  · exact .inr (orderly.between enters).held
  obtain ⟨orderly', -, alike⟩ := orderly.goes goes
  have key : phase'.state.thread.key = phase.state.thread.key := by rw [alike]
  rw [← key] at taken
  by_cases enters' : phase'.Enters
  · -- A thread on its way holds nothing.
    exact absurd (((orderly'.between enters').held k).mp taken) (by simp)
  have domains := (orderly.remains enters goes).resolve_left enters'
  have current : phase'.state.thread.current = phase.state.thread.current := by
    have home : phase'.state.thread.home = phase.state.thread.home := by rw [alike]
    rw [Thread.current, Thread.current, domains, home]
  have here := ((orderly'.inside enters').top.1 k).mp taken
  rw [current] at here
  exact .inl (((orderly.inside enters).top.1 k).mpr here)

end Phase

namespace System

variable {σ : System} {key : ThreadKey} {task : Task}

/-- How a thread of a system lies across the domains. -/
structure Occupies (σ : System) (key : ThreadKey) (task : Task) : Prop where
  /-- In a domain it holds that of its top context and no other, and for each context below a window
  is parked. -/
  inside : ¬ (task.phase σ.world).Enters → σ.world.HeldBy key (some task.thread.current.domain) ∧
    σ.world.Parks key task.thread.domains.tail
  /-- About to enter a domain it holds none, and for each context a window is parked. -/
  between : (task.phase σ.world).Enters → σ.world.HeldBy key none ∧
    σ.world.Parks key task.thread.domains
  nonempty : task.thread.domains ≠ []
  frames : task.thread.frames.length ≤ σ.world.settings.callDepth
  domains : task.thread.domains.length ≤ max 1 σ.world.settings.domainDepth
  /-- What it comes to hold next, it holds already, or else it holds nothing now. -/
  takes : ∀ phase k, (task.phase σ.world).Goes phase → (phase.state.world.domain k).holder = some key →
    (σ.world.domain k).holder = some key ∨ σ.world.HeldBy key none
  /-- It does not enter where it is, nor leave where it is not, nor leave its home. -/
  breaks : ∀ b, (task.phase σ.world).Breaks b → ¬ b.OfDomains

/-- In every state of a system its threads are in the domains of their top contexts. -/
theorem thread_occupies_top_domain (reachable : σ.Reachable Function.Honest)
    (among : σ.tasks key = some task) : σ.Occupies key task := by
  have orderly := reachable.orderly
  obtain rfl := orderly.key key task among
  have phase := orderly.phase _ task among
  obtain ⟨w0, origin, regular⟩ := phase.regular
  have inside := phase.inside
  have between := phase.between
  have nonempty := phase.placed.elim World.Seats.nonempty World.Awaits.nonempty
  rw [Task.state_phase] at regular inside between nonempty
  refine ⟨fun stays => (inside stays).top, fun enters => ⟨(between enters).held, (between enters).parks⟩,
    nonempty, regular.frames, regular.domains, fun next k goes taken => ?_,
    fun b breaks => phase.breaks (fun _ => id) breaks⟩
  have takes := phase.takes (k := k) goes
  rw [Task.state_phase] at takes
  exact takes taken

end System

theorem raceIn_tended (blank : w.Blank Function.Honest) (ready : raceIn w = .ok s) :
    (System.place ⟨w, fun _ => none⟩ s.thread.key (.idle s)).Tended Function.Honest := by
  unfold raceIn at ready
  obtain ⟨thread, world, attached, ready⟩ := Thread.of_attach_bind ready
  cases ready
  have relays : relay.All Function.Honest :=
    relay_disciplined.mono fun _ => Function.Disciplined.honest
  have empty : System.Tended Function.Honest ⟨w, fun _ => none⟩ := ⟨w, blank, .refl⟩
  have begun := empty.moves (.attach attached) (by simp [System.Heeds])
  have first := begun.deed (.createDomain "first") (Heap.list_newList _)
  have second := first.deed (.createDomain "second") (Heap.list_newList _)
  have runner := second.deed (.newObject relays 1) fun _ => rfl
  exact runner.deed (.newObject relays 2) fun _ => rfl

theorem raceIn_reachable (blank : w.Blank Function.Honest) (ready : raceIn w = .ok s) :
    (System.place ⟨w, fun _ => none⟩ s.thread.key (.idle s)).Reachable Function.Honest :=
  (raceIn_tended blank ready).reachable

theorem stadium_honest : stadium.Blank Function.Honest :=
  stadium_blank.mono fun _ => Function.Disciplined.honest

/-- In the last lap the thread is in the domain of the first runner for the second time. -/
theorem System.last_lap_occupies : ∃ (σ : System) (key : ThreadKey) (task : Task),
    σ.Reachable Function.Honest ∧ σ.tasks key = some task ∧
    task.thread.domains.map (·.domain) = [1, 2, 1, 0] ∧ σ.Occupies key task := by
  have ran : lastLap?.any (fun lap => lap.2.1.thread.domains.map (·.domain) = [1, 2, 1, 0]) = true := by
    decide +kernel
  obtain ⟨⟨s, m, m'⟩, lap, passed⟩ := (Option.any_eq_true _ _).mp ran
  obtain ⟨ready, ⟨first, called, ran⟩, -⟩ := stride?_eq_some lap
  have begun := (raceIn_reachable stadium_honest ready).moves (.place (.begin (.call called)))
  have reachable := (System.During.run ran).reachable begun
  have among := System.tasks_place ⟨stadium, fun _ => none⟩ s.thread.key (.running m)
  exact ⟨_, _, _, reachable, among, of_decide_eq_true passed,
    thread_occupies_top_domain reachable among⟩

end Tenancy
