import Tenancy.Proofs.Collection
import Tenancy.Proofs.Machine.Shape

/-!
Collections at safepoints.

When a function returns, the domain that the thread is in is collected if that is due. The thread
may be in that domain more than once: the window on top is a root of the collection, and those
below are parked in the domain. So nothing is freed that a stack slot over the domain, the result or
an object of the domain leads to.
-/

namespace Tenancy

open List Opcode

/-- A host that sets up disciplined functions and is free in all else. -/
def Hosting.disciplined : Hosting where
  Begins := State.Attached Function.Disciplined
  Acts s s' := s.world.Deed Function.Disciplined s'.world ∧ s'.thread = s.thread
  Admits _ _ := True

theorem Session.disciplined {phase : Phase} (session : Session Hosting.disciplined phase) :
    phase.Proper Function.Disciplined := by
  refine session.proper (fun _ => id) (fun _ => State.Attached.idle) fun s s' idle acts => ?_
  obtain ⟨deed, thread⟩ := acts
  have moved := idle.deed deed
  rw [← thread] at moved
  exact moved

/-- Domain contexts, top first, with the stack slots that belong to them. A context has the slots
from its start on, up to the start of the next one. -/
def windowsBelow (stack : Array Value) :
    List DomainContext → Nat → List (DomainContext × List Value)
  | [], _ => []
  | c :: below, stop =>
    (c, (stack.extract c.start stop).toList) :: windowsBelow stack below c.start

def Thread.windows (t : Thread) : List (DomainContext × List Value) :=
  windowsBelow t.stack t.domains t.stack.size

theorem Founded.flatMap_windowsBelow (founded : Founded contexts stop) :
    (windowsBelow stack contexts stop).reverse.flatMap Prod.snd = (stack.extract 0 stop).toList := by
  induction contexts generalizing stop with
  | nil =>
    obtain rfl : stop = 0 := founded
    simp [windowsBelow]
  | cons c below ih =>
    obtain ⟨starts, lower⟩ := founded
    simp only [windowsBelow, reverse_cons, flatMap_append, flatMap_singleton, ih lower]
    rw [← Array.toList_append, Array.extract_append_extract]
    simp [starts]

theorem Anchored.window_parked (anchored : Anchored w key stack contexts stop)
    (listed : (c, values) ∈ windowsBelow stack contexts stop) :
    ∃ p ∈ (w.domain c.domain).parked, p.values = values := by
  induction contexts generalizing stop with
  | nil => simp [windowsBelow] at listed
  | cons top below ih =>
    obtain ⟨-, -, ⟨p, parked, -, -, same⟩, lower⟩ := anchored
    rcases mem_cons.mp listed with isTop | lies
    · obtain ⟨rfl, rfl⟩ := Prod.mk.inj isTop
      exact ⟨p, parked, same⟩
    · exact ih lower lies

/-- Where values are that a collection of a domain at a safepoint has to keep. -/
inductive Thread.Rooted (w : World) (t : Thread) (k : DomainKey) (result : Value) : Value → Prop where
  | slot {c : DomainContext} {values : List Value} {v : Value} : (c, values) ∈ t.windows →
      c.domain = k → v ∈ values → Rooted w t k result v
  | result : Rooted w t k result result
  | member {m : ObjectId × ObjectKey} {v : Value} : m ∈ (w.domain k).members →
      v ∈ (w.object m.2).members → Rooted w t k result v

theorem State.Seated.root_of_rooted {s : State} (seated : s.Seated c below)
    (rooted : s.thread.Rooted s.world s.thread.current.domain result v) :
    s.world.Root s.thread.current.domain (s.thread.window ++ [result]) v := by
  cases rooted with
  | @slot d values _ listed here held =>
    unfold Thread.windows at listed
    rw [seated.domains, windowsBelow] at listed
    rcases mem_cons.mp listed with isTop | lies
    · obtain ⟨rfl, rfl⟩ := Prod.mk.inj isTop
      refine .given (mem_append_left _ ?_)
      rw [Thread.window, seated.current]
      exact held
    · obtain ⟨p, parked, rfl⟩ := seated.anchored.window_parked lies
      exact .parked (here ▸ parked) held
  | result => exact .given (by simp)
  | member listed held => exact .member listed held

namespace Machine

/-- What a function's return with a result does to payloads, when the thread comes to be in the
domain `k` of its top context. -/
structure Spares (m m' : Machine) (k : DomainKey) (v : Value) : Prop where
  /-- What is reached within the domain from a slot of any context over it, from the result or from
  a variable of an object in it has its contents still. -/
  kept : ∀ id, m.world.heap.Reached (m.world.domain k).values (m'.thread.Rooted m.world k v) id →
    m'.world.heap.aspect? id = m.world.heap.aspect? id
  /-- Payloads that do not belong to the domain stay as they are. -/
  untouched : ∀ id, m.world.heap.owner? id ≠ some (m.world.domain k).values →
    m'.world.heap.cells[id]? = m.world.heap.cells[id]?
  /-- The contexts share out the whole stack. -/
  shared : m'.thread.windows.reverse.flatMap Prod.snd = m'.thread.stack.toList

/-- A safepoint frees nothing that the thread, wherever it waits, or an object still leads to. -/
theorem safepoint_spares_rooted {m m' : Machine} {v : Value} {base : Nat} {pending : List Pending}
    (session : Session Hosting.disciplined (.running m)) (returns : m.focus = .result v)
    (waits : m.pending = .frame base :: pending) (stepped : m.step = .next m') :
    m.Spares m' m'.thread.current.domain v := by
  obtain ⟨sound, posture⟩ := session.disciplined
  rw [returns, waits] at posture
  have settled := ended_settled posture
  unfold Machine.step at stepped
  simp only [returns, stepResult, waits, Progress.ofExcept, Progress.next.injEq] at stepped
  subst stepped
  obtain ⟨c, below, seated⟩ := settled.here
  have consistent := sound.world.heap.consistent
  refine ⟨fun id reached => ?_, fun id elsewhere => ?_, ?_⟩
  · rw [thread_safepoint] at reached
    rcases world_safepoint _ v with same | collected
    · rw [same]
    · rw [collected]
      exact World.aspect?_collect_of_reaches consistent
        (reached.mono fun u rooted => seated.root_of_rooted rooted)
  · rw [thread_safepoint] at elsewhere
    rcases world_safepoint _ v with same | collected
    · rw [same]
    · rw [collected, World.heap_collect]
      exact consistent.getElem?_collect elsewhere
  · rw [thread_safepoint, Thread.windows, settled.layout.founded.flatMap_windowsBelow]
    simp

end Machine

/-- The first runner keeps an array and calls the second one, which calls back into the domain of
the first. -/
def relay : Program where
  name := "/relay"
  ownVariables := []
  constants := [.ref ⟨.string, 0⟩, .ref ⟨.string, 1⟩]
  functions := [
    { name := "start", number := 0, locals := 4,
      body := .code #[
        { code := mkEmptyArray.toByte, first := .local 0 },
        { code := mov.toByte, first := .local 1, second := .argument 0 },
        { code := mov.toByte, first := .local 2, second := .argument 1 },
        { code := callOther.toByte, first := .local 3, second := .constant 0,
          third := .constant (Window.pack ⟨1, 2⟩) }] },
    { name := "pass", number := 1, locals := 2,
      body := .code #[
        { code := mov.toByte, first := .local 0, second := .argument 0 },
        { code := callOther.toByte, first := .local 1, second := .constant 1,
          third := .constant (Window.pack ⟨0, 1⟩) }] },
    { name := "back", number := 2, locals := 1,
      body := .code #[{ code := mkEmptyArray.toByte, first := .local 0 }] }]
  inherited := []

/-- A world with the names that the runners call, where collections come early. -/
def stadium : World :=
  { settings := { firstThreshold := 1 }
    heap := ((({} : Heap).create (.string "pass") true false).2.create (.string "back") true false).2
    domainIds := .empty 1
    objectIds := .empty 1 }

theorem stadium_blank : stadium.Blank Function.Disciplined where
  heap := .tail (.single (.create {} (.string "pass") true false))
    (.create _ (.string "back") true false)
  lists := rfl
  domains := rfl
  domainIds := rfl
  objects := rfl
  objectIds := rfl
  linked := by simp [stadium]
  efuns := by simp [stadium]

/-- A thread in a world, with a runner in each of two domains. -/
def raceIn (w : World) : Except Breach State := do
  let (thread, world) ← Thread.attach w
  let world := (world.createDomain "first").2
  let world := (world.createDomain "second").2
  let world := (world.newObject relay 1).2
  let world := (world.newObject relay 2).2
  return ⟨world, thread⟩

def race : Except Breach State := raceIn stadium

def State.startRace (s : State) : Except Breach Machine :=
  s.call (s.world.object 0).id "start"
    [.object (s.world.object 1).id, .object (s.world.object 0).id]

theorem relay_disciplined : relay.All Function.Disciplined := by
  intro q component f listed body native
  obtain rfl : q = relay := mem_singleton.mp component
  simp only [relay, mem_cons, not_mem_nil, or_false] at listed
  rcases listed with rfl | rfl | rfl <;> simp at native

theorem race_idle (ready : race = .ok s) : Session Hosting.disciplined (.idle s) := by
  unfold race raceIn at ready
  obtain ⟨thread, world, attached, ready⟩ := Thread.of_attach_bind ready
  cases ready
  have begun : Session Hosting.disciplined (.idle ⟨world, thread⟩) :=
    .begin ⟨stadium, stadium_blank, attached⟩
  have acts : ∀ {w w' : World}, w.Deed Function.Disciplined w' →
      Session Hosting.disciplined (.idle ⟨w, thread⟩) →
      Session Hosting.disciplined (.idle ⟨w', thread⟩) := fun deed before =>
    before.act ⟨deed, rfl⟩
  have first := acts (.createDomain "first") begun
  have second := acts (.createDomain "second") first
  have runner := acts (.newObject relay_disciplined 1) second
  exact acts (.newObject relay_disciplined 2) runner

theorem Except.toOption_eq_some {r : Except ε α} : r.toOption = some a ↔ r = .ok a := by
  cases r <;> simp [Except.toOption]

def Progress.next? : Progress → Option Machine
  | .next m => some m
  | _ => none

theorem Progress.next?_eq_some {r : Progress} : r.next? = some m ↔ r = .next m := by
  cases r <;> simp [next?]

/-- A state, the machine some steps after a call in it, and the machine one step later. -/
def stride? (ready : Except Breach State) (call : State → Except Breach Machine) (steps : Nat) :
    Option (State × Machine × Machine) := do
  let s ← ready.toOption
  let .exhausted m := Machine.runFrom true steps (call s) | none
  return (s, m, ← m.step.next?)

theorem stride?_eq_some {s : State} (went : stride? ready call n = some (s, m, m')) :
    ready = .ok s ∧ (∃ first, call s = .ok first ∧ first.run true n = .exhausted m) ∧
      m.step = .next m' := by
  obtain ⟨s, found, went⟩ := Option.bind_eq_some_iff.mp went
  split at went
  · rename_i m ran
    obtain ⟨m', stepped, same⟩ := Option.bind_eq_some_iff.mp went
    obtain ⟨rfl, rfl, rfl⟩ := same
    refine ⟨Except.toOption_eq_some.mp found, ?_, Progress.next?_eq_some.mp stepped⟩
    cases called : call s with
    | error b => simp [called, Machine.runFrom] at ran
    | ok first =>
      rw [called] at ran
      exact ⟨first, rfl, ran⟩
  · simp at went

/-- The call back into the first domain returns. -/
def lastLap? : Option (State × Machine × Machine) := stride? race State.startRace 11

/-- What the machine is about to return, and the base of the frame that ends. -/
def Machine.returning? (m : Machine) : Option (Value × Nat) :=
  match m.focus, m.pending with
  | .result v, .frame base :: _ => some (v, base)
  | _, _ => none

theorem Machine.returning?_eq_some {m : Machine} (returns : m.returning? = some (v, base)) :
    m.focus = .result v ∧ ∃ pending, m.pending = .frame base :: pending := by
  unfold returning? at returns
  split at returns
  · rename_i focus pending
    obtain ⟨rfl, rfl⟩ := Prod.mk.inj (Option.some.inj returns)
    exact ⟨focus, _, pending⟩
  · simp at returns

/-- The second array of the first domain is freed; the first one, which the caller below the second
domain keeps, is not. -/
theorem Machine.safepoint_spares_first_runner : ∃ m m' : Machine,
    Session Hosting.disciplined (.running m) ∧ m.focus = .result .nil ∧
    (∃ pending, m.pending = .frame 9 :: pending) ∧ m.step = .next m' ∧
    m'.world.heap.live 2 = true ∧ m'.world.heap.live 3 = false ∧
    m.Spares m' m'.thread.current.domain .nil := by
  have ran : lastLap?.any (fun lap => lap.2.1.returning? = some (.nil, 9) ∧
      lap.2.2.world.heap.live 2 = true ∧ lap.2.2.world.heap.live 3 = false) = true := by decide +kernel
  obtain ⟨⟨s, m, m'⟩, lap, passed⟩ := (Option.any_eq_true _ _).mp ran
  obtain ⟨returns, kept, freed⟩ := of_decide_eq_true passed
  obtain ⟨ready, ⟨first, called, ran⟩, stepped⟩ := stride?_eq_some lap
  have session := ((race_idle ready).call trivial called).run ran
  obtain ⟨focus, pending, waits⟩ := returning?_eq_some returns
  exact ⟨m, m', session, focus, ⟨pending, waits⟩, stepped, kept, freed,
    safepoint_spares_rooted session focus waits stepped⟩

end Tenancy
