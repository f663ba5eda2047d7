import Tenancy.Proofs.Machine.Cases

/-!
Sessions of a host with a thread.

A session begins when a thread is attached to a world that has been set up and not been used. The
host may then change the world and call objects, one call after the other; while a call runs, the
machine takes its steps.
-/

namespace Tenancy

open Machine World

variable {m : Machine} {outcome : Outcome} {s : State} {H : Hosting} {patient : Bool} {fuel : Nat}
  {P : Function → Prop} {w : World}

inductive Phase where
  | idle (state : State)
  | running (machine : Machine)

def Phase.state : Phase → State
  | .idle s => s
  | .running m => m.toState

/-- What a host does: how its sessions begin, how it changes the world, and what it passes on. -/
structure Hosting where
  Begins : State → Prop
  Acts : State → State → Prop
  Admits : State → List Value → Prop

theorem Machine.eq_of_blocked (blocked : m.step = .blocked m') : m' = m := by
  have notBlocked : ∀ r : Except Breach Machine, Progress.ofExcept r ≠ .blocked m' := by
    intro r
    cases r <;> simp [Progress.ofExcept]
  have free : ∀ d mine enter, m.whenFree d mine enter = .blocked m' → m' = m := by
    intro d mine enter waits
    unfold whenFree at waits
    split at waits
    · exact absurd waits (notBlocked _)
    · split at waits
      · exact absurd waits (notBlocked _)
      · exact (Progress.blocked.inj waits).symm
  unfold step at blocked
  cases focus : m.focus with
  | done => simp [focus] at blocked
  | code | native | result | fault | unwinding =>
    rw [focus] at blocked
    exact absurd blocked (notBlocked _)
  | visiting | rollingBack | returning | reentering =>
    rw [focus] at blocked
    exact free _ _ _ blocked

theorem Machine.step_done_iff : m.step = .done outcome s ↔ m.focus = .done outcome ∧ s = m.toState := by
  have notDone : ∀ r : Except Breach Machine, Progress.ofExcept r ≠ .done outcome s := by
    intro r
    cases r <;> simp [Progress.ofExcept]
  have notFree : ∀ d mine enter, m.whenFree d mine enter ≠ .done outcome s := by
    intro d mine enter
    unfold whenFree
    split
    · exact notDone _
    · split
      · exact notDone _
      · simp
  unfold step
  cases m.focus with
  | done => simp [eq_comm]
  | code | native | result | fault | unwinding => simp [notDone]
  | visiting | rollingBack | returning | reentering => simp [notFree]

inductive Session (H : Hosting) : Phase → Prop where
  | begin {s : State} (begins : H.Begins s) : Session H (.idle s)
  | act {s s' : State} (before : Session H (.idle s)) (acts : H.Acts s s') : Session H (.idle s')
  | call {s : State} {m : Machine} {target : ObjectId} {name : String} {args : List Value}
      (before : Session H (.idle s)) (admits : H.Admits s args)
      (called : s.call target name args = .ok m) : Session H (.running m)
  | step {m m' : Machine} (before : Session H (.running m)) (stepped : m.step = .next m') :
      Session H (.running m')
  | expire {m m' : Machine} (before : Session H (.running m)) (expired : m.expire? = some m') :
      Session H (.running m')
  | finish {m : Machine} {outcome : Outcome} {s : State} (before : Session H (.running m))
      (finished : m.step = .done outcome s) : Session H (.idle s)

theorem Session.run (before : Session H (.running m))
    (ran : m.run patient fuel = .exhausted m') : Session H (.running m') := by
  induction fuel generalizing m with
  | zero =>
    obtain rfl := RunResult.exhausted.inj ran
    exact before
  | succ fuel ih =>
    unfold run at ran
    split at ran
    · exact ih (before.step ‹_›) ran
    · simp at ran
    · simp at ran
    · rename_i m'' blocked
      obtain rfl := eq_of_blocked blocked
      split at ran
      · exact ih (before.expire ‹_›) ran
      · simp at ran

theorem Session.run_finished (before : Session H (.running m))
    (ran : m.run patient fuel = .finished outcome s) : Session H (.idle s) := by
  induction fuel generalizing m with
  | zero => simp [Machine.run] at ran
  | succ fuel ih =>
    unfold Machine.run at ran
    split at ran
    · exact ih (before.step ‹_›) ran
    · obtain ⟨rfl, rfl⟩ := RunResult.finished.inj ran
      exact before.finish ‹_›
    · simp at ran
    · rename_i m'' blocked
      obtain rfl := eq_of_blocked blocked
      split at ran
      · exact ih (before.expire ‹_›) ran
      · simp at ran

theorem Session.runFrom_finished (before : Session H (.idle s)) (admits : H.Admits s args)
    (ran : Machine.runFrom patient fuel (s.call target name args) = .finished outcome s') :
    Session H (.idle s') := by
  cases called : s.call target name args with
  | error b => simp [called, Machine.runFrom] at ran
  | ok m =>
    rw [called] at ran
    exact (before.call admits called).run_finished ran

/-- A world that has been set up with functions of a property, and not been used. -/
structure World.Blank (P : Function → Prop) (w : World) : Prop where
  heap : w.heap.Possible
  lists : w.heap.lists = #[]
  domains : w.domains = #[]
  domainIds : w.domainIds = .empty w.settings.process
  objects : w.objects = #[]
  objectIds : w.objectIds = .empty w.settings.process
  linked : ∀ p ∈ w.registry.linked, p.All P
  efuns : ∀ f ∈ w.efuns.functions, P f

theorem World.Blank.mono (blank : w.Blank P) (weaker : ∀ f, P f → Q f) : w.Blank Q :=
  { blank with
    linked := fun p listed => (blank.linked p listed).mono weaker
    efuns := fun f listed => weaker f (blank.efuns f listed) }

/-- The thread has just been attached to a blank world. -/
def State.Attached (P : Function → Prop) (s : State) : Prop :=
  ∃ w : World, w.Blank P ∧ Thread.attach w = .ok (s.thread, s.world)

theorem World.Blank.sound (blank : w.Blank P) : w.Sound P where
  heap := blank.heap.sound
  lists k within := by simp [blank.domains] at within
  keys := by
    intro s stored
    simp [blank.domainIds, Arena.empty] at stored
  linked := blank.linked
  objects o stored := by simp [blank.objects] at stored
  storage o stored := by simp [blank.objects] at stored
  efuns := blank.efuns

/-- What attaching makes: a home, and the two lists of the thread. -/
theorem Thread.attach_eq (attached : Thread.attach w = .ok (t, w')) :
    let key := w.newKey.1
    let home := w.newKey.2.createDomain s!"home of {key.text}"
    let scratch := home.2.newList
    let transfer := scratch.2.newList
    t = { key, domains := [⟨home.1, 0, 0⟩], scratch := scratch.1, transfer := transfer.1,
          home := home.1 } ∧ w' = transfer.2.hold home.1 key := by
  unfold Thread.attach at attached
  split at attached
  · obtain ⟨rfl, rfl⟩ := Prod.mk.inj (Except.ok.inj attached)
    exact ⟨rfl, rfl⟩
  · simp at attached

/-- What begins with attaching a thread does attach one. -/
theorem Thread.of_attach_bind
    (done : (attach w >>= next) = .ok a) : ∃ t w', attach w = .ok (t, w') ∧ next (t, w') = .ok a := by
  cases attached : attach w with
  | error b => simp [attached, bind, Except.bind] at done
  | ok pair => exact ⟨pair.1, pair.2, rfl, by rwa [attached] at done⟩

/-- What a host does to a world between two calls. -/
inductive World.Deed (P : Function → Prop) (w : World) : World → Prop where
  | heap {heap : Heap} (changes : w.heap.Changes heap) : Deed P w { w with heap }
  | equip {registry : Registry} {efuns : EfunRegistry}
      (linked : ∀ p ∈ registry.linked, p.All P) (functions : ∀ f ∈ efuns.functions, P f) :
      Deed P w { w with registry, efuns }
  | createDomain (name : String) : Deed P w (w.createDomain name).2
  | newObject {program : Program} (all : program.All P) (k : DomainKey) :
      Deed P w (w.newObject program k).2
  | nameObject (name : String) (id : ObjectId) : Deed P w (w.nameObject name id)
  | setMember (id : ObjectId) (slot : Nat) (v : Value) : Deed P w (w.setMember id slot v).2
  | destruct (id : ObjectId) : Deed P w (w.destruct id).2
  | destroyDomain {id : DomainId} {w' : World} (destroyed : w.destroyDomain id = .ok w') : Deed P w w'
  | collect (k : DomainKey) (roots : List Value) : Deed P w (w.collect k roots).2

theorem World.Deed.kept (deed : w.Deed P w') (sound : w.Sound P) :
    w'.Sound P ∧ w.heap.Changes w'.heap ∧ w.domains.size ≤ w'.domains.size := by
  cases deed with
  | heap changes => exact ⟨sound.withHeap changes, changes, le_rfl⟩
  | equip linked functions =>
    exact ⟨{ sound with linked := linked, efuns := functions }, .refl, le_rfl⟩
  | createDomain name =>
    refine ⟨sound.createDomain name, .single (.newList w.heap), ?_⟩
    simp [World.createDomain, World.newList]
  | newObject all k => exact ⟨sound.newObject all k, .refl, by simp⟩
  | nameObject name id => exact ⟨{ sound with }, .refl, le_rfl⟩
  | setMember id slot v =>
    refine ⟨sound.setMember id slot v, ?_⟩
    unfold World.setMember
    split
    · exact ⟨.refl, le_rfl⟩
    · exact ⟨.refl, le_rfl⟩
  | destruct id => exact ⟨sound.destruct id, by rw [heap_destruct], by simp⟩
  | destroyDomain destroyed =>
    refine ⟨sound.destroyDomain destroyed, ?_⟩
    rcases destroyDomain_cases destroyed with rfl | ⟨k, -, rfl⟩
    · exact ⟨.refl, le_rfl⟩
    · exact ⟨.single (.freeAll _ _), le_rfl⟩
  | collect k roots =>
    exact ⟨sound.collect k roots, .single (.collect _ _ _), by simp [World.collect]⟩

end Tenancy
