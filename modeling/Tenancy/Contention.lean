import Tenancy.Machine.Run

/-!
Threads that meet at a domain.
-/

namespace Tenancy

/-- Takes a domain, or says why not; waiting for it is in vain. -/
def World.enter (w : World) (k : DomainKey) (thread : ThreadKey) : Except Fault World :=
  let d := w.domain k
  match d.holder with
  | none => .ok (w.hold k thread)
  | some key =>
    if key = thread then .error (.domainReentered d.id) else .error (.domainTimeout d.id)

/-- As `enter`, but entering a domain twice is a breach. -/
def World.enterBlocking (w : World) (k : DomainKey) (thread : ThreadKey) : Except Breach World :=
  let d := w.domain k
  if d.holder = some thread then .error (.reentered d.id) else .ok (w.hold k thread)

structure Contention where
  home : DomainId
  outcome : Outcome
  depths : Mark
  parked : Nat
  /-- Whether the object was there to be destructed, if it was to be. -/
  destructed : Option Bool
  heap : Heap

inductive ContentionResult where
  | settled (contention : Contention) (world : World)
  | refused (fault : Fault) (world : World)
  | stopped (result : RunResult)

/-- While a new key holds the domain, a new thread calls the object and comes as far as it can. Then
the object may be destructed, the key leaves, and the thread ends its call. -/
def contend (w : World) (domain : DomainKey) (target : ObjectId) (name : String)
    (destruct : Bool) (fuel : Nat) : ContentionResult :=
  let (key, w) := w.newKey
  match w.enter domain key with
  | .error f => .refused f w
  | .ok w =>
    match Thread.attach w with
    | .error b => .stopped (.broken b)
    | .ok (thread, w) =>
      let home := (w.domain thread.home).id
      let release (w : World) : Option Bool × Except Breach World :=
        let (found, w) := if destruct then (w.destruct target).map some id else (none, w)
        (found, w.leave domain key)
      let finish (destructed : Option Bool) (outcome : Outcome) (s : State) : ContentionResult :=
        match s.detach fuel with
        | .error r => .stopped r
        | .ok world =>
          .settled
            { home, outcome, destructed
              depths := s.thread.savePoint
              parked := (s.world.domain s.thread.home).parked.length
              heap := s.world.heap }
            world
      match Machine.runFrom true fuel (State.call ⟨w, thread⟩ target name []) with
      | .finished outcome s =>
        match release s.world with
        | (destructed, .ok world) => finish destructed outcome { s with world }
        | (_, .error b) => .stopped (.broken b)
      | .blocked m =>
        match release m.world with
        | (_, .error b) => .stopped (.broken b)
        | (destructed, .ok world) =>
          match { m with world }.run false fuel with
          | .finished outcome s => finish destructed outcome s
          | r => .stopped r
      | r => .stopped r

end Tenancy
