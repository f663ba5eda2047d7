import Tenancy.Heap.Ownership

/-!
Collection of one list: mark what the roots reach, free the rest.

Only payloads of the list itself are followed. The survivors are bound to the list again, in the
order in which they were reached.
-/

namespace Tenancy

structure Marking where
  heap : Heap
  /-- Payloads of the list that have not been reached. -/
  waiting : List Nat
  /-- Payloads that have been reached and whose children have not been looked at. -/
  pending : List Nat := []

structure CollectStats where
  before : Nat
  live : Nat
  freed : Nat
deriving DecidableEq

namespace Marking

def mark (list : ListId) (m : Marking) : Value → Marking
  | .ref r =>
    if m.waiting.contains r.id then
      { heap := m.heap.adopt list r.id, waiting := m.waiting.erase r.id,
        pending := r.id :: m.pending }
    else m
  | _ => m

def markAll (list : ListId) (m : Marking) (values : List Value) : Marking :=
  values.foldl (mark list) m

def childrenOf (h : Heap) (id : Nat) : List Value := ((h.payload? id).map Payload.children).getD []

def drain (list : ListId) : Nat → Marking → Marking
  | 0, m => m
  | fuel + 1, m =>
    match m.pending with
    | [] => m
    | id :: pending =>
      drain list fuel (markAll list { m with pending } (childrenOf m.heap id))

/-- Each payload becomes pending once, so this many steps follow all of them. -/
def steps (m : Marking) : Nat := m.waiting.length + m.pending.length

end Marking

def Heap.collect (h : Heap) (list : ListId) (roots : List Value) : CollectStats × Heap :=
  let before := (h.list list).size
  let (ids, h) := h.takeAll list
  let m := Marking.markAll list { heap := h, waiting := ids } roots
  let m := m.drain list m.steps
  let h := (m.heap.freeEach m.waiting).resetAllocated list
  (⟨before, (h.list list).size, m.waiting.length⟩, h)

end Tenancy
