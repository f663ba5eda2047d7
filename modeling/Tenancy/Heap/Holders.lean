import Tenancy.Heap.Collect

/-!
Who holds a payload.

A payload is held by its owner, by the payloads that refer to it, and by those outside of the heap
who do. When nobody holds it any more it is lost, and with it its hold on others. Payloads that
refer to each other in a ring are never lost.
-/

namespace Tenancy.Heap

def addHolder (holders : Array Nat) : Value → Array Nat
  | .ref r => holders.modify r.id (· + 1)
  | _ => holders

def holders (h : Heap) (outside : List Value) : Array Nat :=
  let owners := h.cells.map fun c => if c.binding.isSome then 1 else 0
  (outside ++ (List.range h.cells.size).flatMap (Marking.childrenOf h)).foldl addHolder owners

def dropHolder : Array Nat × List Nat → Value → Array Nat × List Nat
  | (holders, lost), .ref r =>
    let left := holders.getD r.id 0 - 1
    (holders.setIfInBounds r.id left, if left = 0 then r.id :: lost else lost)
  | (holders, lost), _ => (holders, lost)

def loseAll (h : Heap) : Nat → Array Nat → List Nat → List Nat
  | 0, _, _ => []
  | _, _, [] => []
  | fuel + 1, holders, id :: lost =>
    let (holders, lost) := (Marking.childrenOf h id).foldl dropHolder (holders, lost)
    id :: h.loseAll fuel holders lost

/-- The payloads that nobody holds. Each is lost once, which bounds the search. -/
def lost (h : Heap) (outside : List Value) : List Nat :=
  let holders := h.holders outside
  h.loseAll (h.cells.size + 1) holders
    ((List.range h.cells.size).filter fun id => h.live id && holders.getD id 0 == 0)

def lostInstances (h : Heap) (name : String) (outside : List Value) : Nat :=
  (h.lost outside).foldl
    (fun n id =>
      match h.payload? id with
      | some (.buffer b) => if b.cls.any (·.name = name) then n + b.instanceCount else n
      | _ => n)
    0

/-- How many instances of the classes of one name were constructed, copied and destructed. The
instances in a payload that is lost are destructed with it. -/
def lifetimes (h : Heap) (name : String) (outside : List Value) : List (Stage × Nat) :=
  [(.constructed, h.tally name .constructed),
    (.copied, h.tally name .copied),
    (.destructed, h.tally name .destructed + h.lostInstances name outside)]

end Tenancy.Heap
