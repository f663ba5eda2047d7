import Tenancy.Heap.Container

/-!
Copies of values into another list.

Scalars and payloads without an owner stay as they are. Every other payload is copied once for all
references to it, so the copies share and cycle as their sources do.
-/

namespace Tenancy

abbrev CopyMemo := List (Nat × Value)

structure Copying where
  heap : Heap
  memo : CopyMemo := []

abbrev CopyM := EStateM Fault Copying

namespace CopyM

def onHeap (act : HeapM α) : CopyM α := fun s =>
  match act s.heap with
  | .ok a heap => .ok a { s with heap }
  | .error f heap => .error f { s with heap }

def remember (source : Nat) (copy : Value) : CopyM Unit :=
  modify fun s => { s with memo := (source, copy) :: s.memo }

def begin (target : ListId) (payload : Payload) : CopyM Value :=
  match payload with
  | .array _ => onHeap (HeapM.place target (.array []))
  | .mapping _ => onHeap (HeapM.place target (.mapping []))
  | .buffer b => onHeap do
    modify (·.record .copied b)
    HeapM.place target (.buffer b.duplicate)
  | payload => onHeap (HeapM.place target payload)

/-- Copies a value to a depth of `fuel`. A copy is remembered before what it holds is copied. -/
def copy (target : ListId) : Nat → Value → CopyM Value
  | 0, _ => throw .freedValue
  | fuel + 1, v =>
    match v with
    | .ref r => do
      let s ← get
      if s.heap.unowned r.id then return v
      match s.memo.lookup r.id with
      | some done => return done
      | none =>
        match s.heap.payload? r.id with
        | none => throw .freedValue
        | some payload =>
          let c ← begin target payload
          remember r.id c
          match payload with
          | .array items => items.forM fun item => do
            let item ← copy target fuel item
            onHeap (HeapM.arrayPush c item)
          | .mapping entries => entries.forM fun e => do
            let key ← copy target fuel e.key
            let value ← copy target fuel e.value
            onHeap (HeapM.mappingInsert c key value)
          | _ => pure ()
          return c
    | v => return v

/-- Each payload is entered once, so the number of payloads bounds the depth. -/
def copyValue (target : ListId) (v : Value) : CopyM Value := fun s =>
  copy target (s.heap.cells.size + 1) v s

end CopyM

/-- Copies values one after the other, each even if those before it could not be copied. What the
values share, their copies share. -/
def Heap.copyEach (target : ListId) (values : List Value) (h : Heap) :
    List (Except Fault Value) × Heap :=
  let (copies, s) := values.foldl
    (fun (copies, s) v =>
      match CopyM.copyValue target v s with
      | .ok copy s => (copies ++ [.ok copy], s)
      | .error f s => (copies ++ [.error f], s))
    (([] : List (Except Fault Value)), ({ heap := h } : Copying))
  (copies, s.heap)

def Heap.copyAll (target : ListId) (values : List Value) : HeapM (List Value) := fun h =>
  match values.mapM (CopyM.copyValue target) { heap := h } with
  | .ok copies s => .ok copies s.heap
  | .error f s => .error f s.heap

def Heap.copyValue (target : ListId) (value : Value) : HeapM Value := fun h =>
  match CopyM.copyValue target value { heap := h } with
  | .ok copy s => .ok copy s.heap
  | .error f s => .error f s.heap

end Tenancy
