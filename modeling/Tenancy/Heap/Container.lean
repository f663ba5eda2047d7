import Tenancy.Heap.Equality
import Tenancy.Heap.Ownership

/-!
Reading and changing arrays, mappings and the bytes of buffers. Constant arrays and mappings cannot
be changed.
-/

namespace Tenancy

structure Overwrite where
  apply : List UInt8 → List UInt8
  length_apply : ∀ bytes : List UInt8, (apply bytes).length = bytes.length

namespace HeapM

def place (owner : ListId) (payload : Payload) : HeapM Value :=
  modifyGet fun h => h.place owner payload

def updateArray (container : Value) (f : List Value → Except Fault (List Value)) : HeapM Unit := do
  match container with
  | .ref ⟨.array, id⟩ =>
    let h ← get
    if h.constant id then throw (.readOnly (.payload .array))
    match h.items? container with
    | none => throw .freedValue
    | some items =>
      let items ← ofExcept (f items)
      set (h.write id (.array items))
  | _ => throw (.notIndexable container.type .integer)

def arrayPush (container value : Value) : HeapM Unit :=
  updateArray container fun items => .ok (items ++ [value])

def mappingInsert (container key value : Value) : HeapM Unit := do
  match container with
  | .ref ⟨.mapping, id⟩ =>
    let h ← get
    if h.constant id then throw (.readOnly (.payload .mapping))
    match h.entries? container with
    | none => throw .freedValue
    | some entries => set ((h.note key).write id (.mapping (h.put key value entries)))
  | _ => throw (.notIndexable container.type key.type)

/-- Changes the bytes of a live buffer, and answers whether there is one. Its hash has to be found anew
in any case. -/
def overwrite (container : Value) (change : Overwrite) : HeapM Bool := do
  match container with
  | .ref ⟨.buffer, id⟩ =>
    modify (·.forgetDigest id)
    let h ← get
    match h.payload? id with
    | some (.buffer b) =>
      set (h.write id (.buffer { b with bytes := change.apply b.bytes }))
      return true
    | _ => return false
  | _ => return false

/-- Searching for a key hashes it. -/
def lookup (entries : List Entry) (key : Value) : HeapM (Option Value) := do
  let h ← get
  if Heap.searched entries then set (h.note key)
  return h.find? key entries

def mappingGet (container key : Value) : HeapM (Option Value) := do
  match (← get).entries? container with
  | none => return none
  | some entries => lookup entries key

end HeapM

end Tenancy
