import Tenancy.Fault

/-!
Payloads and the heap that holds them.

Payloads are numbered in the order of their creation, and a number is never used again. A payload
that has been freed keeps its cell, so that a stale reference finds nothing instead of something
else. The heap also keeps the value lists that own payloads, and a record of what happened to the
instances of buffer classes.
-/

namespace Tenancy

structure BufferClass where
  name : String
  instanceSize : Nat
  fresh : Nat → UInt8
  duplicate : List UInt8 → List UInt8
  duplicate_length : ∀ bytes : List UInt8,
    bytes.length = instanceSize → (duplicate bytes).length = instanceSize

/-- A class of instances that are filled with one byte. A copy adds `step` to each byte. -/
def BufferClass.filled (name : String) (size : Nat) (fill step : UInt8) : BufferClass where
  name
  instanceSize := size
  fresh _ := fill
  duplicate bytes := bytes.map (· + step)
  duplicate_length := by simp

structure Buffer where
  bytes : List UInt8
  cls : Option BufferClass := none

namespace Buffer

def pieces (size : Nat) : Nat → List UInt8 → List (List UInt8)
  | 0, _ => []
  | count + 1, bytes => bytes.take size :: pieces size count (bytes.drop size)

/-- Without a class, or with an empty one, there are no instances. -/
def instanceCount (b : Buffer) : Nat :=
  match b.cls with
  | none => 0
  | some c => b.bytes.length / c.instanceSize

def ofClass (c : BufferClass) (count : Nat) : Buffer :=
  ⟨(List.range (c.instanceSize * count)).map fun i => c.fresh (i % c.instanceSize), some c⟩

/-- Instances are copied one by one by their class, other bytes as they are. -/
def duplicate (b : Buffer) : Buffer :=
  match b.cls with
  | none => b
  | some c =>
    { b with bytes := (pieces c.instanceSize b.instanceCount b.bytes).flatMap c.duplicate }

end Buffer

/-- What the hash of a value depends on: values that share a digest share their hash. -/
inductive Digest where
  | nil
  | word (bits : UInt64)
  | bytes (start : List UInt8)
  | identity (id : Nat)
  /-- Of a payload that was freed before it was first hashed. -/
  | spent
deriving DecidableEq

structure Entry where
  key : Value
  value : Value
  /-- The digest of the key when it was entered. -/
  digest : Digest

inductive Payload where
  | string (text : String)
  | buffer (buffer : Buffer)
  | array (items : List Value)
  /-- Entries in the order of the first insertion of their keys. -/
  | mapping (entries : List Entry)
  | function (object : ObjectId) (name : String)

def Payload.kind : Payload → Kind
  | .string _ => .string
  | .buffer _ => .buffer
  | .array _ => .array
  | .mapping _ => .mapping
  | .function _ _ => .function

def Payload.children : Payload → List Value
  | .array items => items
  | .mapping entries => entries.flatMap fun e => [e.key, e.value]
  | _ => []

structure ListId where
  number : Nat
deriving DecidableEq

structure Binding where
  list : ListId
  slot : Nat
  generation : UInt32
deriving DecidableEq

structure Cell where
  /-- Nothing once the payload has been freed. -/
  payload : Option Payload
  constant : Bool := false
  shared : Bool := false
  binding : Option Binding := none
  /-- Kept from the first time the payload was hashed. -/
  digest : Option Digest := none

/-- Constant and shared payloads have no owner. -/
def Cell.unowned (c : Cell) : Bool := c.constant || c.shared

structure ListSlot where
  generation : UInt32 := 0
  occupant : Option Nat := none

structure ValueList where
  slots : Array ListSlot := #[]
  /-- Unoccupied slots, the next to be used first. -/
  free : List Nat := []
  size : Nat := 0
  /-- Payloads bound since the last collection. -/
  allocated : Nat := 0

inductive Stage where
  | constructed | copied | destructed
deriving DecidableEq

def Stage.name : Stage → String
  | .constructed => "constructed"
  | .copied => "copied"
  | .destructed => "destructed"

structure ClassEvent where
  name : String
  stage : Stage
  count : Nat

structure Heap where
  cells : Array Cell := #[]
  lists : Array ValueList := #[]
  /-- Newest first. -/
  events : List ClassEvent := []

abbrev HeapM := EStateM Fault Heap

namespace Heap

def payload? (h : Heap) (id : Nat) : Option Payload := h.cells[id]?.bind Cell.payload

def reference? (h : Heap) (id : Nat) : Option Value :=
  (h.payload? id).map fun p => .ref ⟨p.kind, id⟩

def live (h : Heap) (id : Nat) : Bool := (h.payload? id).isSome

def unowned (h : Heap) (id : Nat) : Bool := h.cells[id]?.any Cell.unowned

def constant (h : Heap) (id : Nat) : Bool := h.cells[id]?.any Cell.constant

def binding? (h : Heap) (id : Nat) : Option Binding := h.cells[id]?.bind Cell.binding

def list (h : Heap) (l : ListId) : ValueList := h.lists[l.number]?.getD {}

def text? (h : Heap) : Value → Option String
  | .ref ⟨.string, id⟩ =>
    match h.payload? id with
    | some (.string text) => some text
    | _ => none
  | _ => none

def bytes? (h : Heap) : Value → Option (List UInt8)
  | .ref ⟨.buffer, id⟩ =>
    match h.payload? id with
    | some (.buffer b) => some b.bytes
    | _ => none
  | _ => none

def items? (h : Heap) : Value → Option (List Value)
  | .ref ⟨.array, id⟩ =>
    match h.payload? id with
    | some (.array items) => some items
    | _ => none
  | _ => none

def entries? (h : Heap) : Value → Option (List Entry)
  | .ref ⟨.mapping, id⟩ =>
    match h.payload? id with
    | some (.mapping entries) => some entries
    | _ => none
  | _ => none

def function? (h : Heap) : Value → Option (ObjectId × String)
  | .ref ⟨.function, id⟩ =>
    match h.payload? id with
    | some (.function object name) => some (object, name)
    | _ => none
  | _ => none

def modifyCell (h : Heap) (id : Nat) (f : Cell → Cell) : Heap :=
  { h with cells := h.cells.modify id f }

def modifyList (h : Heap) (l : ListId) (f : ValueList → ValueList) : Heap :=
  { h with lists := h.lists.modify l.number f }

def forgetDigest (h : Heap) (id : Nat) : Heap :=
  h.modifyCell id fun c => { c with digest := none }

def replace (h : Heap) (id : Nat) (payload : Payload) : Heap :=
  h.modifyCell id fun c => { c with payload := some payload }

/-- Replaces a payload. Its hash is forgotten first, and has to be found anew. -/
def write (h : Heap) (id : Nat) (payload : Payload) : Heap := (h.forgetDigest id).replace id payload

def record (h : Heap) (stage : Stage) (b : Buffer) : Heap :=
  match b.cls with
  | none => h
  | some c => { h with events := ⟨c.name, stage, b.instanceCount⟩ :: h.events }

def tally (h : Heap) (name : String) (stage : Stage) : Nat :=
  (h.events.filter fun e => e.name = name ∧ e.stage = stage).foldl (fun n e => n + e.count) 0

def create (h : Heap) (payload : Payload) (constant shared : Bool) : Nat × Heap :=
  (h.cells.size, { h with cells := h.cells.push { payload := some payload, constant, shared } })

def newList (h : Heap) : ListId × Heap :=
  (⟨h.lists.size⟩, { h with lists := h.lists.push {} })

end Heap

end Tenancy
