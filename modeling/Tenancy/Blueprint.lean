import Tenancy.Native

/-!
Blueprints: values to be built, as data.

What a blueprint holds is built first, from left to right.
-/

namespace Tenancy

inductive Blueprint where
  | value (v : Value)
  | named (name : String)
  | string (text : String)
  | buffer (bytes : List UInt8)
  | instances (cls : BufferClass) (count : Nat)
  | array (items : List Blueprint)
  | mapping (entries : List (Blueprint × Blueprint))
  | function (object : Blueprint) (name : String)
  | register (name : String)
  | argument (index : Nat)
  | this
  /-- All payloads below belong to whom `share` says. -/
  | under (share : Share) (inner : Blueprint)

instance : Inhabited Blueprint := ⟨.this⟩

structure Builder (m : Type → Type) where
  make : Share → Draft → m Value
  named : String → m ObjectId
  register : String → m Value
  argument : Nat → m Value
  this : m ObjectId

namespace Builder

variable {m : Type → Type} [Monad m]

mutual

def build (b : Builder m) (share : Share) : Blueprint → m Value
  | .value v => pure v
  | .named name => do return .object (← b.named name)
  | .string text => b.make share (.string text)
  | .buffer bytes => b.make share (.buffer bytes)
  | .instances c count => b.make share (.instances c count)
  | .array items => do b.make share (.array (← b.buildAll share items))
  | .mapping entries => do b.make share (.mapping (← b.buildEntries share entries))
  | .function object name => do
    let v ← b.build share object
    b.make share (.function (v.object?.getD .null) name)
  | .register name => b.register name
  | .argument index => b.argument index
  | .this => do return .object (← b.this)
  | .under share inner => b.build share inner

def buildAll (b : Builder m) (share : Share) : List Blueprint → m (List Value)
  | [] => pure []
  | item :: rest => do
    let v ← b.build share item
    return v :: (← b.buildAll share rest)

def buildEntries (b : Builder m) (share : Share) :
    List (Blueprint × Blueprint) → m (List (Value × Value))
  | [] => pure []
  | (key, value) :: rest => do
    let k ← b.build share key
    let v ← b.build share value
    return (k, v) :: (← b.buildEntries share rest)

end

end Builder

structure Workshop where
  owner : ListId
  aside : ListId
  names : List (String × ObjectId) := []
  registers : List (String × Value) := []

def Workshop.ownerOf (w : Workshop) : Draft → ListId
  | .function _ _ | .instances _ _ => w.aside
  | _ => w.owner

def Workshop.make (w : Workshop) (share : Share) (draft : Draft) : OwnerM Value := do
  match draft.reserve with
  | .error b => throw b
  | .ok () =>
    modifyGet fun h =>
      match share with
      | .here => h.make (.owned (w.ownerOf draft)) draft
      | .loose => h.make .loose draft
      | .exempt exemption => h.make (.exempt exemption) draft

def Workshop.builder (w : Workshop) : Builder OwnerM where
  make := w.make
  named name := pure ((w.names.lookup name).getD .null)
  register name := pure ((w.registers.lookup name).getD .nil)
  argument _ := pure .nil
  this := pure .null

def Blueprint.buildOn (w : Workshop) (b : Blueprint) : OwnerM Value := w.builder.build .here b

/-- Builds a literal of a program, which is constant with all that it is built of. -/
def Blueprint.literalOn (w : Workshop) (b : Blueprint) : OwnerM Value := do
  let v ← w.builder.build (.exempt .constant) b
  OwnerM.exempt .constant v
  return v

end Tenancy
