import Tenancy.Ident

/-!
A generational arena: a table of values that hands out identities.

Slots come in pages and are reused last freed first. A slot's version moves on whenever its value
leaves, so an identity kept for longer than its value finds nothing. Version 0 is never used.
-/

namespace Tenancy

structure ArenaSlot (α : Type) where
  version : UInt16
  value : Option α

structure Arena (α : Type) where
  process : UInt16
  slots : Array (ArenaSlot α) := #[]
  /-- Slots to reuse, the next one first. -/
  free : List Nat := []
  /-- The first slot never used. -/
  next : Nat := 0
  live : Nat := 0

namespace Arena

variable {α : Type}

def empty (process : UInt16) : Arena α := { process }

instance : Inhabited (Arena α) := ⟨empty 0⟩

def isEmpty (a : Arena α) : Bool := a.live == 0

def freshPage : Array (ArenaSlot α) := Array.replicate GlobalId.pageSize ⟨1, none⟩

def nextVersion (v : UInt16) : UInt16 := if v + 1 = 0 then 1 else v + 1

/-- Takes the slot for the next value, opening a page when the last one is full. -/
def reserve (a : Arena α) : Nat × Arena α :=
  match a.free with
  | index :: rest => (index, { a with free := rest })
  | [] =>
    if a.next % GlobalId.pageSize = 0 then
      (a.next, { a with slots := a.slots ++ freshPage, next := a.next + 1 })
    else
      (a.next, { a with next := a.next + 1 })

def versionAt (a : Arena α) (index : Nat) : UInt16 :=
  match a.slots[index]? with
  | some slot => slot.version
  | none => 1

def allocateWith (a : Arena α) (make : GlobalId → α) : GlobalId × Arena α :=
  let (index, a) := a.reserve
  let version := a.versionAt index
  let id := GlobalId.ofParts a.process index version
  (id, { a with
    slots := a.slots.setIfInBounds index ⟨version, some (make id)⟩
    live := a.live + 1 })

def allocate (a : Arena α) (value : α) : GlobalId × Arena α := a.allocateWith fun _ => value

/-- The value behind a current identity. The process in the identity is not looked at. -/
def get? (a : Arena α) (id : GlobalId) : Option α :=
  match a.slots[id.index]? with
  | some slot => if slot.version = id.version then slot.value else none
  | none => none

def contains (a : Arena α) (id : GlobalId) : Bool := (a.get? id).isSome

def release (a : Arena α) (id : GlobalId) : Option α × Arena α :=
  match a.get? id with
  | none => (none, a)
  | some value =>
    (some value, { a with
      slots := a.slots.setIfInBounds id.index ⟨nextVersion id.version, none⟩
      free := id.index :: a.free
      live := a.live - 1 })

def values (a : Arena α) : List α := a.slots.toList.filterMap ArenaSlot.value

def occupied (a : Arena α) : List Nat :=
  (List.range a.slots.size).filter fun index =>
    match a.slots[index]? with
    | some slot => slot.value.isSome
    | none => false

def vacate (slot : ArenaSlot α) : ArenaSlot α :=
  if slot.value.isSome then ⟨nextVersion slot.version, none⟩ else slot

/-- Removes every value, in slot order. The last slot emptied is the first reused. -/
def drain (a : Arena α) : List α × Arena α :=
  (a.values, { a with
    slots := a.slots.map vacate
    free := a.occupied.reverse ++ a.free
    live := 0 })

end Arena

end Tenancy
