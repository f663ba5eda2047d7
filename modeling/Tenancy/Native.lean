import Tenancy.Heap.Draft

/-!
Native bodies: functions written outside the register machine.

A native body is a tree of commands. It sees the thread that runs it, the heap and the world only
through the replies.
-/

namespace Tenancy

inductive Request where
  | other (target : ObjectId) (name : String) (args : List Value)
  /-- A function by number, in a component as the running component numbers them. -/
  | far (component function : Nat) (args : List Value)
  /-- A function of the object by name, as the running component sees it. -/
  | self (name : String) (args : List Value)
  | efun (name : String) (args : List Value)

/-- Depths of the stacks of a thread. -/
structure Mark where
  calls : Nat
  stack : Nat
  domains : Nat
deriving DecidableEq

inductive Share where
  /-- The domain that the body runs in. -/
  | here
  | loose
  | exempt (exemption : Exemption)

inductive Command where
  | argc
  /-- All argument slots, with defaults filled in. -/
  | args
  | thisObject
  | objectSize
  | callDepth
  | member (index : Nat)
  /-- A value that belongs elsewhere is copied first. -/
  | setMember (index : Nat) (value : Value)
  | heap
  | make (share : Share) (draft : Draft)
  | binary (op : BinaryOp) (left right : Value)
  | indexGet (container key : Value)
  | indexSet (container key value : Value)
  | arrayPush (container value : Value)
  /-- Roots a value until the body ends. -/
  | keep (value : Value)
  /-- The result is kept. On a fault the frames of the call stay in place. -/
  | call (request : Request)
  /-- As a call of another object, but a fault unwinds to here. -/
  | tryCall (target : ObjectId) (name : String) (args : List Value)
  | savePoint
  | restore (mark : Mark)
  | output (text : String)
  /-- Writes a value to the journal. -/
  | report (value : Value)
  | lookup (name : String)
  | newObject (program : String)
  | destruct (target : ObjectId)
  | destroyDomain (domain : DomainId)
  | domainId
  | domainName
  | domainSize
  /-- Collects the domain that the body runs in and answers how many payloads were freed. -/
  | collect (roots : List Value)

def Command.Reply : Command → Type
  | .argc | .objectSize | .callDepth | .domainSize | .collect _ => Nat
  | .args => List Value
  | .thisObject | .lookup _ => ObjectId
  | .member _ | .binary _ _ _ | .indexGet _ _ | .call _ | .tryCall _ _ _ => Except Fault Value
  | .setMember _ _ | .indexSet _ _ _ | .arrayPush _ _ | .destroyDomain _ => Except Fault Unit
  | .heap => Heap
  | .make _ _ => Value
  | .savePoint => Mark
  | .keep _ | .restore _ | .output _ | .report _ => Unit
  | .newObject _ => Option ObjectId
  | .destruct _ => Bool
  | .domainId => DomainId
  | .domainName => String

inductive Native (α : Type) where
  | done (a : α)
  | raise (fault : Fault)
  | act (command : Command) (next : command.Reply → Native α)

namespace Native

def bind {α β : Type} (f : α → Native β) : Native α → Native β
  | .done a => f a
  | .raise fault => .raise fault
  | .act command next => .act command fun reply => (next reply).bind f

instance : Monad Native where
  pure := .done
  bind m f := m.bind f

def ask (command : Command) : Native command.Reply := .act command .done

def ofExcept {α : Type} : Except Fault α → Native α
  | .ok a => .done a
  | .error fault => .raise fault

end Native

end Tenancy
