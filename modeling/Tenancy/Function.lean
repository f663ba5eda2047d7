import Tenancy.Native

/-!
Functions, their parameters, and the checks on arguments.
-/

namespace Tenancy

structure Traits where
  /-- Takes more arguments than it declares. -/
  variadic : Bool := false
  /-- May return nil whatever its declared type. -/
  nullable : Bool := false
  /-- Called by name only from its own program. -/
  internal : Bool := false
deriving DecidableEq

structure Parameter where
  name : String
  type : ParamType
  nullable : Bool := false
  default : Option Value := none

def Parameter.accepts (p : Parameter) (v : Value) : Bool :=
  p.type.accepts v || (v == .nil && (p.nullable || p.default.isSome))

inductive Body where
  | native (body : Native Value)
  | code (instructions : Array Instruction)
  | undefined

def Body.describe : Body → String
  | .native _ => "Native"
  | .code instructions => s!"ByteCode({instructions.size} instructions)"
  | .undefined => "Undefined"

structure Function where
  name : String
  number : Nat
  traits : Traits := {}
  params : List Parameter := []
  returnType : ParamType := .any
  locals : Nat := 0
  body : Body := .undefined

namespace Function

def minArgs (f : Function) : Nat := (f.params.takeWhile (·.default.isNone)).length

def maxArgs (f : Function) : Nat := f.params.length

def defaults (f : Function) : List Value := f.params.filterMap (·.default)

def typeFault? (f : Function) : Nat → List Parameter → List Value → Option Fault
  | index, p :: params, v :: args =>
    match p.type with
    | .any => f.typeFault? (index + 1) params args
    | .exact expected =>
      if p.accepts v then f.typeFault? (index + 1) params args
      else some (.badArgumentType f.name index expected v.type)
  | _, _, _ => none

def checkArguments (f : Function) (args : List Value) : Except Fault Unit :=
  if args.length < f.minArgs then .error (.badArgumentCount f.minArgs args.length)
  else if f.maxArgs < args.length && !f.traits.variadic then
    .error (.badArgumentCount f.maxArgs args.length)
  else
    match f.typeFault? 0 f.params args with
    | some fault => .error fault
    | none => .ok ()

/-- What stands in an argument slot when the call begins to run: declared slots that the caller left
open hold their default. -/
def slotValue (f : Function) (argc slot : Nat) (given : Value) : Value :=
  if slot < argc then given
  else
    match f.params[slot]? with
    | some p => p.default.getD .nil
    | none => given

def padDefaults (f : Function) (argc : Nat) (slots : List Value) : List Value :=
  slots.mapIdx fun slot given => f.slotValue argc slot given

end Function

end Tenancy
