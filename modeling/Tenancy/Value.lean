import Tenancy.Binary64.Rounding
import Tenancy.Ident

/-!
Dynamic values and their types.

A value is a scalar or a reference. A reference names a payload on the heap by number and carries
the kind of that payload, so that its type is known even after the payload is gone.
-/

namespace Tenancy

inductive Kind where
  | string | buffer | array | mapping | function
deriving DecidableEq

structure Ref where
  kind : Kind
  id : Nat
deriving DecidableEq

inductive Value where
  | nil
  | integer (i : Int64)
  | real (r : Binary64)
  | object (id : ObjectId)
  | ref (r : Ref)
deriving DecidableEq

instance : Inhabited Value := ⟨.nil⟩

inductive ValueType where
  | nil | integer | real | object
  | payload (kind : Kind)
deriving DecidableEq

def Kind.name : Kind → String
  | .string => "string"
  | .buffer => "buffer"
  | .array => "array"
  | .mapping => "mapping"
  | .function => "function"

namespace ValueType

def name : ValueType → String
  | .nil => "nil"
  | .integer => "int"
  | .real => "real"
  | .object => "object"
  | .payload kind => kind.name

def ofName? : String → Option ValueType
  | "nil" | "void" => some .nil
  | "int" | "integer" => some .integer
  | "real" | "float" => some .real
  | "object" => some .object
  | "string" => some (.payload .string)
  | "buffer" => some (.payload .buffer)
  | "array" => some (.payload .array)
  | "mapping" => some (.payload .mapping)
  | "function" => some (.payload .function)
  | _ => none

def isReference : ValueType → Bool
  | .payload _ => true
  | _ => false

/-- The name of the constructor, as it stands inside larger descriptions. -/
def describe : ValueType → String
  | .nil => "Nil"
  | .integer => "Integer"
  | .real => "Real"
  | .object => "Object"
  | .payload .string => "String"
  | .payload .buffer => "Buffer"
  | .payload .array => "Array"
  | .payload .mapping => "Mapping"
  | .payload .function => "Function"

end ValueType

inductive ParamType where
  | any
  | exact (type : ValueType)
deriving DecidableEq

namespace Value

def type : Value → ValueType
  | .nil => .nil
  | .integer _ => .integer
  | .real _ => .real
  | .object _ => .object
  | .ref r => .payload r.kind

def ref? : Value → Option Ref
  | .ref r => some r
  | _ => none

def integer? : Value → Option Int64
  | .integer i => some i
  | _ => none

def real? : Value → Option Binary64
  | .real r => some r
  | .integer i => some (.ofInt64 i)
  | _ => none

def object? : Value → Option ObjectId
  | .object id => some id
  | _ => none

def sameRef (a b : Value) : Bool :=
  match a, b with
  | .ref r, .ref s => r.id == s.id
  | _, _ => false

def truthy : Value → Bool
  | .nil => false
  | .integer i => i != 0
  | .real r => !r.isZero
  | .object id => !id.global.isNull
  | .ref _ => true

def ofBool (b : Bool) : Value := .integer (if b then 1 else 0)

end Value

namespace ParamType

def ofName? (name : String) : Option ParamType :=
  if name = "mixed" ∨ name = "any" then some .any
  else (ValueType.ofName? name).map .exact

def name : ParamType → String
  | .any => "mixed"
  | .exact type => type.name

def describe : ParamType → String
  | .any => "Any"
  | .exact type => s!"Exact({type.describe})"

def accepts : ParamType → Value → Bool
  | .any, _ => true
  | .exact type, value => value.type == type

end ParamType

end Tenancy
