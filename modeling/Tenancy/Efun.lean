import Tenancy.Heap.Render
import Tenancy.Prototype

/-!
Efuns: native functions that code calls by name.

An efun of a package is found as `package.name`, where the last registration counts, and as `name`,
where the first one does.
-/

namespace Tenancy

structure EfunRegistry where
  functions : List Function := []
  /-- Numbers of functions by name, each name once. -/
  names : List (String × Nat) := []

namespace EfunRegistry

def bindName (names : List (String × Nat)) (name : String) (number : Nat) : List (String × Nat) :=
  if names.any (·.1 = name) then names.map fun e => if e.1 = name then (name, number) else e
  else names ++ [(name, number)]

def bindNameIfFree (names : List (String × Nat)) (name : String) (number : Nat) :
    List (String × Nat) :=
  if names.any (·.1 = name) then names else names ++ [(name, number)]

def add (r : EfunRegistry) (package : String) (body : Native Value) (text : String) (h : Heap) :
    Except PrototypeError (Function × EfunRegistry × Heap) := do
  let p ← Prototype.parse text
  let number := r.functions.length
  let (f, h) := p.toFunction number (.native body) h
  let names :=
    if package = "" then bindName r.names p.name number
    else bindNameIfFree (bindName r.names (package ++ "." ++ p.name) number) p.name number
  return (f, { functions := r.functions ++ [f], names }, h)

def find? (r : EfunRegistry) (name : String) : Option Function := do
  r.functions[← r.names.lookup name]?

def describe (r : EfunRegistry) : String :=
  s!"EfunRegistry \x7b functions: {r.functions.length}, names: {r.names.length} \x7d"

end EfunRegistry

namespace Efun

def programName : String := "/efun"

def argument (index : Nat) : Native Value := do return (← Native.ask .args).getD index .nil

def size? (h : Heap) (v : Value) : Option Nat :=
  match v.type with
  | .payload .string => (h.text? v).map String.utf8ByteSize
  | .payload .buffer => (h.bytes? v).map List.length
  | .payload .array => (h.items? v).map List.length
  | .payload .mapping => (h.entries? v).map List.length
  | _ => some 0

def sizeOf : Native Value := do
  let v ← argument 0
  match size? (← Native.ask .heap) v with
  | some n => return .integer (Int64.ofNat n)
  | none => .raise .freedValue

def typeOf : Native Value := do
  let v ← argument 0
  Native.ask (.make .here (.string v.type.name))

/-- A string is its own text. -/
def toText : Native Value := do
  let v ← argument 0
  if v.type = .payload .string then return v
  let h ← Native.ask .heap
  Native.ask (.make .here (.string (h.text v)))

def thisObject : Native Value := do return .object (← Native.ask .thisObject)

def print : Native Value := do
  let args ← Native.ask .args
  let h ← Native.ask .heap
  Native.ask (.output (String.join (args.map h.text)))
  return .nil

def builtins : List (Native Value × String) := [
  (sizeOf, "int sizeof(mixed value)"),
  (typeOf, "string typeof(mixed value)"),
  (toText, "string to_string(mixed value)"),
  (thisObject, "object this_object()"),
  (print, "void print(...)")]

def registerBuiltins (r : EfunRegistry) (h : Heap) : EfunRegistry × Heap :=
  builtins.foldl (fun (r, h) e =>
    match r.add "std" e.1 e.2 h with
    | .ok (_, r, h) => (r, h)
    | .error _ => (r, h)) (r, h)

end Efun

end Tenancy
