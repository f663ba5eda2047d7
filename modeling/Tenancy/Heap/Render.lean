import Tenancy.Heap.Basic
import Tenancy.Text.Quoted

/-!
Values as text, and as trees.

A container that occurs below itself is cut off where it occurs again. Strings inside a container
are quoted; on its own a string is plain in text and quoted in a description.
-/

namespace Tenancy

inductive View where
  | nil
  | integer (i : Int64)
  | real (r : Binary64)
  | object (id : ObjectId)
  | string (text : String)
  | buffer (bytes : List UInt8)
  | array (items : List View)
  | mapping (entries : List (View × View))
  | function (object : ObjectId) (name : String)
  | freed (kind : Kind)
  /-- The enclosing container that stands here, counted from the outermost. -/
  | cycle (depth : Nat)

namespace Heap

/-- The text of a value below the containers on `path`, to a depth of `fuel`. -/
def render (h : Heap) : Nat → Bool → List Nat → Value → String
  | 0, _, _, _ => "<cycle>"
  | fuel + 1, nested, path, v =>
    match v with
    | .nil => "nil"
    | .integer i => toString i.toInt
    | .real r => r.text
    | .object id => s!"<object {id.text}>"
    | .ref r =>
      match h.payload? r.id with
      | none => "<freed>"
      | some (.string text) => if nested then Text.quote text else text
      | some (.buffer b) => s!"<buffer {b.bytes.length} bytes>"
      | some (.function object name) => s!"<function {name}@{object.text}>"
      | some (.array items) =>
        if path.contains r.id then "<cycle>"
        else
          let texts := items.map (h.render fuel true (r.id :: path))
          "(\x7b " ++ ", ".intercalate texts ++ " \x7d)"
      | some (.mapping entries) =>
        if path.contains r.id then "<cycle>"
        else
          let texts := entries.map fun e =>
            h.render fuel true (r.id :: path) e.key ++ ": "
              ++ h.render fuel true (r.id :: path) e.value
          "([ " ++ ", ".intercalate texts ++ " ])"

/-- Containers nest at most as deep as there are payloads. -/
def text (h : Heap) (v : Value) : String := h.render (h.cells.size + 2) false [] v

def describe (h : Heap) (v : Value) : String := h.render (h.cells.size + 2) true [] v

def viewBelow (h : Heap) : Nat → List Nat → Value → View
  | 0, path, _ => .cycle path.length
  | fuel + 1, path, v =>
    match v with
    | .nil => .nil
    | .integer i => .integer i
    | .real r => .real r
    | .object id => .object id
    | .ref r =>
      match h.payload? r.id with
      | none => .freed r.kind
      | some (.string text) => .string text
      | some (.buffer b) => .buffer b.bytes
      | some (.function object name) => .function object name
      | some (.array items) =>
        match path.idxOf? r.id with
        | some depth => .cycle depth
        | none => .array (items.map (h.viewBelow fuel (path ++ [r.id])))
      | some (.mapping entries) =>
        match path.idxOf? r.id with
        | some depth => .cycle depth
        | none => .mapping (entries.map fun e =>
          (h.viewBelow fuel (path ++ [r.id]) e.key, h.viewBelow fuel (path ++ [r.id]) e.value))

def view (h : Heap) (v : Value) : View := h.viewBelow (h.cells.size + 2) [] v

end Heap

end Tenancy
