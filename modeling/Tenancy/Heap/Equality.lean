import Tenancy.Heap.Basic

/-!
Equality of values.

Numbers are compared by numeric value, strings and buffers by their contents, objects by identity,
and arrays, mappings and functions as payloads. The digest of a value is what its hash is made from.
A key is found in a mapping by its digest and by equality. Structural equality also looks inside
containers; it takes a pair of containers that it meets again below itself as equal.
-/

namespace Tenancy

structure Likeness where
  alike : Bool
  hashed : List Value := []

/-- Whether all are alike. What follows the first that is not is left alone. -/
def Likeness.all (f : α → Likeness) : List α → Likeness
  | [] => ⟨true, []⟩
  | a :: rest =>
    let first := f a
    if first.alike then
      let others := all f rest
      ⟨others.alike, first.hashed ++ others.hashed⟩
    else first

namespace Heap

def sameContents (h : Heap) (a b : Nat) : Bool :=
  match h.payload? a, h.payload? b with
  | some (.string s), some (.string t) => s == t
  | some (.buffer s), some (.buffer t) => s.bytes == t.bytes
  | _, _ => false

def equals (h : Heap) : Value → Value → Bool
  | .nil, .nil => true
  | .integer a, .integer b => a == b
  | .real a, .real b => a.eq b
  | .integer a, .real b => b.integral? == some a
  | .real a, .integer b => a.integral? == some b
  | .object a, .object b => a == b
  | .ref r, .ref s => r.kind == s.kind && (r.id == s.id || h.sameContents r.id s.id)
  | _, _ => false

/-- Bytes past the first 64 do not count. -/
def digestBytes (bytes : List UInt8) : Digest := .bytes (bytes.take 64)

def freshDigest (h : Heap) (id : Nat) : Digest :=
  match h.payload? id with
  | some (.string text) => digestBytes text.toUTF8.toList
  | some (.buffer b) => digestBytes b.bytes
  | _ => .spent

/-- Integral reals share the digest of the integer. -/
def digest (h : Heap) : Value → Digest
  | .nil => .nil
  | .integer i => .word i.toUInt64
  | .real r =>
    match r.integral? with
    | some i => .word i.toUInt64
    | none => .word r.bits
  | .object id => .word id.global.raw
  | .ref ⟨.string, id⟩ | .ref ⟨.buffer, id⟩ =>
    (h.cells[id]?.bind Cell.digest).getD (h.freshDigest id)
  | .ref r => .identity r.id

def keepDigest (h : Heap) (v : Value) (digest : Digest) : Heap :=
  match v with
  | .ref ⟨.string, id⟩ | .ref ⟨.buffer, id⟩ => h.modifyCell id fun c => { c with digest }
  | _ => h

/-- Hashes a value: the digest of a string or a buffer is kept. -/
def note (h : Heap) (v : Value) : Heap := h.keepDigest v (h.digest v)

def matchesAt (h : Heap) (digest : Digest) (key : Value) (e : Entry) : Bool :=
  h.equals key e.key && e.digest == digest

/-- Whether the search for a key needs its digest: it does not while there is nothing to choose. -/
def searched (entries : List Entry) : Bool := 2 ≤ entries.length

def find? (h : Heap) (key : Value) (entries : List Entry) : Option Value :=
  let found :=
    if searched entries then entries.find? (h.matchesAt (h.digest key) key)
    else entries.find? fun e => h.equals key e.key
  found.map Entry.value

/-- Sets the value at the first entry where a key with this digest is found, or at the end. -/
def putAt (h : Heap) (digest : Digest) (key value : Value) : List Entry → List Entry
  | [] => [⟨key, value, digest⟩]
  | e :: rest =>
    if h.matchesAt digest key e then { e with value } :: rest
    else e :: h.putAt digest key value rest

def put (h : Heap) (key value : Value) (entries : List Entry) : List Entry :=
  h.putAt (h.digest key) key value entries

/-- Structural equality below the pairs of containers on `path`, to a depth of `fuel`. -/
def likenessBelow (h : Heap) : Nat → List (Nat × Nat) → Value → Value → Likeness
  | 0, _, _, _ => ⟨false, []⟩
  | fuel + 1, path, a, b =>
    match a, b with
    | .ref ⟨.array, r⟩, .ref ⟨.array, s⟩ =>
      if r == s || path.contains (r, s) then ⟨true, []⟩
      else
        match h.items? a, h.items? b with
        | some xs, some ys =>
          if xs.length == ys.length then
            .all (fun p => h.likenessBelow fuel ((r, s) :: path) p.1 p.2) (xs.zip ys)
          else ⟨false, []⟩
        | _, _ => ⟨false, []⟩
    | .ref ⟨.mapping, r⟩, .ref ⟨.mapping, s⟩ =>
      if r == s || path.contains (r, s) then ⟨true, []⟩
      else
        match h.entries? a, h.entries? b with
        | some xs, some ys =>
          if xs.length == ys.length then
            let hashed (key : Value) : List Value := if searched ys then [key] else []
            .all (fun e =>
              match h.find? e.key ys with
              | none => ⟨false, hashed e.key⟩
              | some value =>
                let inner := h.likenessBelow fuel ((r, s) :: path) e.value value
                ⟨inner.alike, hashed e.key ++ inner.hashed⟩) xs
          else ⟨false, []⟩
        | _, _ => ⟨false, []⟩
    | .ref ⟨.function, _⟩, .ref ⟨.function, _⟩ => ⟨h.function? a == h.function? b, []⟩
    | _, _ => ⟨h.equals a b, []⟩

/-- No path is longer than there are pairs of payloads, so the depth is enough. -/
def likeness (h : Heap) (a b : Value) : Likeness :=
  h.likenessBelow (h.cells.size * h.cells.size + 2) [] a b

def deepEquals (h : Heap) (a b : Value) : Bool := (h.likeness a b).alike

def compareDeeply (h : Heap) (a b : Value) : Bool × Heap :=
  let l := h.likeness a b
  (l.alike, l.hashed.foldl note h)

end Heap

end Tenancy
