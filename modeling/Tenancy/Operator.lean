import Tenancy.Heap.Container

/-!
Operators on values of any type.

An operator that makes a payload puts it into the list `owner`. A failed operator leaves contents
and lists as they were.
-/

namespace Tenancy

inductive Comparison where
  | lt | le | gt | ge
deriving DecidableEq

def Comparison.symbol : Comparison → String
  | .lt => "<"
  | .le => "<="
  | .gt => ">"
  | .ge => ">="

def Comparison.holds : Comparison → Ordering → Bool
  | .lt, o => o == .lt
  | .le, o => o != .gt
  | .gt, o => o == .gt
  | .ge, o => o != .lt

namespace Operator

open HeapM

def unsupported (op : String) (a b : Value) : Fault := .unsupportedOperands op a.type b.type

def reals? (a b : Value) : Option (Binary64 × Binary64) :=
  match a.real?, b.real? with
  | some x, some y => some (x, y)
  | _, _ => none

def joinText? (h : Heap) : Value → Option String
  | .integer i => some (toString i.toInt)
  | .real r => some r.text
  | v => h.text? v

def merge (owner : ListId) (entries : List (Value × Value)) : HeapM Value := do
  let merged ← place owner (.mapping [])
  entries.forM fun e => mappingInsert merged e.1 e.2
  return merged

def add (owner : ListId) (a b : Value) : HeapM Value := do
  match a, b with
  | .integer x, .integer y => return .integer (x + y)
  | _, _ =>
  match reals? a b with
  | some (x, y) => return .real (x.add y)
  | none =>
  let h ← get
  match a.type, b.type with
  | .payload .array, .payload .array =>
    match h.items? a, h.items? b with
    | some xs, some ys => place owner (.array (xs ++ ys))
    | _, _ => throw .freedValue
  | .payload .mapping, .payload .mapping =>
    match h.entries? a, h.entries? b with
    | some xs, some ys => merge owner ((xs ++ ys).map fun e => (e.key, e.value))
    | _, _ => throw .freedValue
  | .payload .string, _ | _, .payload .string =>
    match joinText? h a, joinText? h b with
    | some s, some t => place owner (.string (s ++ t))
    | _, _ => throw (unsupported "+" a b)
  | _, _ => throw (unsupported "+" a b)

def sub (owner : ListId) (a b : Value) : HeapM Value := do
  match a, b with
  | .integer x, .integer y => return .integer (x - y)
  | _, _ =>
  match reals? a b with
  | some (x, y) => return .real (x.sub y)
  | none =>
  let h ← get
  match a.type, b.type with
  | .payload .array, .payload .array =>
    match h.items? a, h.items? b with
    | some xs, some ys => place owner (.array (xs.filter fun x => !ys.any (h.equals · x)))
    | _, _ => throw .freedValue
  | _, _ => throw (unsupported "-" a b)

def mul (a b : Value) : Except Fault Value :=
  match a, b with
  | .integer x, .integer y => .ok (.integer (x * y))
  | _, _ =>
    match reals? a b with
    | some (x, y) => .ok (.real (x.mul y))
    | none => .error (unsupported "*" a b)

def div (a b : Value) : Except Fault Value :=
  match a, b with
  | .integer x, .integer y => if y = 0 then .error .divisionByZero else .ok (.integer (x / y))
  | _, _ =>
    match reals? a b with
    | some (x, y) => if y.isZero then .error .divisionByZero else .ok (.real (x.div y))
    | none => .error (unsupported "/" a b)

def rem (a b : Value) : Except Fault Value :=
  match a, b with
  | .integer x, .integer y => if y = 0 then .error .divisionByZero else .ok (.integer (x % y))
  | _, _ => .error (unsupported "%" a b)

def neg : Value → Except Fault Value
  | .integer i => .ok (.integer (-i))
  | .real r => .ok (.real r.neg)
  | v => .error (unsupported "-" v .nil)

def not (v : Value) : Value := .ofBool !v.truthy

def equal (h : Heap) (a b : Value) : Value := .ofBool (h.equals a b)

def notEqual (h : Heap) (a b : Value) : Value := .ofBool !h.equals a b

/-- Nothing compares with a real that is no number. -/
def compare (h : Heap) (c : Comparison) (a b : Value) : Except Fault Value :=
  match a, b with
  | .integer x, .integer y => .ok (.ofBool (c.holds (Ord.compare x y)))
  | _, _ =>
  match reals? a b with
  | some (x, y) => .ok (.ofBool ((x.compare? y).any c.holds))
  | none =>
  match a.type, b.type with
  | .payload .string, .payload .string =>
    match h.text? a, h.text? b with
    | some s, some t => .ok (.ofBool (c.holds (Ord.compare s t)))
    | _, _ => .error .freedValue
  | _, _ => .error (unsupported c.symbol a b)

def position (container index : Value) (length : Nat) : Except Fault Nat :=
  match index with
  | .integer i =>
    if 0 ≤ i ∧ i.toInt < length then .ok i.toInt.toNat
    else .error (.indexOutOfRange i length)
  | _ => .error (.notIndexable container.type index.type)

/-- Positions lie within the container: no read falls back on its default, no write goes astray. -/
theorem position_lt (found : position container key length = .ok i) : i < length := by
  unfold position at found
  split at found
  · split at found <;> cases found
    rename_i bounds
    have start : (0 : Int64).toInt ≤ _ := Int64.le_iff_toInt_le.mp bounds.1
    rw [Int64.toInt_zero] at start
    omega
  · cases found

/-- A missing key reads as nil. -/
def indexGet (container key : Value) : HeapM Value := do
  let h ← get
  match container.type with
  | .payload .array =>
    match h.items? container with
    | none => throw .freedValue
    | some items => return items.getD (← ofExcept (position container key items.length)) .nil
  | .payload .mapping =>
    match h.entries? container with
    | none => throw .freedValue
    | some entries => return (← lookup entries key).getD .nil
  | .payload .string =>
    match h.text? container with
    | none => throw .freedValue
    | some text =>
      let bytes := text.toUTF8.toList
      let i ← ofExcept (position container key bytes.length)
      return .integer (Int64.ofNat (bytes.getD i 0).toNat)
  | .payload .buffer =>
    match h.bytes? container with
    | none => throw .freedValue
    | some bytes =>
      let i ← ofExcept (position container key bytes.length)
      return .integer (Int64.ofNat (bytes.getD i 0).toNat)
  | _ => throw (.notIndexable container.type key.type)

/-- Writing to a buffer, even in vain, makes its hash be found anew. -/
def setByte (id : Nat) (container key : Value) (byte : UInt8) : HeapM Unit := do
  modify (·.forgetDigest id)
  let h ← get
  match h.payload? id with
  | some (.buffer b) =>
    let i ← ofExcept (position container key b.bytes.length)
    set (h.write id (.buffer { b with bytes := b.bytes.set i byte }))
  | _ => throw .freedValue

def indexSet (container key value : Value) : HeapM Unit :=
  match container with
  | .ref ⟨.array, _⟩ => updateArray container fun items =>
    (position container key items.length).map fun i => items.set i value
  | .ref ⟨.mapping, _⟩ => mappingInsert container key value
  | .ref ⟨.buffer, id⟩ =>
    match value with
    | .integer i => setByte id container key i.toUInt64.toUInt8
    | _ => throw (.unsupportedOperands "[]=" (.payload .buffer) value.type)
  | .ref ⟨.string, _⟩ => throw (.readOnly (.payload .string))
  | _ => throw (.notIndexable container.type key.type)

def binary (owner : ListId) (op : BinaryOp) (a b : Value) : HeapM Value :=
  match op with
  | .add => add owner a b
  | .sub => sub owner a b
  | .mul => ofExcept (mul a b)
  | .div => ofExcept (div a b)
  | .rem => ofExcept (rem a b)
  | .eq => do return equal (← get) a b
  | .ne => do return notEqual (← get) a b
  | .lt => do ofExcept (compare (← get) .lt a b)
  | .le => do ofExcept (compare (← get) .le a b)
  | .gt => do ofExcept (compare (← get) .gt a b)
  | .ge => do ofExcept (compare (← get) .ge a b)

end Operator

end Tenancy
