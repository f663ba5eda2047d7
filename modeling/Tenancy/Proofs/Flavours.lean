import Tenancy.Machine.Execute
import Tenancy.Proofs.Action

/-!
Code for numbers and dynamic code.

Where an instruction for two integers or two reals takes its short cut, the dynamic operator comes
to the same value without touching the heap; elsewhere the two are one. So an instruction can be
exchanged for its dynamic form: at every state it writes the same, raises the same fault, and leaves
the same state behind.
-/

namespace Tenancy

open Tenancy.Action Opcode

namespace Comparison

/-- The test that a comparison stands for, by the order and the weak order. -/
def test {α : Type} (lt le : α → α → Bool) (a b : α) : Comparison → Bool
  | .lt => lt a b
  | .le => le a b
  | .gt => lt b a
  | .ge => le b a

theorem holds_ordering (c : Comparison) (x y : Int) :
    c.holds (if x < y then .lt else if x = y then .eq else .gt) = c.test (· < ·) (· ≤ ·) x y := by
  rcases Int.lt_trichotomy x y with less | same | more
  · have below : ¬ y < x := by omega
    cases c <;> simp [holds, test, less, below, Int.le_of_lt less]
  · cases c <;> simp [holds, test, same]
  · have above : ¬ x < y ∧ x ≠ y := by omega
    cases c <;> simp [holds, test, more, above, Int.le_of_lt more]

theorem holds_compare (c : Comparison) (a b : Int64) :
    c.holds (compare a b) = c.test (· < ·) (· ≤ ·) a b := by
  have order : compare a b =
      if a.toInt < b.toInt then .lt else if a.toInt = b.toInt then .eq else .gt := by
    simp only [← Int64.lt_iff_toInt_lt, Int64.toInt_inj]
    rfl
  rw [order, holds_ordering]
  cases c <;> simp [test, Int64.lt_iff_toInt_lt, Int64.le_iff_toInt_le]

end Comparison

theorem Binary64.any_compare? (c : Comparison) (a b : Binary64) :
    (a.compare? b).any c.holds = c.test lt le a b := by
  by_cases numbers : comparable a b = true
  · have back : comparable b a = true := by simpa [comparable, Bool.and_comm] using numbers
    have order : a.compare? b =
        some (if a.rank < b.rank then .lt else if a.rank = b.rank then .eq else .gt) := by
      simp only [compare?, lt, eq, numbers, back, Bool.true_and, decide_eq_true_eq, beq_iff_eq]
      split
      · rfl
      · split
        · rfl
        · rw [if_pos (by omega)]
    rw [order, Option.any_some, Comparison.holds_ordering]
    cases c <;> simp [Comparison.test, lt, le, numbers, back]
  · have back : ¬ comparable b a = true := by simpa [comparable, Bool.and_comm] using numbers
    cases c <;> simp [compare?, lt, le, eq, Comparison.test, numbers, back]

namespace Operator

variable {owner : ListId} {op : BinaryOp} {flavour : Flavour} {a b v : Value}

theorem binary_of_integers (short : shortcut .integer op (.integer x) (.integer y) = some v)
    (h : Heap) : binary owner op (.integer x) (.integer y) h = .ok v h := by
  cases op with
  | add | sub | mul | eq | ne =>
    cases short
    rfl
  | div | rem =>
    by_cases zero : y = 0
    · simp [shortcut, integers, zero] at short
    · obtain rfl : _ = v := by simpa [shortcut, integers, zero] using short
      simp [binary, div, rem, zero]
  | lt | le | gt | ge =>
    cases short
    simp [binary, compare, Comparison.holds_compare, Comparison.test]

theorem binary_of_reals (short : shortcut .real op (.real x) (.real y) = some v) (h : Heap) :
    binary owner op (.real x) (.real y) h = .ok v h := by
  cases op with
  | add | sub | mul | eq | ne =>
    cases short
    rfl
  | div =>
    by_cases zero : y.isZero = true
    · simp [shortcut, reals, zero] at short
    · obtain rfl : _ = v := by simpa [shortcut, reals, zero] using short
      simp [binary, div, reals?, Value.real?, zero]
  | rem => simp [shortcut] at short
  | lt | le | gt | ge =>
    cases short
    simp [binary, compare, reals?, Value.real?, Binary64.any_compare?, Comparison.test]

theorem binary_of_shortcut (short : shortcut flavour op a b = some v) (h : Heap) :
    binary owner op a b h = .ok v h := by
  cases flavour with
  | dynamic => simp [shortcut] at short
  | integer =>
    obtain ⟨x, y, rfl, rfl⟩ : ∃ x y, a = .integer x ∧ b = .integer y := by
      cases a <;> cases b <;> cases op <;> simp_all [shortcut, integers, testIntegers]
    exact binary_of_integers short h
  | real =>
    obtain ⟨x, y, rfl, rfl⟩ : ∃ x y, a = .real x ∧ b = .real y := by
      cases a <;> cases b <;> cases op <;> simp_all [shortcut, reals, testReals]
    exact binary_of_reals short h

theorem typed_eq_binary (owner : ListId) (op : BinaryOp) (flavour : Flavour) :
    typed owner op flavour = binary owner op := by
  funext a b h
  unfold typed
  cases short : shortcut flavour op a b with
  | some v => exact (binary_of_shortcut short h).symm
  | none => rfl

end Operator

theorem Opcode.ofByte?_toByte (offered : flavour ∈ op.flavours) :
    ofByte? (binary op flavour).toByte = some (.binary op flavour) := by
  cases op <;> cases flavour <;> revert offered <;> decide

namespace Exec

/-- Code for integers or for reals does what dynamic code does, whatever its operands are. -/
theorem instruction_eq_dynamic (frame : Frame) (code : Array Instruction) (pc : Nat)
    (i : Instruction) (op : BinaryOp) (flavour : Flavour) (offered : flavour ∈ op.flavours)
    (here : code[pc]? = some { i with code := (Opcode.binary op flavour).toByte }) :
    instruction frame code pc = instruction frame
      (code.setIfInBounds pc { i with code := (Opcode.binary op .dynamic).toByte }) pc := by
  have within := (Array.getElem?_eq_some_iff.mp here).1
  have dynamic : Flavour.dynamic ∈ op.flavours := by cases op <;> decide
  unfold instruction
  rw [here, Array.getElem?_setIfInBounds_self, if_pos within]
  simp only [Instruction.op?, ofByte?_toByte offered, ofByte?_toByte dynamic, execute,
    Operator.typed_eq_binary]

/-- A function of two arguments and one local, that divides in code for integers. -/
def divider : Frame where
  object := 0
  program := default
  function := { name := "divide", number := 0 }
  component := 0
  memberOffset := 0
  memberCount := 0
  isEfun := false
  argsBase := 0
  argc := 2
  argSlots := 2
  localsBase := 2
  localCount := 1
  domainDepth := 0

def division (flavour : Flavour) : Instruction :=
  { code := (binary .div flavour).toByte
    first := .local 0, second := .argument 0, third := .argument 1 }

def dividing : State where
  world := { domainIds := .empty 1, objectIds := .empty 1 }
  thread :=
    { key := ⟨1⟩, stack := #[.integer 1, .real ⟨0⟩, .nil], domains := [], scratch := ⟨0⟩
      transfer := ⟨0⟩, home := 0 }

def fault? {α : Type} : EStateM.Result Trouble State α → Option Fault
  | .error (.fault f) _ => some f
  | _ => none

theorem instruction_eq_dynamic_division :
    instruction divider #[division .integer] 0 = instruction divider #[division .dynamic] 0 ∧
    fault? (instruction divider #[division .integer] 0 dividing) = some .divisionByZero :=
  ⟨instruction_eq_dynamic divider #[division .integer] 0 (division .integer) .div .integer
    (by decide) (by decide +kernel), by decide +kernel⟩

end Exec

end Tenancy
