import Mathlib.Data.List.DropRight
import Mathlib.Data.List.TakeWhile
import Tenancy.Prototype

/-!
The grammar of prototypes.

A text is a row of tokens with blanks before each of them and at the end. Names and words go on for
as long as their characters do. The rules say which rows of tokens make a prototype, and which one.
-/

namespace Tenancy.Prototype

open List

/-- The tokens that stand for themselves. -/
inductive Mark where
  | question | opening | closing | comma | equals | dots
deriving DecidableEq

def Mark.text : Mark → String
  | .question => "?"
  | .opening => "("
  | .closing => ")"
  | .comma => ","
  | .equals => "="
  | .dots => "..."

inductive Token where
  | mark (m : Mark)
  | name (text : String)
  /-- A literal that is not quoted. -/
  | word (text : String)
  | quoted (text : String)

def Token.chars : Token → List Char
  | .mark m => m.text.toList
  | .name text => text.toList
  | .word text => text.toList
  | .quoted text => '"' :: (text.toList ++ ['"'])

/-- Whether the text of the token may be one of its kind. -/
def Token.Proper : Token → Prop
  | .mark _ => True
  | .name text => text.toList ≠ [] ∧ ∀ c ∈ text.toList, isNameChar c = true
  | .word text => text.toList ≠ [] ∧ ∀ c ∈ text.toList, isWordChar c = true
  | .quoted text => '"' ∉ text.toList

/-- Names and words end where a character follows that they cannot have. -/
def Token.EndsBefore : Token → List Char → Prop
  | .name _, rest => ∀ c ∈ rest.head?, isNameChar c = false
  | .word _, rest => ∀ c ∈ rest.head?, isWordChar c = false
  | .mark _, _ => True
  | .quoted _, _ => True

def Blank (cs : List Char) : Prop := ∀ c ∈ cs, Text.isBlank c = true

/-- A text begins with a token, after blanks, and goes on with `rest`. -/
def Begins (t : Token) (cs rest : List Char) : Prop :=
  ∃ blanks, Blank blanks ∧ t.Proper ∧ t.EndsBefore rest ∧ cs = blanks ++ (t.chars ++ rest)

/-- The tokens of a text. -/
inductive Spelled : List Token → List Char → Prop
  | nil {cs : List Char} : Blank cs → Spelled [] cs
  | cons {t : Token} {ts : List Token} {cs rest : List Char} :
      Begins t cs rest → Spelled ts rest → Spelled (t :: ts) cs

/-- A mark that may be left out. -/
inductive OptionalRule (m : Mark) : Bool → List Token → Prop
  | absent : OptionalRule m false []
  | present : OptionalRule m true [.mark m]

/-- A word is an integer if it can be, else a real. -/
inductive LiteralRule : Literal → Token → Prop
  | nil : LiteralRule .nil (.word "nil")
  | integer {text : String} {i : Int64} :
      Numeral.int64? text.toList = some i → LiteralRule (.integer i) (.word text)
  | real {text : String} {r : Binary64} : Numeral.int64? text.toList = none →
      Numeral.real? text.toList = some r → LiteralRule (.real r) (.word text)
  | string {text : String} : LiteralRule (.string text) (.quoted text)

inductive DefaultRule : Option Literal → List Token → Prop
  | none : DefaultRule none []
  | some {l : Literal} {t : Token} : LiteralRule l t → DefaultRule (some l) [.mark .equals, t]

/-- `type ['?'] name ['=' literal]` -/
inductive ParamRule : PrototypeParam → List Token → Prop
  | intro {typeName name : String} {type : ParamType} {nullable : Bool} {default : Option Literal}
      {sign value : List Token} : ParamType.ofName? typeName = some type →
      OptionalRule .question nullable sign → DefaultRule default value →
      ParamRule ⟨name, type, nullable, default⟩
        (.name typeName :: (sign ++ .name name :: value))

/-- `param (',' param)* [',' '...']` -/
inductive SomeParamsRule : List PrototypeParam → Bool → List Token → Prop
  | last {p : PrototypeParam} {ts : List Token} :
      ParamRule p ts → SomeParamsRule [p] false ts
  | dots {p : PrototypeParam} {ts : List Token} :
      ParamRule p ts → SomeParamsRule [p] true (ts ++ [.mark .comma, .mark .dots])
  | more {p : PrototypeParam} {ps : List PrototypeParam} {variadic : Bool} {ts us : List Token} :
      ParamRule p ts → SomeParamsRule ps variadic us →
      SomeParamsRule (p :: ps) variadic (ts ++ .mark .comma :: us)

/-- `[param (',' param)* [',' '...'] | '...']` -/
inductive ParamsRule : List PrototypeParam → Bool → List Token → Prop
  | none : ParamsRule [] false []
  | dots : ParamsRule [] true [.mark .dots]
  | some {ps : List PrototypeParam} {variadic : Bool} {ts : List Token} :
      SomeParamsRule ps variadic ts → ParamsRule ps variadic ts

/-- No parameter without a default follows one with a default. -/
def DefaultsLast (ps : List PrototypeParam) : Prop :=
  ps.Pairwise fun p q => p.default.isSome = true → q.default.isSome = true

/-- `['?'] type name '(' [param (',' param)* [',' '...'] | '...'] ')'` -/
inductive Rule : Prototype → List Token → Prop
  | intro {typeName name : String} {returnType : ParamType} {nullable variadic : Bool}
      {params : List PrototypeParam} {sign list : List Token} :
      OptionalRule .question nullable sign → ParamType.ofName? typeName = some returnType →
      ParamsRule params variadic list → DefaultsLast params →
      Rule { name, returnType, traits := { variadic, nullable }, params }
        (sign ++ .name typeName :: .name name :: .mark .opening :: (list ++ [.mark .closing]))

theorem not_isBlank_of_range (low : 0x21 ≤ c.toNat) (high : c.toNat < 0x85) :
    Text.isBlank c = false := by
  have first : 0x9 ≤ c.toNat ∧ 0xe ≤ c.toNat ∧ 0x20 ≤ c.toNat := by omega
  have rest : ¬ 0x85 ≤ c.toNat := by omega
  simp [Text.isBlank, Text.between, takeWhile, first, low, rest]

theorem toNat_of_isNameChar (name : isNameChar c = true) : 0x30 ≤ c.toNat ∧ c.toNat < 0x7b := by
  have letter : c.isAlpha = (decide (65 ≤ c.val ∧ c.val ≤ 90) ||
      (decide (97 ≤ c.val) && decide (c.val ≤ 122))) := rfl
  simp only [isNameChar, Char.isAlphanum, letter, Char.isDigit, Bool.or_eq_true, Bool.and_eq_true,
    decide_eq_true_eq, beq_iff_eq, UInt32.le_iff_toNat_le, ge_iff_le] at name
  change (((65 ≤ c.toNat ∧ c.toNat ≤ 90) ∨ (97 ≤ c.toNat ∧ c.toNat ≤ 122)) ∨
    (48 ≤ c.toNat ∧ c.toNat ≤ 57)) ∨ c = '_' at name
  obtain letterOrDigit | rfl := name
  · omega
  · decide

theorem not_isBlank_of_isWordChar (word : isWordChar c = true) : Text.isBlank c = false := by
  simp only [isWordChar, Bool.or_eq_true, beq_iff_eq] at word
  obtain ((name | rfl) | rfl) | rfl := word
  · have := toNat_of_isNameChar name
    exact not_isBlank_of_range (by omega) (by omega)
  all_goals decide

theorem Blank.dropWhile (blank : Blank blanks) (cs : List Char) :
    (blanks ++ cs).dropWhile Text.isBlank = cs.dropWhile Text.isBlank := by
  induction blanks with
  | nil => rfl
  | cons c blanks ih =>
    have here : Text.isBlank c = true := blank c (by simp)
    simpa [dropWhile, here] using ih fun d mem => blank d (by simp [mem])

theorem blank_iff_dropWhile : Blank cs ↔ cs.dropWhile Text.isBlank = [] :=
  dropWhile_eq_nil_iff.symm

namespace Token

variable {t : Token} {rest : List Char}

theorem Proper.dropWhile (proper : t.Proper) (rest : List Char) :
    (t.chars ++ rest).dropWhile Text.isBlank = t.chars ++ rest := by
  obtain ⟨c, cs, spelled, visible⟩ : ∃ c cs, t.chars = c :: cs ∧ Text.isBlank c = false := by
    cases t with
    | mark m => cases m <;> exact ⟨_, _, rfl, by decide⟩
    | name text =>
      obtain ⟨c, cs, spelled⟩ := exists_cons_of_ne_nil proper.1
      have name : isNameChar c = true := proper.2 c (by simp [spelled])
      exact ⟨c, cs, spelled, not_isBlank_of_isWordChar (by simp [isWordChar, name])⟩
    | word text =>
      obtain ⟨c, cs, spelled⟩ := exists_cons_of_ne_nil proper.1
      exact ⟨c, cs, spelled, not_isBlank_of_isWordChar (proper.2 c (by simp [spelled]))⟩
    | quoted text => exact ⟨_, _, rfl, by decide⟩
  simp [spelled, visible]

end Token

variable {t : Token} {ts us : List Token} {cs rest : List Char} {c : Char}

theorem begins_iff : Begins t cs rest ↔
    t.Proper ∧ t.EndsBefore rest ∧ cs.dropWhile Text.isBlank = t.chars ++ rest := by
  constructor
  · rintro ⟨blanks, blank, proper, ends, rfl⟩
    exact ⟨proper, ends, by rw [blank.dropWhile, proper.dropWhile]⟩
  · rintro ⟨proper, ends, same⟩
    refine ⟨cs.takeWhile Text.isBlank, fun _ => mem_takeWhile_imp, proper, ends, ?_⟩
    rw [← same, takeWhile_append_dropWhile]

theorem begins_dropWhile : Begins t (cs.dropWhile Text.isBlank) rest ↔ Begins t cs rest := by
  rw [begins_iff, begins_iff, dropWhile_idempotent]

theorem spelled_dropWhile : Spelled ts (cs.dropWhile Text.isBlank) ↔ Spelled ts cs := by
  cases ts with
  | nil =>
    have same : Blank (cs.dropWhile Text.isBlank) ↔ Blank cs := by
      rw [blank_iff_dropWhile, blank_iff_dropWhile, dropWhile_idempotent]
    constructor
    · rintro ⟨blank⟩
      exact .nil (same.mp blank)
    · rintro ⟨blank⟩
      exact .nil (same.mpr blank)
  | cons t ts =>
    constructor
    · rintro (_ | ⟨begins, spelled⟩)
      exact .cons (begins_dropWhile.mp begins) spelled
    · rintro (_ | ⟨begins, spelled⟩)
      exact .cons (begins_dropWhile.mpr begins) spelled

/-- A name, or a mark other than `m`. -/
inductive Token.Unlike (m : Mark) : Token → Prop
  | name {text : String} : Unlike m (.name text)
  | mark {m' : Mark} : m' ≠ m → Unlike m (.mark m')

theorem Begins.not_mark (begins : Begins t cs rest)
    (unlike : t.Unlike m) : ¬ Begins (.mark m) cs rest' := by
  intro marked
  obtain ⟨proper, -, here⟩ := begins_iff.mp begins
  obtain ⟨-, -, there⟩ := begins_iff.mp marked
  have heads := congrArg head? (here.symm.trans there)
  cases unlike with
  | name =>
    obtain ⟨c, more, spelled⟩ := exists_cons_of_ne_nil proper.1
    have name : isNameChar c = true := proper.2 c (by simp [spelled])
    simp only [Token.chars, spelled, cons_append, head?_cons] at heads
    cases m <;> · obtain rfl : c = _ := Option.some.inj heads
                  exact absurd name (by decide)
  | @mark m' other =>
    cases m <;> cases m' <;> simp_all [Token.chars, Mark.text]

end Tenancy.Prototype
