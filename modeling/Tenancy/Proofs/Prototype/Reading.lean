import Mathlib.Data.List.TakeDrop
import Tenancy.Proofs.Prototype.Grammar

/-!
Reading prototypes.

A prototype is read from a text if and only if the rules derive it from tokens that spell the text,
so no text stands for two prototypes. Every parameter takes some of the text, so reading comes to an
end however many parameters it may go on for.
-/

namespace Tenancy.Prototype

open List

variable {t : Token} {ts us : List Token} {cs rest : List Char} {text : String} {l : Literal}

/-! ### Readers of one token -/

section Readers

variable {α β : Type}

theorem run_bind_eq_ok {first : Reader α} {next : α → Reader β} {b : β} :
    (first >>= next).run cs = .ok (b, rest) ↔
      ∃ a mid, first.run cs = .ok (a, mid) ∧ (next a).run mid = .ok (b, rest) := by
  rw [StateT.run_bind]
  cases first.run cs with
  | error reason => simp [bind, Except.bind]
  | ok result => cases result; simp [bind, Except.bind]

theorem run_bind_congr {first : Reader α} {next next' : α → Reader β}
    (same : ∀ a mid, first.run cs = .ok (a, mid) → (next a).run mid = (next' a).run mid) :
    (first >>= next).run cs = (first >>= next').run cs := by
  rw [StateT.run_bind, StateT.run_bind]
  cases read : first.run cs with
  | error reason => rfl
  | ok result => exact same result.1 result.2 read

theorem run_pure_eq_ok {a b : α} : (pure a : Reader α).run cs = .ok (b, rest) ↔ b = a ∧ rest = cs := by
  rw [StateT.run_pure]
  simp [pure, Except.pure, eq_comm]

theorem run_throw_ne_ok {reason : Reason} {a : α} :
    (throw reason : Reader α).run cs ≠ .ok (a, rest) := by
  simp [throw, throwThe, MonadExceptOf.throw]

end Readers

theorem after?_eq_some : after? token cs = some rest ↔ cs = token ++ rest := by
  fun_induction after? token cs with
  | case1 cs => simp [eq_comm]
  | case2 t token cs ih => simp [ih]
  | case3 t token c cs ne => simp [ne, eq_comm]
  | case4 => simp

theorem run_eat (token : String) (cs : List Char) :
    (eat token).run cs = match after? token.toList (cs.dropWhile Text.isBlank) with
      | some rest => .ok (true, rest)
      | none => .ok (false, cs.dropWhile Text.isBlank) := by
  unfold eat skipBlank
  simp only [StateT.run_bind, StateT.run_modify, StateT.run_get, pure_bind]
  cases after? token.toList (cs.dropWhile Text.isBlank) <;> rfl

theorem run_eat_eq_true : (eat m.text).run cs = .ok (true, rest) ↔ Begins (.mark m) cs rest := by
  rw [run_eat, begins_iff]
  cases found : after? m.text.toList (cs.dropWhile Text.isBlank) with
  | none =>
    have unmatched : cs.dropWhile Text.isBlank ≠ m.text.toList ++ rest := by
      rw [Ne, ← after?_eq_some, found]
      simp
    simp [Token.chars, unmatched]
  | some rest' =>
    have matched := after?_eq_some.mp found
    simp [Token.Proper, Token.EndsBefore, Token.chars, matched, eq_comm]

theorem run_eat_eq_false : (eat m.text).run cs = .ok (false, rest) ↔
      (∀ rest', ¬ Begins (.mark m) cs rest') ∧ rest = cs.dropWhile Text.isBlank := by
  simp only [← run_eat_eq_true]
  rw [run_eat]
  cases after? m.text.toList (cs.dropWhile Text.isBlank) <;> simp [eq_comm]

theorem run_expect_eq_ok {u : Unit} :
    (expect m.text).run cs = .ok (u, rest) ↔ Begins (.mark m) cs rest := by
  unfold expect
  rw [run_bind_eq_ok, ← run_eat_eq_true]
  constructor
  · rintro ⟨eaten, mid, taken, expected⟩
    cases eaten with
    | false => exact absurd expected run_throw_ne_ok
    | true =>
      obtain ⟨-, rfl⟩ := run_pure_eq_ok.mp expected
      exact taken
  · intro taken
    exact ⟨true, rest, taken, rfl⟩

theorem span_eq_iff : cs.span p = (first, rest) ↔
      cs = first ++ rest ∧ (∀ c ∈ first, p c = true) ∧ ∀ c ∈ rest.head?, p c = false := by
  rw [span_eq_takeWhile_dropWhile, Prod.mk.injEq]
  constructor
  · rintro ⟨rfl, rfl⟩
    refine ⟨takeWhile_append_dropWhile.symm, fun _ => mem_takeWhile_imp, ?_⟩
    intro c mem
    have first := head?_dropWhile_not p cs
    rw [Option.mem_def.mp mem] at first
    simpa using first
  · rintro ⟨rfl, all, stop⟩
    have taken : first.takeWhile p = first := takeWhile_eq_self_iff.mpr all
    have dropped : first.dropWhile p = [] := dropWhile_eq_nil_iff.mpr all
    cases rest with
    | nil => simp [taken, dropped]
    | cons c rest =>
      have last : p c = false := stop c rfl
      rw [takeWhile_append_of_pos all, dropWhile_append_of_pos all]
      simp [last]

theorem run_readName (cs : List Char) :
    readName.run cs =
      let (name, rest) := (cs.dropWhile Text.isBlank).span isNameChar
      if name.isEmpty then .error .expectedIdentifier else .ok (String.ofList name, rest) := by
  unfold readName skipBlank
  simp only [StateT.run_bind, StateT.run_modify, StateT.run_get, pure_bind]
  cases ((cs.dropWhile Text.isBlank).span isNameChar).1 <;> rfl

theorem run_readName_eq_ok : readName.run cs = .ok (text, rest) ↔ Begins (.name text) cs rest := by
  rw [run_readName, begins_iff]
  constructor
  · intro taken
    obtain ⟨⟨name, rest'⟩, split⟩ : ∃ parts, (cs.dropWhile Text.isBlank).span isNameChar = parts :=
      ⟨_, rfl⟩
    obtain ⟨same, all, stop⟩ := span_eq_iff.mp split
    rw [split] at taken
    cases name with
    | nil => simp at taken
    | cons c name =>
      simp only [List.isEmpty_cons, Bool.false_eq_true, if_false, Except.ok.injEq,
        Prod.mk.injEq] at taken
      obtain ⟨rfl, rfl⟩ := taken
      exact ⟨⟨by simp, by simpa using all⟩, stop, by simpa [Token.chars] using same⟩
  · rintro ⟨⟨nonempty, all⟩, stop, same⟩
    have split : (cs.dropWhile Text.isBlank).span isNameChar = (text.toList, rest) :=
      span_eq_iff.mpr ⟨same, all, stop⟩
    simp only [split, List.isEmpty_iff, nonempty, if_false, String.ofList_toList]

theorem run_readType_eq_ok {type : ParamType} : readType.run cs = .ok (type, rest) ↔
      ∃ text, ParamType.ofName? text = some type ∧ Begins (.name text) cs rest := by
  unfold readType
  rw [run_bind_eq_ok]
  constructor
  · rintro ⟨text, mid, named, known⟩
    cases found : ParamType.ofName? text with
    | none =>
      simp only [found] at known
      exact absurd known run_throw_ne_ok
    | some type' =>
      simp only [found] at known
      obtain ⟨rfl, rfl⟩ := run_pure_eq_ok.mp known
      exact ⟨text, found, run_readName_eq_ok.mp named⟩
  · rintro ⟨text, known, begins⟩
    refine ⟨text, rest, run_readName_eq_ok.mpr begins, ?_⟩
    simp only [known]
    rfl

theorem int64?_nil : Numeral.int64? ['n', 'i', 'l'] = none := by decide

theorem real?_nil : Numeral.real? ['n', 'i', 'l'] = none := by decide

theorem word?_eq_some : word? text.toList = some l ↔ LiteralRule l (.word text) := by
  unfold word?
  by_cases isNil : text.toList = ['n', 'i', 'l']
  · obtain rfl : text = "nil" := String.toList_injective isNil
    rw [if_pos isNil]
    constructor
    · rintro ⟨⟩
      exact .nil
    · intro literal
      cases literal with
      | nil => rfl
      | integer read => simp [isNil, int64?_nil] at read
      | real _ read => simp [isNil, real?_nil] at read
  · rw [if_neg isNil]
    cases integer : Numeral.int64? text.toList with
    | some i =>
      constructor
      · rintro ⟨⟩
        exact .integer integer
      · intro literal
        cases literal with
        | nil => simp at isNil
        | integer read => simpa [integer] using read
        | real failed _ => simp [integer] at failed
    | none =>
      rw [Option.map_eq_some_iff]
      constructor
      · rintro ⟨r, real, rfl⟩
        exact .real integer real
      · intro literal
        cases literal with
        | nil => simp at isNil
        | integer read => simp [integer] at read
        | real _ read => exact ⟨_, read, rfl⟩

theorem run_readLiteral_quoted (quoted : cs.dropWhile Text.isBlank = '"' :: more) :
    readLiteral.run cs = match more.span (· != '"') with
      | (text, _ :: rest) => .ok (.string (String.ofList text), rest)
      | (_, []) => .error .unterminatedString := by
  unfold readLiteral skipBlank
  simp only [StateT.run_bind, StateT.run_modify, StateT.run_get, pure_bind, quoted]
  obtain ⟨⟨text, tail⟩, split⟩ : ∃ parts, more.span (· != '"') = parts := ⟨_, rfl⟩
  rw [split]
  cases tail <;> rfl

theorem run_readLiteral_word (unquoted : ∀ more, cs.dropWhile Text.isBlank ≠ '"' :: more) :
    readLiteral.run cs =
      let (word, rest) := (cs.dropWhile Text.isBlank).span isWordChar
      match word? word with
      | some l => .ok (l, rest)
      | none => .error (.badDefault (String.ofList word)) := by
  unfold readLiteral skipBlank
  simp only [StateT.run_bind, StateT.run_modify, StateT.run_get, pure_bind]
  cases word? ((cs.dropWhile Text.isBlank).span isWordChar).1 <;> rfl

theorem LiteralRule.cases (literal : LiteralRule l t) : (∃ text, t = .quoted text ∧ l = .string text) ∨
      ∃ text, t = .word text ∧ word? text.toList = some l := by
  cases literal with
  | string => exact .inl ⟨_, rfl, rfl⟩
  | nil => exact .inr ⟨_, rfl, word?_eq_some.mpr .nil⟩
  | integer read => exact .inr ⟨_, rfl, word?_eq_some.mpr (.integer read)⟩
  | real failed read => exact .inr ⟨_, rfl, word?_eq_some.mpr (.real failed read)⟩

theorem begins_quoted_iff : Begins (.quoted text) cs rest ↔
    ∃ more, cs.dropWhile Text.isBlank = '"' :: more ∧
      more.span (· != '"') = (text.toList, '"' :: rest) := by
  rw [begins_iff]
  constructor
  · rintro ⟨proper, -, same⟩
    refine ⟨text.toList ++ '"' :: rest, by simpa [Token.chars] using same, ?_⟩
    refine span_eq_iff.mpr ⟨rfl, fun c mem => ?_, by simp⟩
    exact bne_iff_ne.mpr fun quote => proper (quote ▸ mem)
  · rintro ⟨more, quoted, split⟩
    obtain ⟨rfl, all, -⟩ := span_eq_iff.mp split
    exact ⟨fun quote => absurd (all _ quote) (by simp), trivial,
      by simpa [Token.chars] using quoted⟩

theorem begins_word_iff : Begins (.word text) cs rest ↔
    text.toList ≠ [] ∧ (cs.dropWhile Text.isBlank).span isWordChar = (text.toList, rest) := by
  rw [begins_iff, span_eq_iff]
  constructor
  · rintro ⟨⟨nonempty, all⟩, stop, same⟩
    exact ⟨nonempty, same, all, stop⟩
  · rintro ⟨nonempty, same, all, stop⟩
    exact ⟨⟨nonempty, all⟩, stop, same⟩

theorem word?_empty : word? [] = none := by decide

theorem run_readLiteral_eq_ok :
    readLiteral.run cs = .ok (l, rest) ↔ ∃ t, LiteralRule l t ∧ Begins t cs rest := by
  by_cases quoted : ∃ more, cs.dropWhile Text.isBlank = '"' :: more
  · obtain ⟨more, here⟩ := quoted
    rw [run_readLiteral_quoted here]
    constructor
    · intro read
      obtain ⟨⟨text, tail⟩, split⟩ : ∃ parts, more.span (· != '"') = parts := ⟨_, rfl⟩
      rw [split] at read
      cases tail with
      | nil => cases read
      | cons c tail =>
        have quote : c = '"' := by simpa using (span_eq_iff.mp split).2.2 c rfl
        cases read
        refine ⟨_, .string, begins_quoted_iff.mpr ⟨more, here, ?_⟩⟩
        rw [split, quote, String.toList_ofList]
    · rintro ⟨t, literal, begins⟩
      obtain ⟨text, rfl, rfl⟩ | ⟨text, rfl, word⟩ := literal.cases
      · obtain ⟨more', here', split⟩ := begins_quoted_iff.mp begins
        obtain rfl : more' = more := by simpa using here'.symm.trans here
        rw [split]
        simp
      · obtain ⟨nonempty, split⟩ := begins_word_iff.mp begins
        obtain ⟨c, text', spelled⟩ := exists_cons_of_ne_nil nonempty
        obtain ⟨same, all, -⟩ := span_eq_iff.mp split
        rw [here, spelled] at same
        obtain rfl : '"' = c := by simpa using congrArg head? same
        exact absurd (all '"' (by simp [spelled])) (by decide)
  · have unquoted : ∀ more, cs.dropWhile Text.isBlank ≠ '"' :: more :=
      fun more here => quoted ⟨more, here⟩
    rw [run_readLiteral_word unquoted]
    constructor
    · intro read
      obtain ⟨⟨word, tail⟩, split⟩ : ∃ parts,
          (cs.dropWhile Text.isBlank).span isWordChar = parts := ⟨_, rfl⟩
      simp only [split] at read
      cases meant : word? word with
      | none => simp [meant] at read
      | some l' =>
        simp only [meant] at read
        cases read
        refine ⟨.word (String.ofList word), word?_eq_some.mp (by simpa using meant), ?_⟩
        refine begins_word_iff.mpr ⟨?_, by simpa using split⟩
        rintro empty
        simp only [String.toList_ofList] at empty
        simp [empty, word?_empty] at meant
    · rintro ⟨t, literal, begins⟩
      obtain ⟨text, rfl, rfl⟩ | ⟨text, rfl, word⟩ := literal.cases
      · obtain ⟨more, here, -⟩ := begins_quoted_iff.mp begins
        exact absurd here (unquoted more)
      · obtain ⟨-, split⟩ := begins_word_iff.mp begins
        simp only [split, word]

/-! ### Parameters -/

theorem Begins.length_lt (begins : Begins t cs rest) : rest.length < cs.length := by
  obtain ⟨blanks, -, proper, -, rfl⟩ := begins
  have nonempty : 0 < t.chars.length := by
    rw [length_pos_iff]
    cases t with
    | mark m => cases m <;> simp [Token.chars, Mark.text]
    | name text => exact proper.1
    | word text => exact proper.1
    | quoted text => simp [Token.chars]
  simp only [length_append]
  omega

variable {m : Mark} {present : Bool} {sign : List Token}

theorem OptionalRule.of_run_eat (read : (eat m.text).run cs = .ok (present, rest)) :
    ∃ sign, OptionalRule m present sign ∧ rest.length ≤ cs.length ∧
      ∀ us, Spelled us rest → Spelled (sign ++ us) cs := by
  cases present with
  | true =>
    have begins := run_eat_eq_true.mp read
    exact ⟨_, .present, begins.length_lt.le, fun _ spelled => .cons begins spelled⟩
  | false =>
    obtain ⟨-, rfl⟩ := run_eat_eq_false.mp read
    exact ⟨_, .absent, length_dropWhile_le _ _, fun _ => spelled_dropWhile.mp⟩

theorem OptionalRule.run_eat (rule : OptionalRule m present sign)
    (spelled : Spelled (sign ++ t :: us) cs) (unlike : t.Unlike m) :
    ∃ rest, (eat m.text).run cs = .ok (present, rest) ∧ Spelled (t :: us) rest := by
  cases rule with
  | present =>
    cases spelled with
    | cons begins spelled => exact ⟨_, run_eat_eq_true.mpr begins, spelled⟩
  | absent =>
    refine ⟨_, run_eat_eq_false.mpr ⟨?_, rfl⟩, spelled_dropWhile.mpr spelled⟩
    cases spelled with
    | cons begins _ => exact fun _ => begins.not_mark unlike

variable {earlier : List PrototypeParam} {p : PrototypeParam}

/-- A parameter may follow `earlier` ones. -/
def MayFollow (earlier : List PrototypeParam) (p : PrototypeParam) : Prop :=
  ∀ q ∈ earlier, q.default.isSome = true → p.default.isSome = true

theorem defaultsLast_append : DefaultsLast (earlier ++ [p]) ↔
    DefaultsLast earlier ∧ MayFollow earlier p := by
  simp [DefaultsLast, MayFollow, pairwise_append]

theorem ParamRule.of_run_readParam (read : (readParam earlier).run cs = .ok (p, rest)) :
    MayFollow earlier p ∧ rest.length < cs.length ∧
      ∃ ts, ParamRule p ts ∧ ∀ us, Spelled us rest → Spelled (ts ++ us) cs := by
  unfold readParam at read
  obtain ⟨type, afterType, readType, read⟩ := run_bind_eq_ok.mp read
  obtain ⟨nullable, afterSign, readSign, read⟩ := run_bind_eq_ok.mp read
  obtain ⟨name, afterName, readName, read⟩ := run_bind_eq_ok.mp read
  obtain ⟨assigned, afterEquals, readEquals, read⟩ := run_bind_eq_ok.mp read
  obtain ⟨typeName, known, typed⟩ := run_readType_eq_ok.mp readType
  obtain ⟨sign, signed, shorter, spellSign⟩ := OptionalRule.of_run_eat (m := .question) readSign
  have named := run_readName_eq_ok.mp readName
  have short : afterName.length < cs.length :=
    named.length_lt.trans (shorter.trans_lt typed.length_lt)
  cases assigned with
  | true =>
    have equals := run_eat_eq_true (m := .equals) |>.mp readEquals
    obtain ⟨l, afterLiteral, readLiteral, read⟩ := run_bind_eq_ok.mp read
    obtain ⟨rfl, rfl⟩ := run_pure_eq_ok.mp read
    obtain ⟨t, literal, begins⟩ := run_readLiteral_eq_ok.mp readLiteral
    refine ⟨fun _ _ _ => rfl, (begins.length_lt.trans equals.length_lt).trans short, _,
      .intro known signed (.some literal), fun us spelled => ?_⟩
    simpa using Spelled.cons typed (spellSign _ (.cons named (.cons equals (.cons begins spelled))))
  | false =>
    obtain ⟨-, rfl⟩ := run_eat_eq_false (m := .equals) |>.mp readEquals
    by_cases needed : earlier.any (·.default.isSome) = true
    · simp only [needed] at read
      exact absurd read run_throw_ne_ok
    · simp only [needed] at read
      obtain ⟨rfl, rfl⟩ := run_pure_eq_ok.mp read
      refine ⟨fun q mem some => absurd (any_eq_true.mpr ⟨q, mem, some⟩) needed,
        (length_dropWhile_le _ _).trans_lt short, _, .intro known signed .none,
        fun us spelled => ?_⟩
      simpa using Spelled.cons typed (spellSign _ (.cons named (spelled_dropWhile.mp spelled)))

theorem ParamRule.run_readParam (rule : ParamRule p ts) (follows : MayFollow earlier p)
    (spelled : Spelled (ts ++ .mark m :: us) cs) (ends : m ≠ .equals) :
    ∃ rest, (readParam earlier).run cs = .ok (p, rest) ∧ Spelled (.mark m :: us) rest := by
  unfold readParam
  cases rule with
  | @intro typeName name type nullable default sign value known signed assigned =>
    rw [cons_append, append_assoc, cons_append] at spelled
    cases spelled with
    | cons typed spelled =>
      obtain ⟨afterSign, readSign, spelled⟩ := signed.run_eat spelled .name
      cases spelled with
      | cons named spelled =>
        have readType := run_readType_eq_ok.mpr ⟨typeName, known, typed⟩
        have readName := run_readName_eq_ok.mpr named
        cases assigned with
        | none =>
          obtain ⟨rest, readEquals, spelled⟩ :=
            OptionalRule.absent.run_eat (m := .equals) spelled (.mark ends)
          refine ⟨rest, ?_, spelled⟩
          have unneeded : earlier.any (·.default.isSome) = false := by
            rw [any_eq_false]
            intro q mem some
            exact absurd (follows q mem some) (by simp)
          refine run_bind_eq_ok.mpr ⟨_, _, readType, run_bind_eq_ok.mpr ⟨_, _, readSign,
            run_bind_eq_ok.mpr ⟨_, _, readName, run_bind_eq_ok.mpr ⟨_, _, readEquals, ?_⟩⟩⟩⟩
          simp only [unneeded]
          rfl
        | some literal =>
          cases spelled with
          | cons equals spelled =>
            cases spelled with
            | cons begins spelled =>
              have readEquals := run_eat_eq_true.mpr equals
              have readLiteral := run_readLiteral_eq_ok.mpr ⟨_, literal, begins⟩
              refine ⟨_, ?_, spelled⟩
              exact run_bind_eq_ok.mpr ⟨_, _, readType, run_bind_eq_ok.mpr ⟨_, _, readSign,
                run_bind_eq_ok.mpr ⟨_, _, readName, run_bind_eq_ok.mpr ⟨_, _, readEquals,
                  run_bind_eq_ok.mpr ⟨_, _, readLiteral, rfl⟩⟩⟩⟩⟩

/-! ### Lists of parameters -/

variable {params later : List PrototypeParam} {variadic : Bool} {fuel : Nat}

theorem ParamRule.cons {ps : List PrototypeParam} (rule : ParamRule p ts)
    (others : ParamsRule ps variadic us) (nonempty : us ≠ []) :
    SomeParamsRule (p :: ps) variadic (ts ++ .mark .comma :: us) := by
  cases others with
  | none => exact absurd rfl nonempty
  | dots => exact .dots rule
  | some others => exact .more rule others

theorem ParamRule.starts (rule : ParamRule p ts) : ∃ text more, ts = .name text :: more := by
  cases rule with
  | intro => exact ⟨_, _, rfl⟩

theorem run_readParams_succ_eq_ok :
    (readParams (fuel + 1) earlier).run cs = .ok ((params, variadic), rest) ↔
      (∃ mid, Begins (.mark .dots) cs mid ∧ Begins (.mark .closing) mid rest ∧
        params = earlier ∧ variadic = true) ∨
      ∃ start p mid, (eat Mark.dots.text).run cs = .ok (false, start) ∧
        (readParam earlier).run start = .ok (p, mid) ∧
        ((Begins (.mark .closing) mid rest ∧ params = earlier ++ [p] ∧ variadic = false) ∨
          ∃ item next, (eat Mark.closing.text).run mid = .ok (false, item) ∧
            Begins (.mark .comma) item next ∧
            (readParams fuel (earlier ++ [p])).run next = .ok ((params, variadic), rest)) := by
  rw [readParams, run_bind_eq_ok]
  constructor
  · rintro ⟨dots, start, eaten, read⟩
    cases dots with
    | true =>
      obtain ⟨_, mid, expected, read⟩ := run_bind_eq_ok.mp read
      obtain ⟨same, rfl⟩ := run_pure_eq_ok.mp read
      obtain ⟨rfl, rfl⟩ := Prod.mk.inj same
      exact .inl ⟨start, run_eat_eq_true (m := .dots) |>.mp eaten,
        run_expect_eq_ok (m := .closing) |>.mp expected, rfl, rfl⟩
    | false =>
      obtain ⟨p, mid, readParam, read⟩ := run_bind_eq_ok.mp read
      obtain ⟨closed, item, closing, read⟩ := run_bind_eq_ok.mp read
      refine .inr ⟨start, p, mid, eaten, readParam, ?_⟩
      cases closed with
      | true =>
        obtain ⟨same, rfl⟩ := run_pure_eq_ok.mp read
        obtain ⟨rfl, rfl⟩ := Prod.mk.inj same
        exact .inl ⟨run_eat_eq_true (m := .closing) |>.mp closing, rfl, rfl⟩
      | false =>
        obtain ⟨_, next, expected, read⟩ := run_bind_eq_ok.mp read
        exact .inr ⟨item, next, closing, run_expect_eq_ok (m := .comma) |>.mp expected, read⟩
  · rintro (⟨mid, dots, closing, rfl, rfl⟩ | ⟨start, p, mid, eaten, readParam, item⟩)
    · exact ⟨true, mid, run_eat_eq_true (m := .dots) |>.mpr dots, run_bind_eq_ok.mpr
        ⟨(), rest, run_expect_eq_ok (m := .closing) |>.mpr closing, rfl⟩⟩
    · refine ⟨false, start, eaten, run_bind_eq_ok.mpr ⟨p, mid, readParam, run_bind_eq_ok.mpr ?_⟩⟩
      obtain ⟨closing, rfl, rfl⟩ | ⟨item, next, closing, comma, read⟩ := item
      · exact ⟨true, rest, run_eat_eq_true (m := .closing) |>.mpr closing, rfl⟩
      · exact ⟨false, item, closing, run_bind_eq_ok.mpr
          ⟨(), next, run_expect_eq_ok (m := .comma) |>.mpr comma, read⟩⟩

theorem ParamsRule.of_run_readParams (ordered : DefaultsLast earlier)
    (read : (readParams fuel earlier).run cs = .ok ((params, variadic), rest)) :
    DefaultsLast params ∧ ∃ later ts, params = earlier ++ later ∧ ParamsRule later variadic ts ∧
      ts ≠ [] ∧ ∀ us, Spelled us rest → Spelled (ts ++ .mark .closing :: us) cs := by
  induction fuel generalizing earlier cs with
  | zero => exact absurd read run_throw_ne_ok
  | succ fuel ih =>
    obtain ⟨mid, dots, closing, rfl, rfl⟩ | ⟨start, p, mid, eaten, readParam, item⟩ :=
      run_readParams_succ_eq_ok.mp read
    · exact ⟨ordered, [], _, by simp, .dots, by simp,
        fun us spelled => .cons dots (.cons closing spelled)⟩
    · obtain ⟨-, rfl⟩ := run_eat_eq_false.mp eaten
      obtain ⟨follows, -, ts, rule, spellParam⟩ := ParamRule.of_run_readParam readParam
      have ordered' := defaultsLast_append.mpr ⟨ordered, follows⟩
      obtain ⟨text, more, starts⟩ := rule.starts
      obtain ⟨closing, rfl, rfl⟩ | ⟨item, next, eaten, comma, read⟩ := item
      · exact ⟨ordered', [p], ts, rfl, .some (.last rule), by simp [starts],
          fun us spelled => spelled_dropWhile.mp (spellParam _ (.cons closing spelled))⟩
      · obtain ⟨-, rfl⟩ := run_eat_eq_false.mp eaten
        obtain ⟨last, later, others, rfl, rules, nonempty, spellOthers⟩ := ih ordered' read
        refine ⟨last, p :: later, _, by simp, .some (rule.cons rules nonempty), by simp,
          fun us spelled => spelled_dropWhile.mp ?_⟩
        rw [append_assoc, cons_append]
        exact spellParam _ (.cons (begins_dropWhile.mp comma) (spellOthers us spelled))

theorem ParamRule.run_first (rule : ParamRule p ts) (follows : MayFollow earlier p)
    (spelled : Spelled (ts ++ .mark m :: us) cs) (ends : m ≠ .equals) :
    ∃ start mid, (eat Mark.dots.text).run cs = .ok (false, start) ∧
      (readParam earlier).run start = .ok (p, mid) ∧ Spelled (.mark m :: us) mid ∧
      mid.length < cs.length := by
  obtain ⟨text, more, rfl⟩ := rule.starts
  obtain ⟨start, eaten, begun⟩ := OptionalRule.absent.run_eat (m := .dots) spelled .name
  obtain ⟨mid, read, ended⟩ := rule.run_readParam follows begun ends
  obtain ⟨-, rfl⟩ := run_eat_eq_false.mp eaten
  have shorter := (ParamRule.of_run_readParam read).2.1
  exact ⟨_, mid, eaten, read, ended, shorter.trans_le (length_dropWhile_le _ _)⟩

theorem ParamRule.run_next (rule : ParamRule p ts) (follows : MayFollow earlier p)
    (spelled : Spelled (ts ++ .mark .comma :: us) cs) :
    ∃ next, next.length < cs.length ∧ Spelled us next ∧ ∀ fuel params variadic rest,
        (readParams fuel (earlier ++ [p])).run next = .ok ((params, variadic), rest) →
        (readParams (fuel + 1) earlier).run cs = .ok ((params, variadic), rest) := by
  obtain ⟨start, mid, eaten, read, spelled, shorter⟩ := rule.run_first follows spelled (by decide)
  obtain ⟨item, unclosed, spelled⟩ :=
    OptionalRule.absent.run_eat (m := .closing) spelled (.mark (by decide))
  obtain ⟨-, rfl⟩ := run_eat_eq_false.mp unclosed
  cases spelled with
  | @cons _ _ _ next comma spelled =>
    refine ⟨next, ?_, spelled, fun fuel params variadic rest others => ?_⟩
    · exact (comma.length_lt.trans_le (length_dropWhile_le _ _)).trans shorter
    · exact run_readParams_succ_eq_ok.mpr
        (.inr ⟨start, p, mid, eaten, read, .inr ⟨_, next, unclosed, comma, others⟩⟩)

theorem SomeParamsRule.run_readParams (rule : SomeParamsRule later variadic ts)
    (ordered : DefaultsLast (earlier ++ later)) (enough : cs.length < fuel)
    (spelled : Spelled (ts ++ .mark .closing :: us) cs) :
    ∃ rest, (readParams fuel earlier).run cs = .ok ((earlier ++ later, variadic), rest) ∧
      Spelled us rest := by
  -- the parameters that have been read go over to the earlier ones, one a round
  induction rule generalizing earlier cs fuel with
  | last rule =>
    obtain ⟨fuel, rfl⟩ := Nat.exists_eq_add_one_of_ne_zero (Nat.ne_zero_of_lt enough)
    obtain ⟨start, mid, eaten, read, spelled, -⟩ :=
      rule.run_first (defaultsLast_append.mp ordered).2 spelled (by decide)
    cases spelled with
    | @cons _ _ _ rest closing spelled =>
      exact ⟨rest, run_readParams_succ_eq_ok.mpr
        (.inr ⟨start, _, mid, eaten, read, .inl ⟨closing, rfl, rfl⟩⟩), spelled⟩
  | dots rule =>
    obtain ⟨fuel, rfl⟩ := Nat.exists_eq_add_one_of_ne_zero (Nat.ne_zero_of_lt enough)
    rw [append_assoc] at spelled
    obtain ⟨next, shorter, spelled, finish⟩ :=
      rule.run_next (defaultsLast_append.mp ordered).2 spelled
    obtain ⟨fuel, rfl⟩ := Nat.exists_eq_add_one_of_ne_zero (n := fuel) (by omega)
    cases spelled with
    | cons dots spelled =>
      cases spelled with
      | @cons _ _ _ rest closing spelled =>
        exact ⟨rest, finish _ _ _ _
          (run_readParams_succ_eq_ok.mpr (.inl ⟨_, dots, closing, rfl, rfl⟩)), spelled⟩
  | @more p ps _ _ _ rule _ ih =>
    obtain ⟨fuel, rfl⟩ := Nat.exists_eq_add_one_of_ne_zero (Nat.ne_zero_of_lt enough)
    rw [append_assoc] at spelled
    have split : earlier ++ p :: ps = (earlier ++ [p]) ++ ps := by simp
    rw [split] at ordered ⊢
    have follows := (defaultsLast_append.mp (pairwise_append.mp ordered).1).2
    obtain ⟨next, shorter, spelled, finish⟩ := rule.run_next follows spelled
    have enough' : next.length < fuel := by omega
    obtain ⟨rest, read, spelled⟩ := ih ordered enough' spelled
    exact ⟨rest, finish _ _ _ _ read, spelled⟩

theorem run_readParams_enough (enough : cs.length < fuel) :
    (readParams (fuel + 1) earlier).run cs = (readParams fuel earlier).run cs := by
  induction fuel generalizing earlier cs with
  | zero => omega
  | succ fuel ih =>
    rw [readParams, readParams]
    refine run_bind_congr fun dots start eaten => ?_
    obtain ⟨-, -, shorter, -⟩ := OptionalRule.of_run_eat (m := .dots) eaten
    cases dots with
    | true => rfl
    | false =>
      refine run_bind_congr fun p mid read => ?_
      have shorter' := (ParamRule.of_run_readParam read).2.1
      refine run_bind_congr fun closed item closing => ?_
      obtain ⟨-, -, shorter'', -⟩ := OptionalRule.of_run_eat (m := .closing) closing
      cases closed with
      | true => rfl
      | false =>
        refine run_bind_congr fun _ next expected => ?_
        have comma := run_expect_eq_ok (m := .comma) |>.mp expected
        exact ih (by have := comma.length_lt; omega)

theorem run_readParams_eq (enough : cs.length < fuel) :
    (readParams fuel earlier).run cs = (readParams (cs.length + 1) earlier).run cs := by
  induction fuel, Nat.succ_le_of_lt enough using Nat.le_induction with
  | base => rfl
  | succ fuel more ih => rw [run_readParams_enough more, ih more]

/-! ### Prototypes -/

/-- The parameters after the opening parenthesis, up to the closing one. -/
def readList : Reader (List PrototypeParam × Bool) := do
  if ← eat Mark.closing.text then return ([], false)
  else readParams ((← get).length + 1) []

def readEnd (p : Prototype) : Reader Prototype := do
  skipBlank
  let rest ← get
  if rest.isEmpty then return p else throw (.trailing (String.ofList rest))

theorem readPrototype_eq : readPrototype = (do
    let nullable ← eat Mark.question.text
    let returnType ← readType
    let name ← readName
    expect Mark.opening.text
    let list ← readList
    readEnd
      { name, returnType, traits := { variadic := list.2, nullable }, params := list.1 }) := by
  unfold readPrototype readList
  refine bind_congr fun nullable => bind_congr fun returnType => bind_congr fun name =>
    bind_congr fun _ => ?_
  rw [bind_assoc]
  refine bind_congr fun closed => ?_
  unfold readEnd
  cases closed
  · simp only [Bool.false_eq_true, if_false, bind_assoc]
    refine bind_congr fun _ => bind_congr fun list => bind_congr fun _ => bind_congr fun rest => ?_
    cases rest <;> rfl
  · simp only [if_true, pure_bind]
    refine bind_congr fun _ => bind_congr fun rest => ?_
    cases rest <;> rfl

theorem run_readList_eq_ok : readList.run cs = .ok ((params, variadic), rest) ↔
      (Begins (.mark .closing) cs rest ∧ params = [] ∧ variadic = false) ∨
      ∃ start, (eat Mark.closing.text).run cs = .ok (false, start) ∧
        (readParams (start.length + 1) []).run start = .ok ((params, variadic), rest) := by
  unfold readList
  rw [run_bind_eq_ok]
  constructor
  · rintro ⟨closed, start, eaten, read⟩
    cases closed with
    | true =>
      obtain ⟨same, rfl⟩ := run_pure_eq_ok.mp read
      obtain ⟨rfl, rfl⟩ := Prod.mk.inj same
      exact .inl ⟨run_eat_eq_true.mp eaten, rfl, rfl⟩
    | false => exact .inr ⟨start, eaten, read⟩
  · rintro (⟨closing, rfl, rfl⟩ | ⟨start, eaten, read⟩)
    · exact ⟨true, rest, run_eat_eq_true.mpr closing, rfl⟩
    · exact ⟨false, start, eaten, read⟩

theorem run_readEnd_eq_ok {p q : Prototype} :
    (readEnd p).run cs = .ok (q, rest) ↔ Blank cs ∧ q = p ∧ rest = [] := by
  unfold readEnd skipBlank
  simp only [StateT.run_bind, StateT.run_modify, StateT.run_get, pure_bind]
  rw [blank_iff_dropWhile]
  cases cs.dropWhile Text.isBlank with
  | nil => simpa using run_pure_eq_ok
  | cons c more => simpa using run_throw_ne_ok

theorem ParamsRule.of_run_readList (read : readList.run cs = .ok ((params, variadic), rest)) :
    DefaultsLast params ∧ ∃ ts, ParamsRule params variadic ts ∧
      ∀ us, Spelled us rest → Spelled (ts ++ .mark .closing :: us) cs := by
  obtain ⟨closing, rfl, rfl⟩ | ⟨start, eaten, read⟩ := run_readList_eq_ok.mp read
  · exact ⟨.nil, [], .none, fun _ spelled => .cons closing spelled⟩
  · obtain ⟨-, rfl⟩ := run_eat_eq_false.mp eaten
    obtain ⟨ordered, later, ts, rfl, rule, -, spell⟩ := ParamsRule.of_run_readParams .nil read
    exact ⟨ordered, ts, rule, fun us spelled => spelled_dropWhile.mp (spell us spelled)⟩

theorem ParamsRule.run_readList (rule : ParamsRule params variadic ts)
    (ordered : DefaultsLast params) (spelled : Spelled (ts ++ .mark .closing :: us) cs) :
    ∃ rest, readList.run cs = .ok ((params, variadic), rest) ∧ Spelled us rest := by
  cases rule with
  | none =>
    cases spelled with
    | cons closing spelled =>
      exact ⟨_, run_readList_eq_ok.mpr (.inl ⟨closing, rfl, rfl⟩), spelled⟩
  | dots =>
    obtain ⟨start, eaten, spelled⟩ :=
      OptionalRule.absent.run_eat (m := .closing) spelled (.mark (by decide))
    cases spelled with
    | cons dots spelled =>
      cases spelled with
      | cons closing spelled =>
        exact ⟨_, run_readList_eq_ok.mpr (.inr ⟨start, eaten,
          run_readParams_succ_eq_ok.mpr (.inl ⟨_, dots, closing, rfl, rfl⟩)⟩), spelled⟩
  | some rule =>
    obtain ⟨text, more, starts⟩ : ∃ text more, ts = .name text :: more := by
      cases rule with
      | last rule => exact rule.starts
      | dots rule =>
        obtain ⟨text, more, rfl⟩ := rule.starts
        exact ⟨text, _, rfl⟩
      | more rule _ =>
        obtain ⟨text, more, rfl⟩ := rule.starts
        exact ⟨text, _, rfl⟩
    obtain ⟨start, eaten, begun⟩ : ∃ start, (eat Mark.closing.text).run cs = .ok (false, start) ∧
        Spelled (ts ++ .mark .closing :: us) start := by
      subst starts
      exact OptionalRule.absent.run_eat spelled .name
    have ordered' : DefaultsLast ([] ++ params) := ordered
    obtain ⟨rest, read, ended⟩ := rule.run_readParams ordered' (Nat.lt_succ_self _) begun
    exact ⟨rest, run_readList_eq_ok.mpr (.inr ⟨start, eaten, read⟩), ended⟩

theorem run_readPrototype_eq_ok {p : Prototype} : readPrototype.run cs = .ok (p, rest) ↔
      rest = [] ∧ ∃ tokens, Rule p tokens ∧ Spelled tokens cs := by
  rw [readPrototype_eq]
  constructor
  · intro read
    obtain ⟨nullable, afterSign, readSign, read⟩ := run_bind_eq_ok.mp read
    obtain ⟨returnType, afterType, readType, read⟩ := run_bind_eq_ok.mp read
    obtain ⟨name, afterName, readName, read⟩ := run_bind_eq_ok.mp read
    obtain ⟨_, afterOpening, readOpening, read⟩ := run_bind_eq_ok.mp read
    obtain ⟨⟨params, variadic⟩, afterList, readList, read⟩ := run_bind_eq_ok.mp read
    obtain ⟨blank, rfl, rfl⟩ := run_readEnd_eq_ok.mp read
    obtain ⟨sign, signed, -, spellSign⟩ := OptionalRule.of_run_eat readSign
    obtain ⟨typeName, known, typed⟩ := run_readType_eq_ok.mp readType
    obtain ⟨ordered, list, rule, spellList⟩ := ParamsRule.of_run_readList readList
    refine ⟨rfl, _, .intro signed known rule ordered, spellSign _ (.cons typed ?_)⟩
    exact .cons (run_readName_eq_ok.mp readName)
      (.cons (run_expect_eq_ok.mp readOpening) (spellList [] (.nil blank)))
  · rintro ⟨rfl, tokens, rule, spelled⟩
    cases rule with
    | @intro typeName name _ _ _ _ _ _ signed known rule ordered =>
      obtain ⟨afterSign, readSign, spelled⟩ := signed.run_eat spelled .name
      cases spelled with
      | cons typed spelled =>
        cases spelled with
        | cons named spelled =>
          cases spelled with
          | cons opening spelled =>
            obtain ⟨rest, readList, spelled⟩ := rule.run_readList ordered spelled
            cases spelled with
            | nil blank =>
              refine run_bind_eq_ok.mpr ⟨_, _, readSign, run_bind_eq_ok.mpr
                ⟨_, _, run_readType_eq_ok.mpr ⟨typeName, known, typed⟩, ?_⟩⟩
              refine run_bind_eq_ok.mpr ⟨_, _, run_readName_eq_ok.mpr named, run_bind_eq_ok.mpr
                ⟨(), _, run_expect_eq_ok.mpr opening, ?_⟩⟩
              exact run_bind_eq_ok.mpr ⟨_, _, readList, run_readEnd_eq_ok.mpr ⟨blank, rfl, rfl⟩⟩

theorem parse_eq_ok {p : Prototype} :
    parse text = .ok p ↔ ∃ rest, readPrototype.run text.toList = .ok (p, rest) := by
  unfold parse
  cases readPrototype.run text.toList with
  | error reason => simp
  | ok result => cases result; simp

/-- A text is read as the prototype that the rules derive from its tokens, and refused if there is
none. Reading goes on for no more rounds than there are characters, whatever it is allowed. -/
theorem parse_eq_ok_iff_rule (text : String) :
    (∀ p : Prototype, parse text = .ok p ↔ ∃ tokens, Rule p tokens ∧ Spelled tokens text.toList) ∧
      ∀ (cs : List Char) (earlier : List PrototypeParam) (more : Nat),
        (readParams (cs.length + 1 + more) earlier).run cs =
          (readParams (cs.length + 1) earlier).run cs := by
  refine ⟨fun p => ?_, fun cs earlier more => run_readParams_eq (by omega)⟩
  rw [parse_eq_ok]
  constructor
  · rintro ⟨rest, read⟩
    exact (run_readPrototype_eq_ok.mp read).2
  · intro derived
    exact ⟨[], run_readPrototype_eq_ok.mpr ⟨rfl, derived⟩⟩

end Tenancy.Prototype
