import Mathlib.Data.List.Forall2
import Tenancy.Machine.Call
import Tenancy.Proofs.Action
import Tenancy.Proofs.Prototype.Reading

/-!
What the parameters of a function hold once its arguments have been checked.

The arguments of the caller are checked against the types of their parameters. The slots that the
caller left open are filled with defaults, after the check. So the parameters that a body finds are of
their types if the defaults that were filled in are, and it is the prototype that decides whether that
is so for all arguments.
-/

namespace Tenancy

open List Machine

/-! ### Literals -/

def Literal.type : Literal → ValueType
  | .nil => .nil
  | .integer _ => .integer
  | .real _ => .real
  | .string _ => .payload .string

/-- The value is the one that the literal stands for. A string is a constant payload. -/
def Literal.StandsFor (h : Heap) (v : Value) : Literal → Prop
  | .nil => v = .nil
  | .integer i => v = .integer i
  | .real r => v = .real r
  | .string text => ∃ id, v = .ref ⟨.string, id⟩ ∧ h.payload? id = some (.string text) ∧
      h.constant id = true

namespace Heap

variable {h h' h'' : Heap}

/-- The payloads of the heap are as they were, and others may be new. -/
def Prolongs (h' h : Heap) : Prop := ∀ id, id < h.cells.size → h'.cells[id]? = h.cells[id]?

theorem Prolongs.size_le (prolongs : h'.Prolongs h) : h.cells.size ≤ h'.cells.size := by
  by_contra shorter
  have missing := prolongs h'.cells.size (Nat.not_le.mp shorter)
  simp [Nat.not_le.mp shorter] at missing

theorem Prolongs.trans (second : h''.Prolongs h') (first : h'.Prolongs h) : h''.Prolongs h :=
  fun id old => (second id (old.trans_le first.size_le)).trans (first id old)

end Heap

namespace Literal

variable {h h' : Heap} {v : Value} {l : Literal}

theorem StandsFor.type_eq (stands : l.StandsFor h v) : v.type = l.type := by
  cases l with
  | nil | integer _ | real _ => exact congrArg Value.type stands
  | string text =>
    obtain ⟨id, rfl, -⟩ := stands
    rfl

theorem StandsFor.prolong (stands : l.StandsFor h v) (prolongs : h'.Prolongs h) :
    l.StandsFor h' v := by
  cases l with
  | nil | integer _ | real _ => exact stands
  | string text =>
    obtain ⟨id, rfl, text, constant⟩ := stands
    have old : id < h.cells.size := by
      by_contra new
      simp [Heap.payload?, Array.getElem?_eq_none (Nat.not_lt.mp new)] at text
    refine ⟨id, rfl, ?_, ?_⟩
    · rw [Heap.payload?, prolongs id old]
      exact text
    · rw [Heap.constant, prolongs id old]
      exact constant

theorem literalValue_standsFor (h : Heap) (l : Literal) :
    l.StandsFor (Prototype.literalValue h l).2 (Prototype.literalValue h l).1 ∧
      (Prototype.literalValue h l).2.Prolongs h := by
  cases l with
  | nil | integer _ | real _ => exact ⟨rfl, fun _ _ => rfl⟩
  | string text =>
    refine ⟨⟨h.cells.size, rfl, ?_, ?_⟩, fun id old => ?_⟩
    rotate_right
    · show ((h.create (.string text) true false).2.cells)[id]? = _
      simp [Heap.create, Array.getElem?_push, old.ne]
    · simp [Prototype.literalValue, Heap.make, Heap.draftPayload, Heap.create, Heap.payload?]
    · simp [Prototype.literalValue, Heap.make, Heap.draftPayload, Heap.create, Heap.constant]

end Literal

/-! ### Parameters of a prototype -/

namespace PrototypeParam

/-- The default of the parameter, if there is one, is nil or of the type of the parameter. -/
def Fits (q : PrototypeParam) : Prop :=
  ∀ l, q.default = some l → l = .nil ∨ q.type = .any ∨ q.type = .exact l.type

/-- The parameter of a function is as the prototype declares it. -/
structure Declares (h : Heap) (q : PrototypeParam) (p : Parameter) : Prop where
  name : p.name = q.name
  type : p.type = q.type
  nullable : p.nullable = q.nullable
  default : Option.Rel (fun l v => l.StandsFor h v) q.default p.default

variable {h h' : Heap} {q : PrototypeParam} {p : Parameter} {v : Value}

section

variable (declares : q.Declares h p)
include declares

theorem Declares.default_cases : (q.default = none ∧ p.default = none) ∨
    ∃ l v, q.default = some l ∧ p.default = some v ∧ l.StandsFor h v := by
  have rel := declares.default
  generalize q.default = literal, p.default = value at rel ⊢
  cases rel with
  | none => exact .inl ⟨rfl, rfl⟩
  | some stands => exact .inr ⟨_, _, rfl, rfl, stands⟩

theorem Declares.prolong (prolongs : h'.Prolongs h) : q.Declares h' p := by
  refine { declares with default := ?_ }
  obtain ⟨none, none'⟩ | ⟨l, v, literal, value, stands⟩ := declares.default_cases
  · rw [none, none']
    exact .none
  · rw [literal, value]
    exact .some (stands.prolong prolongs)

theorem Declares.isSome_default : p.default.isSome = q.default.isSome := by
  obtain ⟨none, none'⟩ | ⟨l, v, literal, value, -⟩ := declares.default_cases
  · rw [none, none']
    rfl
  · rw [literal, value]
    rfl

theorem Declares.accepts_default_iff (default : p.default = some v) :
    p.accepts v = true ↔ q.Fits := by
  obtain ⟨-, none⟩ | ⟨l, v', literal, value, stands⟩ := declares.default_cases
  · simp [none] at default
  obtain rfl : v' = v := Option.some.inj (value.symm.trans default)
  have isNil : v' = .nil ↔ l = .nil := by
    cases l with
    | nil => simpa [Literal.StandsFor] using stands
    | integer _ | real _ => simp [show v' = _ from stands]
    | string _ =>
      obtain ⟨_, rfl, -⟩ := stands
      simp
  have typed : p.type.accepts v' = true ↔ q.type = .any ∨ q.type = .exact l.type := by
    rw [declares.type]
    cases q.type with
    | any => simp [ParamType.accepts]
    | exact expected =>
      simp only [ParamType.accepts, stands.type_eq, beq_iff_eq, reduceCtorEq, false_or,
        ParamType.exact.injEq]
      exact eq_comm
  simp only [Parameter.accepts, default, Option.isSome_some, Bool.or_true, Bool.and_true,
    Bool.or_eq_true, beq_iff_eq, isNil, typed, Fits, literal, Option.some.injEq, forall_eq']
  exact or_comm

end

end PrototypeParam

theorem Prototype.parameter_declared (h : Heap) (q : PrototypeParam) :
    q.Declares (parameter h q).2 (parameter h q).1 ∧ (parameter h q).2.Prolongs h := by
  obtain ⟨name, type, nullable, default⟩ := q
  cases default with
  | none => exact ⟨⟨rfl, rfl, rfl, .none⟩, fun _ _ => rfl⟩
  | some l =>
    obtain ⟨stands, prolongs⟩ := Literal.literalValue_standsFor h l
    exact ⟨⟨rfl, rfl, rfl, .some stands⟩, prolongs⟩

theorem Prototype.parameters_declared (h : Heap) (params : List PrototypeParam) :
    List.Forall₂ (PrototypeParam.Declares (parameters h params).2) params (parameters h params).1 ∧
      (parameters h params).2.Prolongs h := by
  induction params generalizing h with
  | nil => exact ⟨.nil, fun _ _ => rfl⟩
  | cons q rest ih =>
    obtain ⟨declared, first⟩ := parameter_declared h q
    obtain ⟨others, later⟩ := ih (parameter h q).2
    exact ⟨.cons (declared.prolong later) others, later.trans first⟩

/-! ### The check -/

def ParamType.sample : ParamType → Value
  | .any => .nil
  | .exact .nil => .nil
  | .exact .integer => .integer 0
  | .exact .real => .real ⟨0⟩
  | .exact .object => .object ⟨⟨0⟩⟩
  | .exact (.payload kind) => .ref ⟨kind, 0⟩

theorem Parameter.accepts_sample (p : Parameter) : p.accepts p.type.sample = true := by
  have typed : p.type.accepts p.type.sample = true := by
    cases p.type with
    | any => rfl
    | exact type => cases type <;> simp [ParamType.accepts, ParamType.sample, Value.type]
  simp [accepts, typed]

/-- Each value is accepted by the parameter in its place. -/
def Admits (params : List Parameter) (values : List Value) : Prop :=
  ∀ (i : Nat) (p : Parameter) (v : Value), params[i]? = some p → values[i]? = some v →
    p.accepts v = true

theorem admits_cons :
    Admits (p :: params) (v :: values) ↔ p.accepts v = true ∧ Admits params values := by
  refine ⟨fun admits => ⟨admits 0 p v rfl rfl, fun i => admits (i + 1)⟩, fun ⟨first, rest⟩ i => ?_⟩
  cases i with
  | zero =>
    rintro q w ⟨⟩ ⟨⟩
    exact first
  | succ i => exact rest i

namespace Function

variable {f : Function} {args : List Value} {params : List Parameter}

theorem typeFault?_eq_none_iff (index : Nat) :
    f.typeFault? index params args = none ↔ Admits params args := by
  induction params generalizing index args with
  | nil => simp [typeFault?, Admits]
  | cons p params ih =>
    cases args with
    | nil => simp [typeFault?, Admits]
    | cons v args =>
      rw [admits_cons, ← ih (index + 1), typeFault?]
      split
      · rename_i any
        simp [Parameter.accepts, any, ParamType.accepts]
      · split <;> simp_all

theorem checkArguments_eq_ok_iff : f.checkArguments args = .ok () ↔ f.minArgs ≤ args.length ∧
    (f.traits.variadic = true ∨ args.length ≤ f.maxArgs) ∧ Admits f.params args := by
  rw [← typeFault?_eq_none_iff (f := f) 0, checkArguments]
  split
  · simp only [reduceCtorEq, false_iff]
    omega
  split
  · rename_i many
    simp only [Bool.and_eq_true, decide_eq_true_eq, Bool.not_eq_true'] at many
    simp only [many.2, reduceCtorEq, Bool.false_eq_true, false_or, false_iff]
    omega
  · rename_i enough notMany
    simp only [Bool.and_eq_true, decide_eq_true_eq, Bool.not_eq_true', not_and, Bool.not_eq_false,
      Nat.not_lt] at enough notMany
    have room : f.traits.variadic = true ∨ args.length ≤ f.maxArgs := by
      by_cases fits : args.length ≤ f.maxArgs
      · exact .inr fits
      · exact .inl (notMany (Nat.not_le.mp fits))
    cases f.typeFault? 0 f.params args <;> simp [enough, room]

theorem exists_accepted (f : Function) :
    ∃ args, args.length = f.minArgs ∧ f.checkArguments args = .ok () := by
  have fewer : f.minArgs ≤ f.maxArgs := (takeWhile_sublist _).length_le
  have count : ((f.params.take f.minArgs).map (·.type.sample)).length = f.minArgs := by
    rw [length_map, length_take]
    exact Nat.min_eq_left fewer
  refine ⟨_, count, checkArguments_eq_ok_iff.mpr
    ⟨count.ge, .inr (count.trans_le fewer), fun i p v declared given => ?_⟩⟩
  rw [getElem?_map, List.getElem?_take] at given
  split at given
  · rw [declared] at given
    cases given
    exact p.accepts_sample
  · simp at given

/-- The slots of a call, when the open ones have been filled. -/
def padded (f : Function) (args : List Value) : List Value :=
  f.padDefaults args.length (args ++ replicate (f.maxArgs - args.length) .nil)

theorem length_padded (f : Function) (args : List Value) :
    (f.padded args).length = max args.length f.maxArgs := by
  simp [padded, padDefaults]
  omega

theorem padded_given (given : i < args.length) : (f.padded args)[i]? = args[i]? := by
  simp [padded, padDefaults, slotValue, given, getElem?_append_left]

theorem padded_open (left : args.length ≤ i) (declared : f.params[i]? = some p) :
    (f.padded args)[i]? = some (p.default.getD .nil) := by
  obtain ⟨within, -⟩ := List.getElem?_eq_some_iff.mp declared
  have slot : (args ++ List.replicate (f.maxArgs - args.length) .nil)[i]? = some Value.nil := by
    rw [List.getElem?_append_right left, List.getElem?_replicate, if_pos]
    exact Nat.sub_lt_sub_right left within
  rw [padded, padDefaults, getElem?_mapIdx, slot]
  simp [slotValue, declared, Nat.not_lt.mpr left]

end Function

/-! ### The window of a call -/

namespace Exec

open Tenancy.Action

theorem stackSet_apply (w : World) (t : Thread) (below above : List Value) (old v : Value)
    (stack : t.stack = (below ++ old :: above).toArray) :
    stackSet below.length v ⟨w, t⟩ = .ok () ⟨w, { t with stack := (below ++ v :: above).toArray }⟩ := by
  have there : below.length < t.stack.size := by
    rw [stack]
    simp
  have written : t.stack.setIfInBounds below.length v = (below ++ v :: above).toArray := by
    rw [stack]
    simp
  unfold stackSet
  rw [get_bind_apply, if_pos there, ← written]
  rfl

theorem forM_stackSet_apply (w : World) (base : Nat) (values : List Value) (t : Thread)
    (below : List Value) (same : old.length = values.length) (begins : base + k = below.length)
    (stack : t.stack = (below ++ old ++ above).toArray) :
    ((values.zipIdx k).forM fun (v, i) => stackSet (base + i) v : Exec Unit) ⟨w, t⟩ =
      .ok () ⟨w, { t with stack := (below ++ values ++ above).toArray }⟩ := by
  induction values generalizing old below k t with
  | nil =>
    obtain rfl := eq_nil_of_length_eq_zero same
    rw [← stack]
    rfl
  | cons v values ih =>
    obtain ⟨o, old, rfl⟩ := exists_cons_of_length_eq_add_one same
    have first := stackSet_apply w t below (old ++ above) o v (by rw [stack]; simp)
    have rest := ih { t with stack := (below ++ v :: (old ++ above)).toArray } (below ++ [v])
      (k := k + 1) (Nat.succ.inj same) (by simp [← begins, Nat.add_assoc]) (by simp)
    show (stackSet (base + k) v >>= fun _ => (values.zipIdx (k + 1)).forM _) _ = _
    rw [bind_apply, begins, first]
    dsimp only
    rw [rest]
    simp

theorem stackSlice_apply (w : World) (t : Thread) (below values above : List Value)
    (stack : t.stack = (below ++ values ++ above).toArray) :
    stackSlice below.length (below.length + values.length) ⟨w, t⟩ = .ok values ⟨w, t⟩ := by
  unfold stackSlice
  rw [get_bind_apply]
  rw [if_pos (by rw [stack]; simp), stack]
  show EStateM.Result.ok _ _ = _
  simp

theorem checkParameters_pushFrame (w : World) (t : Thread) (args : List Value)
    (begins : f.argsBase = t.stack.size) (argc : f.argc = args.length)
    (slots : f.argSlots = max args.length f.function.maxArgs) :
    checkParameters f ⟨w, pushFrame t f args⟩ = match f.function.checkArguments args with
      | .ok () => .ok () ⟨w, { pushFrame t f args with stack :=
          (t.stack.toList ++ f.function.padded args ++ replicate f.localCount Value.nil).toArray }⟩
      | .error fault => .error (.fault fault) ⟨w, pushFrame t f args⟩ := by
  let unset := replicate (f.function.maxArgs - args.length) Value.nil
  let locals := replicate f.localCount Value.nil
  have window : (pushFrame t f args).stack =
      (t.stack.toList ++ (args ++ unset) ++ locals).toArray := by
    have count : f.argSlots - f.argc = f.function.maxArgs - args.length := by omega
    rw [pushFrame, count]
    simp [unset, locals, ← replicate_append_replicate]
  have given := stackSlice_apply w (pushFrame t f args) t.stack.toList args (unset ++ locals)
    (by rw [window]; simp)
  have all := stackSlice_apply w (pushFrame t f args) _ _ _ window
  have total : (args ++ unset).length = f.argSlots := by
    simp [unset]
    omega
  have filled := forM_stackSet_apply w t.stack.size (f.function.padded args)
    (pushFrame t f args) t.stack.toList (k := 0)
    (by rw [total, slots, Function.length_padded]) rfl window
  rw [Array.length_toList] at given all
  rw [total] at all
  unfold checkParameters
  rw [bind_apply, begins, argc, given]
  dsimp only
  rw [bind_apply]
  cases f.function.checkArguments args with
  | error fault => rfl
  | ok _ =>
    show (stackSlice _ _ >>= _) _ = _
    rw [bind_apply, all]
    exact filled

end Exec

theorem Machine.slots_of_invoke {m m' : Machine} {c : Callable} (invoked : m.invoke c args = .ok m')
    (begun : m'.focus = .native body) :
    c.function.checkArguments args = .ok () ∧ m'.thread.stack.toList =
      m.thread.stack.toList ++ c.function.padded args ++ replicate c.function.locals .nil := by
  unfold invoke at invoked
  dsimp only at invoked
  split at invoked
  · cases invoked
    cases begun
  split at invoked
  · cases invoked
  split at invoked
  · have checked := Exec.checkParameters_pushFrame m.world m.thread (f := m.newFrame c args)
      args rfl rfl rfl
    have function : (m.newFrame c args).function = c.function := rfl
    rw [function] at checked
    unfold beginNative at invoked
    rw [checked] at invoked
    cases accepted : c.function.checkArguments args with
    | error fault =>
      rw [accepted] at invoked
      cases invoked
      cases begun
    | ok _ =>
      rw [accepted] at invoked
      cases invoked
      exact ⟨rfl, rfl⟩
  · cases invoked
    cases begun
  · cases invoked
    cases begun

/-! ### Functions with a prototype -/

namespace Prototype

variable {h : Heap} {ps : List PrototypeParam} {params : List Parameter}

theorem DefaultsLast.isSome_default (ordered : DefaultsLast ps)
    (later : (ps.takeWhile (·.default.isNone)).length ≤ i) (declared : ps[i]? = some q) :
    q.default.isSome = true := by
  induction ps generalizing i with
  | nil => simp at declared
  | cons p ps ih =>
    obtain ⟨first, rest⟩ := pairwise_cons.mp ordered
    cases default : p.default with
    | none =>
      rw [takeWhile_cons_of_pos (by simp [default]), length_cons] at later
      cases i with
      | zero => omega
      | succ i => exact ih rest (Nat.le_of_succ_le_succ later) declared
    | some l =>
      have isSome : p.default.isSome = true := by rw [default]; rfl
      cases i with
      | zero =>
        cases declared
        exact isSome
      | succ i => exact first q (mem_of_getElem? declared) isSome

theorem default_eq_none (earlier : i < (ps.takeWhile (·.default.isNone)).length)
    (declared : ps[i]? = some q) : q.default = none := by
  obtain ⟨within, rfl⟩ := List.getElem?_eq_some_iff.mp declared
  have mem := List.getElem_mem earlier
  rw [(List.takeWhile_prefix _).getElem earlier] at mem
  have isNone := mem_takeWhile_imp mem
  exact Option.isNone_iff_eq_none.mp isNone

theorem length_takeWhile_declared (declared : List.Forall₂ (PrototypeParam.Declares h) ps params) :
    (params.takeWhile (·.default.isNone)).length = (ps.takeWhile (·.default.isNone)).length := by
  induction declared with
  | nil => rfl
  | @cons q p _ _ first _ ih =>
    have same : p.default.isNone = q.default.isNone := by
      rw [← Option.not_isSome, ← Option.not_isSome, first.isSome_default]
    cases isNone : q.default.isNone with
    | true => simp [same, isNone, ih]
    | false => simp [same, isNone]

theorem defaultsLast_of_parse (read : parse text = .ok p) : DefaultsLast p.params := by
  obtain ⟨rest, read⟩ := parse_eq_ok.mp read
  obtain ⟨-, tokens, rule, -⟩ := run_readPrototype_eq_ok.mp read
  cases rule with
  | intro _ _ _ ordered => exact ordered

/-- What the slots of a function with a prototype hold. -/
structure Fills (p : Prototype) (f : Function) (h : Heap) (args : List Value) : Prop where
  count : (f.padded args).length = max args.length p.params.length
  given : args <+: f.padded args
  accepted : Admits f.params args
  /-- Every slot that the caller left open has a default, and holds it. -/
  filled : ∀ (i : Nat) (q : PrototypeParam), args.length ≤ i → p.params[i]? = some q →
    ∃ l v, q.default = some l ∧ (f.padded args)[i]? = some v ∧ l.StandsFor h v
  typed : Admits f.params (f.padded args) ↔
    ∀ (i : Nat) (q : PrototypeParam), args.length ≤ i → p.params[i]? = some q → q.Fits

variable {p : Prototype} {f : Function} {args : List Value} {i : Nat} {q : PrototypeParam}

section

variable (declared : List.Forall₂ (PrototypeParam.Declares h) p.params f.params)
  (ordered : DefaultsLast p.params)
include declared ordered

theorem padded_default (enough : f.minArgs ≤ args.length) (left : args.length ≤ i)
    (found : p.params[i]? = some q) : ∃ r l v, f.params[i]? = some r ∧ q.Declares h r ∧
      q.default = some l ∧ r.default = some v ∧ (f.padded args)[i]? = some v ∧ l.StandsFor h v := by
  obtain ⟨r, found', declares⟩ : ∃ r, f.params[i]? = some r ∧ q.Declares h r := by
    obtain ⟨within, rfl⟩ := List.getElem?_eq_some_iff.mp found
    have within' : i < f.params.length := declared.length_eq ▸ within
    exact ⟨_, List.getElem?_eq_getElem within', declared.get within within'⟩
  have later : (p.params.takeWhile (·.default.isNone)).length ≤ i := by
    rw [← length_takeWhile_declared declared]
    exact enough.trans left
  have some := ordered.isSome_default later found
  obtain ⟨none, -⟩ | ⟨l, v, literal, value, stands⟩ := declares.default_cases
  · simp [none] at some
  · refine ⟨r, l, v, found', declares, literal, value, ?_, stands⟩
    rw [Function.padded_open left found', value]
    rfl

theorem fills (accepted : f.checkArguments args = .ok ()) : p.Fills f h args := by
  obtain ⟨enough, -, admits⟩ := Function.checkArguments_eq_ok_iff.mp accepted
  refine ⟨?_, ?_, admits, fun i q left found => ?_, fun typed i q left found => ?_, fun fit => ?_⟩
  · rw [Function.length_padded, Function.maxArgs, declared.length_eq]
  · rw [prefix_iff_getElem?]
    intro i given
    rw [Function.padded_given given, getElem?_eq_getElem given]
  · obtain ⟨r, l, v, -, -, literal, -, slot, stands⟩ :=
      padded_default declared ordered enough left found
    exact ⟨l, v, literal, slot, stands⟩
  · obtain ⟨r, l, v, found', declares, -, value, slot, -⟩ :=
      padded_default declared ordered enough left found
    exact (declares.accepts_default_iff value).mp (typed i r v found' slot)
  · intro i r v found' slot
    by_cases given : i < args.length
    · rw [Function.padded_given given] at slot
      exact admits i r v found' slot
    have left := Nat.not_lt.mp given
    obtain ⟨q, found⟩ : ∃ q, p.params[i]? = some q := by
      obtain ⟨within, -⟩ := List.getElem?_eq_some_iff.mp found'
      exact ⟨_, List.getElem?_eq_getElem (declared.length_eq ▸ within)⟩
    obtain ⟨r', l, v', found'', declares, -, value, slot', -⟩ :=
      padded_default declared ordered enough left found
    obtain rfl := Option.some.inj (found'.symm.trans found'')
    obtain rfl := Option.some.inj (slot.symm.trans slot')
    exact (declares.accepts_default_iff value).mpr (fit i q left found)

theorem all_fit_iff : (∀ args, f.checkArguments args = .ok () → Admits f.params (f.padded args)) ↔
      ∀ q ∈ p.params, q.Fits := by
  constructor
  · intro typed q listed
    obtain ⟨args, count, accepted⟩ := f.exists_accepted
    obtain ⟨i, found⟩ := mem_iff_getElem?.mp listed
    by_cases later : f.minArgs ≤ i
    · exact (fills declared ordered accepted).typed.mp (typed args accepted) i q (count ▸ later) found
    · have none := default_eq_none (length_takeWhile_declared declared ▸ Nat.not_le.mp later) found
      intro l default
      simp [none] at default
  · intro fit args accepted
    exact (fills declared ordered accepted).typed.mpr fun i q _ found =>
      fit q (mem_of_getElem? found)

end

/-- The parameters of a function with a prototype hold the arguments that were given and accepted, and
then their defaults. They are of their types if the defaults that were filled in fit, and for all
arguments that are accepted only if all defaults of the prototype fit. -/
theorem parameters_typed_up_to_defaults {text : String} {p : Prototype} {number : Nat} {body : Body}
    {h h' : Heap} {f : Function} (read : parse text = .ok p)
    (made : p.toFunction number body h = (f, h')) :
    (∀ args, f.checkArguments args = .ok () → p.Fills f h' args) ∧
    ((∀ args, f.checkArguments args = .ok () → Admits f.params (f.padded args)) ↔
      ∀ q ∈ p.params, q.Fits) ∧
    ∀ (m m' : Machine) (c : Callable) (args : List Value) (native : Native Value), c.function = f →
      m.invoke c args = .ok m' → m'.focus = .native native → f.checkArguments args = .ok () ∧
      m'.thread.stack.toList =
        m.thread.stack.toList ++ f.padded args ++ replicate f.locals .nil := by
  obtain ⟨declared, -⟩ := parameters_declared h p.params
  have ordered := defaultsLast_of_parse read
  cases made
  refine ⟨fun args accepted => fills declared ordered accepted, all_fit_iff declared ordered, ?_⟩
  rintro m m' c args native function invoked begun
  rw [← function]
  exact slots_of_invoke invoked begun

/-- `?int pad(string text, int ?width = 8, string fill = "-", ...)` -/
def padding : Prototype where
  name := "pad"
  returnType := .exact .integer
  traits := { variadic := true, nullable := true }
  params := [⟨"text", .exact (.payload .string), false, none⟩,
    ⟨"width", .exact .integer, true, some (.integer 8)⟩,
    ⟨"fill", .exact (.payload .string), false, some (.string "-")⟩]

def texted : Value × Heap := Heap.make {} .loose (.string "tenant")

def padder : Function × Heap := padding.toFunction 0 .undefined texted.2

/-- With a text and no width, the slots hold the text, nil and the default. -/
theorem parameters_typed_of_padding :
    parse "?int pad(string text, int ?width = 8, string fill = \"-\", ...)" = .ok padding ∧
    padder.1.checkArguments [texted.1, .nil] = .ok () ∧
    padding.Fills padder.1 padder.2 [texted.1, .nil] ∧
    Admits padder.1.params [texted.1, .nil, .ref ⟨.string, 1⟩] := by
  have read : parse "?int pad(string text, int ?width = 8, string fill = \"-\", ...)" =
      .ok padding := by decide +kernel
  have made : padding.toFunction 0 .undefined texted.2 = (padder.1, padder.2) := rfl
  have accepted : padder.1.checkArguments [texted.1, .nil] = .ok () := rfl
  obtain ⟨fills, typed, -⟩ := parameters_typed_up_to_defaults read made
  have fit : ∀ q ∈ padding.params, q.Fits := by
    simp [padding, PrototypeParam.Fits, Literal.type]
  exact ⟨read, accepted, fills _ accepted, typed.mpr fit _ accepted⟩

/-- A default that does not fit is read, escapes the check of no arguments, and is filled in. -/
theorem parameters_untyped_of_default : ∃ p f h v, parse "int f(int a = \"x\")" = .ok p ∧
    p.toFunction 0 .undefined {} = (f, h) ∧ f.checkArguments [] = .ok () ∧ f.padded [] = [v] ∧
    h.text? v = some "x" ∧ ¬ Admits f.params (f.padded []) := by
  refine ⟨⟨"f", .exact .integer, {}, [⟨"a", .exact .integer, false, some (.string "x")⟩]⟩, _, _, _,
    by decide +kernel, rfl, rfl, rfl, rfl, fun admits => ?_⟩
  have accepted : false = true := admits 0 _ _ rfl rfl
  cases accepted

end Prototype

end Tenancy
