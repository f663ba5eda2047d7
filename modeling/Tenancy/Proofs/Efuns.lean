import Tenancy.Efun
import Tenancy.Proofs.Prototype.Reading

/-!
Efuns by name.

Calls that fail to register an efun leave no trace, and the functions of the others are numbered as
they come. One table of names serves names with a dot and names without. A prototype never has a name
with a dot, so the two never get in each other's way: the last registration counts under a qualified
name, and so it does under a short name without a package; else the first of that name counts,
whatever its package is.
-/

namespace Tenancy

open List Option

theorem Prototype.Spelled.proper (spelled : Spelled tokens cs) : ∀ t ∈ tokens, t.Proper := by
  induction spelled with
  | nil _ => simp
  | cons begins _ ih =>
    obtain ⟨-, -, proper, -, -⟩ := begins
    exact forall_mem_cons.mpr ⟨proper, ih⟩

theorem Prototype.not_mem_name_of_parse (parsed : parse text = .ok p) : '.' ∉ p.name.toList := by
  obtain ⟨rest, read⟩ := parse_eq_ok.mp parsed
  obtain ⟨-, tokens, rule, spelled⟩ := run_readPrototype_eq_ok.mp read
  cases rule with
  | @intro _ name =>
    have named : (Token.name name).Proper := spelled.proper _ (by simp)
    intro dotted
    exact absurd (named.2 '.' dotted) (by decide)

namespace EfunRegistry

variable {names : List (String × Nat)} {a n : String} {k : Nat}

theorem lookup_replace (names : List (String × Nat)) (a n : String) (k : Nat) :
    (names.map fun e => if e.1 = a then (a, k) else e).lookup n =
      if n = a then (names.lookup n).map fun _ => k else names.lookup n := by
  induction names with
  | nil => simp
  | cons e rest ih =>
    obtain ⟨b, j⟩ := e
    rw [map_cons]
    by_cases here : b = a <;> by_cases found : n = b <;>
      simp_all [lookup_cons, beq_eq_false_iff_ne.mpr]

theorem lookup_append_new (names : List (String × Nat)) (a n : String) (k : Nat) :
    (names ++ [(a, k)]).lookup n = (names.lookup n).or (if n = a then some k else none) := by
  rw [lookup_append]
  congr 1
  by_cases same : n = a
  · simp [same]
  · simp [lookup_cons, beq_eq_false_iff_ne.mpr same, same]

theorem lookup_isSome (names : List (String × Nat)) (a : String) :
    (names.lookup a).isSome = names.any (·.1 = a) := by
  induction names with
  | nil => rfl
  | cons e rest ih =>
    obtain ⟨b, j⟩ := e
    by_cases here : b = a
    · simp [here]
    · simpa [lookup_cons, here, beq_eq_false_iff_ne.mpr (Ne.symm here)] using ih

theorem lookup_bindName (names : List (String × Nat)) (a n : String) (k : Nat) :
    (bindName names a k).lookup n = if n = a then some k else names.lookup n := by
  rw [bindName, ← lookup_isSome]
  split
  · rename_i taken
    obtain ⟨old, found⟩ := isSome_iff_exists.mp taken
    rw [lookup_replace]
    split
    · rename_i same
      rw [same, found, map_some]
    · rfl
  · rename_i free
    rw [lookup_append_new]
    split
    · rename_i same
      rw [same, not_isSome_iff_eq_none.mp free, none_or]
    · rw [or_none]

theorem lookup_bindNameIfFree (names : List (String × Nat)) (a n : String) (k : Nat) :
    (bindNameIfFree names a k).lookup n = (names.lookup n).or (if n = a then some k else none) := by
  rw [bindNameIfFree, ← lookup_isSome]
  split
  · rename_i taken
    obtain ⟨old, found⟩ := isSome_iff_exists.mp taken
    split
    · rename_i same
      rw [same, found, some_or]
    · rw [or_none]
  · exact lookup_append_new names a n k

structure Call where
  package : String
  body : Native Value
  text : String

/-- An efun that was registered, and the package that it was registered in. -/
structure Registration where
  package : String
  function : Function

def Registration.qualified (g : Registration) : String :=
  if g.package = "" then g.function.name else g.package ++ "." ++ g.function.name

/-- A call that fails is as if it had not been made. -/
def enrol (s : EfunRegistry × Heap) (c : Call) : EfunRegistry × Heap :=
  match s.1.add c.package c.body c.text s.2 with
  | .ok (_, r, h) => (r, h)
  | .error _ => s

/-- What calls register, one after the other, from the number `k` on. -/
def registrations (h : Heap) (k : Nat) : List Call → List Registration
  | [] => []
  | c :: rest =>
    match Prototype.parse c.text with
    | .error _ => registrations h k rest
    | .ok p =>
      let (f, h) := p.toFunction k (.native c.body) h
      ⟨c.package, f⟩ :: registrations h (k + 1) rest

def chosen? (gs : List Registration) (n : String) : Option Registration :=
  if '.' ∈ n.toList then (gs.filter (·.qualified = n)).getLast?
  else
    (gs.filter fun g => g.package = "" ∧ g.function.name = n).getLast?.or
      (gs.find? (·.function.name = n))

/-- The registry holds the registrations, each under its number, and finds the one that a name leads
to. -/
structure Keeps (r : EfunRegistry) (gs : List Registration) : Prop where
  functions : r.functions = gs.map Registration.function
  numbered : ∀ (k : Nat) (f : Function), r.functions[k]? = some f → f.number = k
  bounded : ∀ (n : String) (k : Nat), r.names.lookup n = some k → k < r.functions.length
  found : ∀ n, r.find? n = (chosen? gs n).map Registration.function

variable {r : EfunRegistry} {gs : List Registration} {g : Registration} {h : Heap} {c : Call}
  {p : Prototype}

theorem getLast?_filter_append (q : Registration → Bool) (gs : List Registration) (g : Registration) :
    ((gs ++ [g]).filter q).getLast? = if q g then some g else (gs.filter q).getLast? := by
  rw [filter_append, getLast?_append]
  by_cases passes : q g <;> simp [passes]

theorem chosen?_append_of_no_dot (short : '.' ∉ n.toList) :
    chosen? (gs ++ [g]) n = if g.package = "" ∧ g.function.name = n then some g
      else (chosen? gs n).or (if g.function.name = n then some g else none) := by
  simp only [chosen?, short, if_false, getLast?_filter_append, find?_append, decide_eq_true_eq]
  split
  · rfl
  · rw [Option.or_assoc]
    congr 2
    by_cases same : g.function.name = n <;> simp [same]

/-- The registry after a registration under the next number. -/
def extended (r : EfunRegistry) (g : Registration) : EfunRegistry where
  functions := r.functions ++ [g.function]
  names :=
    if g.package = "" then bindName r.names g.function.name r.functions.length
    else bindNameIfFree (bindName r.names g.qualified r.functions.length) g.function.name
      r.functions.length

theorem find?_eq (r : EfunRegistry) (n : String) :
    r.find? n = (r.names.lookup n).bind fun k => r.functions[k]? := rfl

theorem find?_extended (bounded : ∀ (n : String) (k : Nat), r.names.lookup n = some k →
    k < r.functions.length) (n : String) :
    (r.extended g).find? n = if g.qualified = n then some g.function
      else (r.find? n).or (if g.package ≠ "" ∧ g.function.name = n then some g.function else none) := by
  have kept : ((r.names.lookup n).bind fun k => (r.functions ++ [g.function])[k]?) = r.find? n := by
    rw [find?_eq]
    cases found : r.names.lookup n with
    | none => rfl
    | some k => exact getElem?_append_left (bounded n k found)
  rw [find?_eq]
  unfold extended
  by_cases bare : g.package = ""
  · rw [if_pos bare, lookup_bindName, Registration.qualified, if_pos bare]
    by_cases same : n = g.function.name
    · simp [same]
    · simp [same, Ne.symm same, bare, kept]
  · rw [if_neg bare, lookup_bindNameIfFree, lookup_bindName]
    by_cases same : n = g.qualified
    · simp [same]
    · rw [if_neg same, if_neg (Ne.symm same), ← kept]
      cases found : r.names.lookup n with
      | none => by_cases short : n = g.function.name <;> simp [short, bare, Ne.symm]
      | some k =>
        have within : k < (r.functions ++ [g.function]).length := by
          simpa using Nat.lt_succ_of_lt (bounded n k found)
        simp [getElem?_eq_getElem within]

theorem bounded_extended (bounded : ∀ (n : String) (k : Nat), r.names.lookup n = some k →
    k < r.functions.length) (n : String) (k : Nat) (found : (r.extended g).names.lookup n = some k) :
    k < (r.extended g).functions.length := by
  have old (before : r.names.lookup n = some k) : k < r.functions.length + 1 :=
    Nat.lt_succ_of_lt (bounded n k before)
  have new (last : r.functions.length = k) : k < r.functions.length + 1 := by omega
  simp only [extended, length_append, length_singleton] at found ⊢
  split at found
  · rw [lookup_bindName] at found
    split at found
    · exact new (some.inj found)
    · exact old found
  · rw [lookup_bindNameIfFree, lookup_bindName] at found
    rcases or_eq_some_iff.mp found with first | ⟨-, last⟩
    · split at first
      · exact new (some.inj first)
      · exact old first
    · split at last
      · exact new (some.inj last)
      · simp at last

theorem Keeps.extended (keeps : r.Keeps gs) (plain : '.' ∉ g.function.name.toList)
    (next : g.function.number = gs.length) : (r.extended g).Keeps (gs ++ [g]) where
  functions := by simp [EfunRegistry.extended, keeps.functions]
  numbered k f listed := by
    simp only [EfunRegistry.extended, getElem?_append] at listed
    split at listed
    · exact keeps.numbered k f listed
    · have last : k - r.functions.length = 0 ∧ g.function = f := by
        simpa [getElem?_singleton] using listed
      rw [keeps.functions, length_map] at last
      rw [← last.2, next]
      simp only [keeps.functions, length_map] at *
      omega
  bounded := bounded_extended keeps.bounded
  found n := by
    rw [find?_extended keeps.bounded, keeps.found]
    by_cases dotted : '.' ∈ n.toList
    · have apart : g.function.name ≠ n := by
        rintro rfl
        exact plain dotted
      simp only [chosen?, dotted, if_true, getLast?_filter_append, decide_eq_true_eq]
      split <;> simp [apart]
    · have packed (other : g.package ≠ "") : g.qualified ≠ n := by
        rintro rfl
        exact dotted (by simp [Registration.qualified, other])
      rw [chosen?_append_of_no_dot dotted]
      by_cases bare : g.package = ""
      · by_cases same : g.function.name = n <;> simp [Registration.qualified, bare, same]
      · rw [if_neg (packed bare), if_neg fun both : _ ∧ _ => bare both.1, map_or]
        by_cases same : g.function.name = n <;> simp [bare, same]

theorem add_of_error (failed : Prototype.parse c.text = .error e) :
    r.add c.package c.body c.text h = .error e := by
  simp [add, failed, bind, Except.bind]

theorem enrol_of_error (failed : Prototype.parse c.text = .error e) : enrol (r, h) c = (r, h) := by
  simp only [enrol, add_of_error failed]

theorem enrol_of_ok (parsed : Prototype.parse c.text = .ok p) : enrol (r, h) c =
      (r.extended ⟨c.package, (p.toFunction r.functions.length (.native c.body) h).1⟩,
        (p.toFunction r.functions.length (.native c.body) h).2) := by
  simp only [enrol, add, parsed, bind, Except.bind, pure, Except.pure, extended,
    Registration.qualified]
  congr 2
  by_cases bare : c.package = "" <;> simp [bare, Prototype.toFunction]

theorem Keeps.enrolled (keeps : r.Keeps gs) (h : Heap) (calls : List Call) :
    (calls.foldl enrol (r, h)).1.Keeps (gs ++ registrations h gs.length calls) := by
  induction calls generalizing r gs h with
  | nil => simpa [registrations] using keeps
  | cons c rest ih =>
    rw [foldl_cons, registrations]
    cases parsed : Prototype.parse c.text with
    | error e =>
      rw [enrol_of_error parsed]
      exact ih keeps h
    | ok p =>
      have count : r.functions.length = gs.length := by rw [keeps.functions, length_map]
      rw [enrol_of_ok parsed, count]
      have plain := Prototype.not_mem_name_of_parse parsed
      have next := ih (keeps.extended
        (g := ⟨c.package, (p.toFunction gs.length (.native c.body) h).1⟩) plain rfl)
        (p.toFunction gs.length (.native c.body) h).2
      rw [length_append, length_singleton, append_assoc] at next
      exact next

theorem registrations_eq (h : Heap) (k : Nat) (calls : List Call) :
    (registrations h k calls).map (fun g => (g.package, g.function.name, g.function.returnType,
        g.function.traits, g.function.body)) =
      calls.filterMap fun c => (Prototype.parse c.text).toOption.map fun p =>
        (c.package, p.name, p.returnType, p.traits, .native c.body) := by
  induction calls generalizing h k with
  | nil => rfl
  | cons c rest ih =>
    rw [registrations]
    cases parsed : Prototype.parse c.text with
    | error e => simpa [parsed, Except.toOption] using ih h k
    | ok p => simpa [parsed, Except.toOption, Prototype.toFunction] using ih _ (k + 1)

/-- Efuns are numbered in the order of the calls that register them, and each name leads to the last
registration under it, or, when it is short and no registration without a package has it, to the first
that has it. Calls with a prototype that cannot be read change nothing. -/
theorem names_lead_to_registrations (h : Heap) (calls : List Call) :
    (calls.foldl enrol ({}, h)).1.Keeps (registrations h 0 calls) ∧
    (registrations h 0 calls).map (fun g => (g.package, g.function.name, g.function.returnType,
        g.function.traits, g.function.body)) =
      (calls.filterMap fun c => (Prototype.parse c.text).toOption.map fun p =>
        (c.package, p.name, p.returnType, p.traits, .native c.body)) ∧
    ∀ (c : Call) (e : PrototypeError), Prototype.parse c.text = .error e →
      (calls.foldl enrol ({}, h)).1.add c.package c.body c.text (calls.foldl enrol ({}, h)).2 =
        .error e ∧
      (calls ++ [c]).foldl enrol ({}, h) = calls.foldl enrol ({}, h) := by
  have empty : Keeps {} [] := ⟨rfl, by simp, by simp, fun n => by simp [find?, chosen?]⟩
  refine ⟨by simpa using empty.enrolled h calls, registrations_eq h 0 calls, fun c e failed => ?_⟩
  refine ⟨add_of_error failed, ?_⟩
  rw [foldl_append]
  exact enrol_of_error failed

end EfunRegistry

end Tenancy
