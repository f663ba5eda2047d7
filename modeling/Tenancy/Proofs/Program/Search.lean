import Mathlib.Data.List.Perm.Subperm
import Mathlib.Logic.ExistsUnique
import Mathlib.Logic.Relation
import Tenancy.Program.Registry

/-!
The search for an order of linking.

The search goes through the composition of pending programs, depth first. Here it is a relation, with
no bound on its depth. It ends on every composition, and what the bounded search answers is what it
ends with. An order that it finds has each program after those that it is composed of, and an error
that it ends with names a part that is missing or a program that is part of itself.
-/

namespace Tenancy

open List

theorem find?_name_eq {α : Type} {nameOf : α → String} {xs : List α}
    (distinct : (xs.map nameOf).Nodup) {x : α} (mem : x ∈ xs) :
    xs.find? (fun y => nameOf y = nameOf x) = some x := by
  induction xs with
  | nil => simp at mem
  | cons y rest ih =>
    obtain ⟨first, others⟩ := nodup_cons.mp distinct
    rcases mem_cons.mp mem with rfl | later
    · simp
    · have ne : nameOf y ≠ nameOf x := fun same => first (same ▸ mem_map_of_mem later)
      rw [find?_cons_of_neg (by simpa using ne)]
      exact ih others later

namespace Registry

/-- A pending program that another pending program is composed of. -/
def PartOf (r : Registry) (part whole : String) : Prop :=
  (r.pending? part).isSome ∧ ∃ d, r.pending? whole = some d ∧ part ∈ d.parts

/-- No pending program is a part of itself, directly or through others. -/
def Acyclic (r : Registry) : Prop := ∀ name, ¬ Relation.TransGen r.PartOf name name

def Complete (r : Registry) : Prop := ∀ d ∈ r.pending, ∀ part ∈ d.parts, r.known part

/-- Pending programs, each after those that it is composed of. -/
inductive Ordered (r : Registry) : List String → Prop where
  | nil : Ordered r []
  | snoc {order : List String} {name : String} {d : Declaration} (before : Ordered r order)
      (new : name ∉ order) (pending : r.pending? name = some d)
      (parts : ∀ part ∈ d.parts, r.known part ∧ ((r.pending? part).isSome → part ∈ order)) :
      Ordered r (order ++ [name])

def Defect (r : Registry) : LinkError → Prop
  | .unknownComponent program component =>
    ∃ d, r.pending? program = some d ∧ component ∈ d.parts ∧ ¬ r.known component
  | .cycle program => Relation.TransGen r.PartOf program program
  | .duplicate _ => False

/-- Visits `parts` in turn, which the first program on `path` is composed of. All on `path` are being
visited, and `order` has those that have been. -/
inductive Visits (r : Registry) : (path order parts : List String) →
    Except LinkError (List String) → Prop where
  | done {path order : List String} : Visits r path order [] (.ok order)
  | skip {path order rest : List String} {part : String} {result : Except LinkError (List String)}
      (known : path = [] ∨ r.known part) (off : part ∉ path)
      (settled : part ∈ order ∨ r.pending? part = none) (later : Visits r path order rest result) :
      Visits r path order (part :: rest) result
  | descend {path order order' rest : List String} {part : String} {d : Declaration}
      {result : Except LinkError (List String)} (off : part ∉ path) (new : part ∉ order)
      (pending : r.pending? part = some d)
      (below : Visits r (part :: path) order d.parts (.ok order'))
      (later : Visits r path (order' ++ [part]) rest result) :
      Visits r path order (part :: rest) result
  | fail {path order rest : List String} {part : String} {d : Declaration} {e : LinkError}
      (off : part ∉ path) (new : part ∉ order) (pending : r.pending? part = some d)
      (below : Visits r (part :: path) order d.parts (.error e)) :
      Visits r path order (part :: rest) (.error e)
  | cycle {path order rest : List String} {part : String} (on : part ∈ path) :
      Visits r path order (part :: rest) (.error (.cycle part))
  | unknown {path order rest : List String} {name part : String} (off : part ∉ name :: path)
      (unknown : ¬ r.known part) :
      Visits r (name :: path) order (part :: rest) (.error (.unknownComponent name part))

variable {r : Registry} {path order order' parts : List String} {name part whole : String}
  {d : Declaration} {e : LinkError} {result : Except LinkError (List String)}

theorem known_of_pending (pending : (r.pending? part).isSome) : r.known part := by
  simp [known, pending]

theorem Visits.apart (visits : Visits r path order parts result)
    (apart : ∀ name ∈ path, name ∉ order) (ended : result = .ok order') :
    ∀ name ∈ path, name ∉ order' := by
  induction visits generalizing order' with
  | done =>
    cases ended
    exact apart
  | skip _ _ _ _ ih => exact ih apart ended
  | descend off new _ _ _ belowHypothesis laterHypothesis =>
    have below := belowHypothesis (by simpa [new] using apart) rfl
    refine laterHypothesis ?_ ended
    intro name on mem
    rcases mem_append.mp mem with earlier | last
    · exact below name (.tail _ on) earlier
    · exact off (mem_singleton.mp last ▸ on)
  | fail | cycle | unknown => cases ended

/-! ### The search ends -/

/-- One round of the bounded search through the parts of a program. -/
def turn (r : Registry) (fuel : Nat) (path order : List String) (part : String) :
    Except LinkError (List String) :=
  match path with
  | [] => r.visit fuel [] order part
  | name :: above =>
    if part = name then .error (.cycle name)
    else if !r.known part then .error (.unknownComponent name part)
    else r.visit fuel (name :: above) order part

theorem visit_succ (r : Registry) (fuel : Nat) (path order : List String) (name : String) :
    r.visit (fuel + 1) path order name =
      if name ∈ order then .ok order
      else if name ∈ path then .error (.cycle name)
      else
        match r.pending? name with
        | none => .ok order
        | some d => (d.parts.foldlM (r.turn fuel (name :: path)) order).map (· ++ [name]) := by
  simp only [visit, contains_iff_mem]
  rfl

theorem turn_of_on (on : part ∈ path) (pending : ∀ name ∈ path, (r.pending? name).isSome)
    (apart : ∀ name ∈ path, name ∉ order) (fuel : Nat) :
    r.turn (fuel + 1) path order part = .error (.cycle part) := by
  have known := known_of_pending (pending part on)
  cases path with
  | nil => simp at on
  | cons name above =>
    by_cases same : part = name
    · simp [turn, same]
    · simp [turn, same, known, visit_succ, apart part on, on]

theorem turn_of_off (off : part ∉ path) (known : path = [] ∨ r.known part) (fuel : Nat) :
    r.turn fuel path order part = r.visit fuel path order part := by
  cases path with
  | nil => rfl
  | cons name above =>
    have ne : part ≠ name := ne_of_not_mem_cons off
    have known : r.known part := known.resolve_left (cons_ne_nil _ _)
    simp [turn, ne, known]

/-- What the bounded search answers is what the search ends with: a path of pending programs, each
at most once, never uses up the bound. -/
theorem visits_turns (fuel : Nat) (bound : path.length + fuel = r.pending.length + 1)
    (distinct : path.Nodup) (pending : ∀ name ∈ path, (r.pending? name).isSome)
    (apart : ∀ name ∈ path, name ∉ order) :
    Visits r path order parts (parts.foldlM (r.turn fuel path) order) := by
  induction fuel generalizing path order parts with
  | zero =>
    have listed : path ⊆ r.pending.map Declaration.name := by
      intro name on
      obtain ⟨d, found⟩ := Option.isSome_iff_exists.mp (pending name on)
      obtain ⟨mem, rfl⟩ := mem_of_pending? found
      exact mem_map_of_mem mem
    have short := (subperm_of_subset distinct listed).length_le
    rw [length_map] at short
    omega
  | succ fuel ih =>
    induction parts generalizing order with
    | nil => exact .done
    | cons part rest restHypothesis =>
      rw [foldlM_cons]
      by_cases on : part ∈ path
      · rw [turn_of_on on pending apart]
        exact .cycle on
      by_cases known : path = [] ∨ r.known part
      · rw [turn_of_off on known, visit_succ, if_neg on]
        by_cases old : part ∈ order
        · rw [if_pos old]
          exact .skip known on (.inl old) (restHypothesis apart)
        rw [if_neg old]
        cases found : r.pending? part with
        | none => exact .skip known on (.inr found) (restHypothesis apart)
        | some d =>
          have below : Visits r (part :: path) order d.parts
              (d.parts.foldlM (r.turn fuel (part :: path)) order) :=
            ih (by simp only [length_cons]; omega)
              (nodup_cons.mpr ⟨on, distinct⟩) (by simpa [found] using pending)
              (by simpa [old] using apart)
          dsimp only
          cases ended : d.parts.foldlM (r.turn fuel (part :: path)) order with
          | error e =>
            rw [ended] at below
            exact .fail on old found below
          | ok order' =>
            rw [ended] at below
            refine .descend on old found below (restHypothesis ?_)
            intro name passed mem
            rcases mem_append.mp mem with earlier | last
            · exact below.apart (by simpa [old] using apart) rfl name (.tail _ passed) earlier
            · exact on (mem_singleton.mp last ▸ passed)
      · cases path with
        | nil => simp at known
        | cons name above =>
          have ne : part ≠ name := ne_of_not_mem_cons on
          have unknown : ¬ r.known part := by simpa using known
          have stopped : r.turn (fuel + 1) (name :: above) order part =
              .error (.unknownComponent name part) := by simp [turn, ne, unknown]
          rw [stopped]
          exact .unknown on unknown

theorem visits_linkOrder (r : Registry) :
    Visits r [] [] (r.pending.map Declaration.name) r.linkOrder :=
  visits_turns _ (Nat.zero_add _) .nil (by simp) (by simp)

theorem Visits.unique (visits : Visits r path order parts result)
    (again : Visits r path order parts other) : other = result := by
  induction visits generalizing other with
  | done =>
    cases again
    rfl
  | skip known off settled _ ih =>
    cases again with
    | skip _ _ _ later => exact ih later
    | descend _ new pending | fail _ new pending => simp [new, pending] at settled
    | cycle on => exact absurd on off
    | unknown _ unknown => simp [unknown] at known
  | descend off new pending _ _ belowHypothesis laterHypothesis =>
    cases again with
    | skip _ _ settled => simp [new, pending] at settled
    | descend _ _ pendingToo below later =>
      cases pending.symm.trans pendingToo
      cases belowHypothesis below
      exact laterHypothesis later
    | fail _ _ pendingToo below =>
      cases pending.symm.trans pendingToo
      cases belowHypothesis below
    | cycle on => exact absurd on off
    | unknown _ unknown => exact absurd (known_of_pending (by simp [pending])) unknown
  | fail off new pending _ belowHypothesis =>
    cases again with
    | skip _ _ settled => simp [new, pending] at settled
    | descend _ _ pendingToo below =>
      cases pending.symm.trans pendingToo
      cases belowHypothesis below
    | fail _ _ pendingToo below =>
      cases pending.symm.trans pendingToo
      exact belowHypothesis below
    | cycle on => exact absurd on off
    | unknown _ unknown => exact absurd (known_of_pending (by simp [pending])) unknown
  | cycle on =>
    cases again with
    | cycle => rfl
    | skip _ off | descend off | fail off | unknown off => exact absurd on off
  | unknown off unknown =>
    cases again with
    | unknown => rfl
    | skip known => simp [unknown] at known
    | descend _ _ pending | fail _ _ pending =>
      exact absurd (known_of_pending (by simp [pending])) unknown
    | cycle on => exact absurd on off

theorem exists_unique_visits (r : Registry) (order parts : List String) :
    ∃! result, Visits r [] order parts result := by
  refine ⟨_, visits_turns _ (Nat.zero_add _) .nil (by simp) (by simp), ?_⟩
  intro other again
  exact Visits.unique (visits_turns _ (Nat.zero_add _) .nil (by simp) (by simp)) again

/-! ### What the search finds -/

/-- An order is extended by the pending ones among the parts and what these are composed of. -/
theorem Visits.ordered (visits : Visits r path order parts result) (ordered : r.Ordered order)
    (apart : ∀ name ∈ path, name ∉ order) (ended : result = .ok order') :
    r.Ordered order' ∧ order ⊆ order' ∧
      ∀ part ∈ parts, (path = [] ∨ r.known part) ∧ ((r.pending? part).isSome → part ∈ order') := by
  induction visits generalizing order' with
  | done =>
    cases ended
    exact ⟨ordered, List.Subset.refl _, by simp⟩
  | skip known _ settled _ ih =>
    obtain ⟨extended, more, others⟩ := ih ordered apart ended
    refine ⟨extended, more, ?_⟩
    intro part listed
    rcases mem_cons.mp listed with rfl | later
    · refine ⟨known, fun pending => ?_⟩
      rcases settled with old | none
      · exact more old
      · simp [none] at pending
    · exact others part later
  | @descend path order between rest part d result off new pending below _ belowHypothesis
      laterHypothesis =>
    have freshBelow : ∀ name ∈ part :: path, name ∉ order := by simpa [new] using apart
    have freshLater := below.apart freshBelow rfl
    obtain ⟨extended, more, partsOf⟩ := belowHypothesis ordered freshBelow rfl
    have added : r.Ordered (between ++ [part]) := by
      refine .snoc extended (freshLater part (.head _)) pending fun q listed => ?_
      exact ⟨(partsOf q listed).1.resolve_left (cons_ne_nil _ _), (partsOf q listed).2⟩
    have freshAdded : ∀ name ∈ path, name ∉ between ++ [part] := by
      intro name on mem
      rcases mem_append.mp mem with earlier | last
      · exact freshLater name (.tail _ on) earlier
      · exact off (mem_singleton.mp last ▸ on)
    obtain ⟨whole, moreLater, others⟩ := laterHypothesis added freshAdded ended
    refine ⟨whole, fun name mem => moreLater (mem_append_left _ (more mem)), ?_⟩
    intro q listed
    rcases mem_cons.mp listed with rfl | later
    · exact ⟨.inr (known_of_pending (by simp [pending])), fun _ => moreLater (by simp)⟩
    · exact others q later
  | fail | cycle | unknown => cases ended

/-- An error of the search reports a defect. On the way down, all parts are parts of the programs on
the path. -/
theorem Visits.defect (visits : Visits r path order parts result)
    (above : ∀ whole ∈ path, ∀ part ∈ parts, (r.pending? part).isSome →
      Relation.TransGen r.PartOf part whole) (onPath : ∀ whole ∈ path, (r.pending? whole).isSome)
    (first : ∀ name ∈ path.head?, ∃ d, r.pending? name = some d ∧ parts ⊆ d.parts)
    (ended : result = .error e) : r.Defect e := by
  induction visits with
  | done => cases ended
  | skip _ _ _ _ ih | descend _ _ _ _ _ _ ih =>
    refine ih ?_ onPath ?_ ended
    · intro whole on q listed
      exact above whole on q (.tail _ listed)
    · intro name isFirst
      obtain ⟨d, pending, listed⟩ := first name isFirst
      exact ⟨d, pending, fun q later => listed (.tail _ later)⟩
  | @fail path order rest part d e _ _ pending _ belowHypothesis =>
    refine belowHypothesis ?_ (by simpa [pending] using onPath) ?_ ended
    · intro whole on q listed waits
      have step : r.PartOf q part := ⟨waits, d, pending, listed⟩
      rcases mem_cons.mp on with rfl | higher
      · exact .single step
      · exact .trans (.single step) (above whole higher part (.head _) (by simp [pending]))
    · intro name isFirst
      obtain rfl : part = name := by simpa using isFirst
      exact ⟨d, pending, List.Subset.refl _⟩
  | cycle on =>
    cases ended
    exact above _ on _ (.head _) (onPath _ on)
  | unknown _ unknown =>
    cases ended
    obtain ⟨d, pending, listed⟩ := first _ rfl
    exact ⟨d, pending, listed (.head _), unknown⟩

/-! ### Orders -/

namespace Ordered

section

variable (ordered : r.Ordered order)
include ordered

theorem nodup : order.Nodup := by
  induction ordered with
  | nil => exact .nil
  | snoc _ new _ _ ih =>
    exact nodup_append.mpr ⟨ih, by simp, by
      rintro name mem _ last rfl
      exact new (mem_singleton.mp last ▸ mem)⟩

omit ordered in
theorem split (ordered : r.Ordered (before ++ name :: later)) :
    r.Ordered before ∧ name ∉ before ∧ ∃ d, r.pending? name = some d ∧
      ∀ part ∈ d.parts, r.known part ∧ ((r.pending? part).isSome → part ∈ before) := by
  generalize whole : before ++ name :: later = order at ordered
  induction ordered generalizing later with
  | nil => simp at whole
  | snoc earlier new pending parts ih =>
    rcases eq_nil_or_concat later with rfl | ⟨start, last, rfl⟩
    · obtain ⟨rfl, same⟩ := append_inj' whole rfl
      cases same
      exact ⟨earlier, new, _, pending, parts⟩
    · rw [concat_eq_append, ← cons_append, ← append_assoc] at whole
      exact ih (append_inj' whole rfl).1

theorem pending (mem : name ∈ order) : (r.pending? name).isSome := by
  obtain ⟨before, later, rfl⟩ := append_of_mem mem
  obtain ⟨-, -, d, found, -⟩ := ordered.split
  simp [found]

theorem known (mem : name ∈ order) (found : r.pending? name = some d) :
    ∀ part ∈ d.parts, r.known part := by
  obtain ⟨before, later, rfl⟩ := append_of_mem mem
  obtain ⟨-, -, _, pending, parts⟩ := ordered.split
  cases pending.symm.trans found
  exact fun part listed => (parts part listed).1

theorem closed (mem : whole ∈ order) (isPart : r.PartOf part whole) : part ∈ order := by
  obtain ⟨before, later, rfl⟩ := append_of_mem mem
  obtain ⟨-, -, _, pending, parts⟩ := ordered.split
  obtain ⟨waits, d, found, listed⟩ := isPart
  cases pending.symm.trans found
  exact mem_append_left _ ((parts part listed).2 waits)

/-- What stands in an order is no part of itself: a part of it stands before it, and so does all that
the part is composed of. -/
theorem acyclic (mem : name ∈ order) : ¬ Relation.TransGen r.PartOf name name := by
  intro loop
  obtain ⟨before, later, rfl⟩ := append_of_mem mem
  obtain ⟨earlier, new, d, pending, parts⟩ := ordered.split
  obtain ⟨part, path, ⟨waits, d', found, listed⟩⟩ := Relation.TransGen.tail'_iff.mp loop
  cases pending.symm.trans found
  have down : ∀ {a b}, Relation.ReflTransGen r.PartOf a b → b ∈ before → a ∈ before := by
    intro a b below
    induction below with
    | refl => exact id
    | tail _ step ih => exact fun above => ih (earlier.closed above step)
  exact new (down path ((parts part listed).2 waits))

end

end Ordered

theorem linkOrder_ok_iff : (∃ order, r.linkOrder = .ok order) ↔ r.Complete ∧ r.Acyclic := by
  have visits := visits_linkOrder r
  constructor
  · rintro ⟨order, found⟩
    obtain ⟨ordered, -, all⟩ := visits.ordered .nil (by simp) found
    have listed : ∀ {name}, (r.pending? name).isSome → name ∈ order := by
      intro name pending
      obtain ⟨d, found⟩ := Option.isSome_iff_exists.mp pending
      obtain ⟨mem, rfl⟩ := mem_of_pending? found
      exact (all _ (mem_map_of_mem mem)).2 pending
    refine ⟨fun d mem => ?_, fun name loop => ?_⟩
    · have found : r.pending? d.name = some d := find?_name_eq (nodup_append.mp r.distinct).1 mem
      exact ordered.known (listed (by simp [found])) found
    · obtain ⟨part, step, -⟩ := Relation.TransGen.head'_iff.mp loop
      exact ordered.acyclic (listed step.1) loop
  · rintro ⟨complete, acyclic⟩
    cases ended : r.linkOrder with
    | ok order => exact ⟨order, rfl⟩
    | error e =>
      have defect := visits.defect (by simp) (by simp) (by simp) ended
      cases e with
      | unknownComponent program component =>
        obtain ⟨d, pending, listed, unknown⟩ := defect
        exact absurd (complete d (mem_of_pending? pending).1 component listed) unknown
      | cycle program => exact absurd defect (acyclic program)
      | duplicate program => exact defect.elim

end Registry

end Tenancy
