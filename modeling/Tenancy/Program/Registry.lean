import Tenancy.Program.Basic

/-!
Declared and linked programs by name.

Declarations wait until they are linked together, each after the programs that it is composed of.
-/

namespace Tenancy

inductive LinkError where
  | unknownComponent (program component : String)
  | cycle (program : String)
  | duplicate (program : String)
deriving DecidableEq

def LinkError.name : LinkError → String
  | .unknownComponent _ _ => "UnknownComponent"
  | .cycle _ => "Cycle"
  | .duplicate _ => "Duplicate"

def LinkError.message : LinkError → String
  | .unknownComponent program component =>
    "program `" ++ program ++ "` composes unknown component `" ++ component ++ "`"
  | .cycle program => "cyclic composition through `" ++ program ++ "`"
  | .duplicate program => "program `" ++ program ++ "` is already declared"

structure Registry where
  /-- In the order of declaration. -/
  pending : List Declaration
  /-- In the order of linking. -/
  linked : List Program
  /-- A name stands for one program. -/
  distinct : (pending.map Declaration.name ++ linked.map Program.name).Nodup

namespace Registry

def empty : Registry := ⟨[], [], List.nodup_nil⟩

@[simp] theorem pending_empty : empty.pending = [] := rfl

@[simp] theorem linked_empty : empty.linked = [] := rfl

def find? (r : Registry) (name : String) : Option Program := r.linked.find? (·.name = name)

def pending? (r : Registry) (name : String) : Option Declaration := r.pending.find? (·.name = name)

def known (r : Registry) (name : String) : Bool :=
  (r.pending? name).isSome || (r.find? name).isSome

theorem known_iff {r : Registry} {name : String} :
    r.known name ↔ name ∈ r.pending.map Declaration.name ++ r.linked.map Program.name := by
  simp [known, pending?, find?, List.find?_isSome]

theorem mem_of_pending? {r : Registry} {name : String} {d : Declaration}
    (found : r.pending? name = some d) : d ∈ r.pending ∧ d.name = name :=
  ⟨List.mem_of_find?_eq_some found, by simpa using List.find?_some found⟩

theorem distinct_declared (r : Registry) {d : Declaration} (new : ¬ r.known d.name) :
    ((r.pending ++ [d]).map Declaration.name ++ r.linked.map Program.name).Nodup := by
  rw [known_iff] at new
  rw [List.map_append, List.append_assoc]
  exact List.perm_middle.nodup_iff.mpr (List.nodup_cons.mpr ⟨new, r.distinct⟩)

theorem distinct_linked (r : Registry) {name : String} {d : Declaration} {p : Program}
    (found : r.pending? name = some d) (same : p.name = d.name) :
    ((r.pending.filter (·.name ≠ name)).map Declaration.name
      ++ (r.linked ++ [p]).map Program.name).Nodup := by
  obtain ⟨listed, rfl⟩ := mem_of_pending? found
  have apart := List.nodup_append.mp r.distinct
  have rest : (r.pending.filter (·.name ≠ d.name)).map Declaration.name
      |>.Sublist (r.pending.map Declaration.name) := List.filter_sublist.map _
  rw [List.map_append, ← List.append_assoc]
  refine List.nodup_append.mpr ⟨(rest.append (List.Sublist.refl _)).nodup r.distinct, by simp, ?_⟩
  rintro other member _ last rfl
  obtain rfl : other = d.name := by simpa [same] using last
  rcases List.mem_append.mp member with waiting | done
  · obtain ⟨e, kept, clash⟩ := List.mem_map.mp waiting
    exact of_decide_eq_true (List.mem_filter.mp kept).2 clash
  · exact apart.2.2 _ (List.mem_map_of_mem listed) _ done rfl

/-- A name that is taken is refused. -/
def declare (r : Registry) (d : Declaration) : Except LinkError Registry :=
  if known : r.known d.name then .error (.duplicate d.name)
  else .ok { r with pending := r.pending ++ [d], distinct := r.distinct_declared known }

/-- Adds a pending program to `order`, after all pending programs below it. The programs on `path`
are being visited; a path is no longer than there are pending programs. -/
def visit (r : Registry) : Nat → List String → List String → String →
    Except LinkError (List String)
  | 0, _, _, name => .error (.cycle name)
  | fuel + 1, path, order, name =>
    if order.contains name then .ok order
    else if path.contains name then .error (.cycle name)
    else
      match r.pending? name with
      | none => .ok order
      | some d => do
        let order ← d.parts.foldlM
          (fun order part =>
            if part = name then .error (.cycle name)
            else if !r.known part then .error (.unknownComponent name part)
            else r.visit fuel (name :: path) order part)
          order
        return order ++ [name]

def linkOrder (r : Registry) : Except LinkError (List String) :=
  (r.pending.map Declaration.name).foldlM (r.visit (r.pending.length + 1) []) []

def linkOne (r : Registry) (name : String) : Registry :=
  match found : r.pending? name with
  | none => r
  | some d =>
    { pending := r.pending.filter (·.name ≠ name)
      linked := r.linked ++ [Program.link d (d.parts.filterMap r.find?)]
      distinct := r.distinct_linked found rfl }

def linkAll : EStateM LinkError Registry (List String) := do
  let order ← ofExcept (← get).linkOrder
  order.forM fun name => modify (·.linkOne name)
  return order

def names (r : Registry) : List String := r.linked.map Program.name

def literals (r : Registry) : List Value :=
  r.pending.flatMap Declaration.literals ++ r.linked.flatMap Program.literals

end Registry

end Tenancy
