import Mathlib.Data.List.Basic
import Tenancy.Proofs.Action
import Tenancy.Proofs.Program.Search

/-!
Linking all pending programs.

Linking follows the order that the search has found, so every program finds the programs that it is
composed of. It succeeds exactly when the composition is complete and has no cycle, and a failure
leaves the registry alone.
-/

namespace Tenancy

open Tenancy.Action List

/-! ### Tables of component numbers -/

theorem getElem?_flatten_row {rows : List (List α)} {row : List α} (found : rows[k]? = some row)
    (within : i < row.length) : rows.flatten[(rows.take k).flatten.length + i]? = row[i]? := by
  obtain ⟨valid, rfl⟩ := List.getElem?_eq_some_iff.mp found
  conv_lhs => rw [← List.take_append_drop k rows, List.drop_eq_getElem_cons valid]
  rw [List.flatten_append, List.flatten_cons, List.take_left' (by simp; omega),
    getElem?_append_right (by omega), Nat.add_sub_cancel_left, getElem?_append_left within]

namespace Program

variable {p q : Program} {k number target : Nat}

theorem component?_zero (p : Program) : p.component? 0 = some p := rfl

theorem mem_components (component : p.component? k = some q) : q ∈ p.components :=
  mem_of_getElem? component

theorem component?_isSome : (p.component? k).isSome ↔ k < p.components.length := by
  simp [component?]

theorem tableSize_append (ps qs : List Program) :
    tableSize (ps ++ qs) = tableSize ps + tableSize qs := by
  induction ps with
  | nil => simp [tableSize]
  | cons p rest ih =>
    rw [cons_append, tableSize, tableSize, ih, Nat.add_assoc]

theorem length_numbers (component : p.component? k = some q) :
    (p.numbers k q).length = q.components.length := by
  unfold numbers
  split
  · rename_i first
    subst first
    cases component
    exact length_range
  · exact length_map _

theorem length_rows (p : Program) (k : Nat) :
    ((p.components.mapIdx p.numbers).take k).flatten.length = tableSize (p.components.take k) := by
  induction k with
  | zero => rfl
  | succ k ih =>
    rw [take_add_one, take_add_one, flatten_append, length_append,
      ih, tableSize_append, getElem?_mapIdx]
    cases found : p.components[k]? with
    | none => rfl
    | some q => simp [tableSize, length_numbers found]

theorem tableOffsets_eq (within : k < p.components.length) :
    p.tableOffsets[k]? = some (tableSize (p.components.take k)) := by
  simp [tableOffsets, within]

theorem numberTable_eq (component : p.component? k = some q) (within : target < q.components.length) :
    p.numberTable[tableSize (p.components.take k) + target]? = (p.numbers k q)[target]? := by
  have row : (p.components.mapIdx p.numbers)[k]? = some (p.numbers k q) := by
    rw [getElem?_mapIdx]
    exact congrArg (Option.map (p.numbers k)) component
  rw [← length_rows, numberTable, getElem?_flatten_row row]
  rwa [length_numbers component]

theorem mapped?_eq (component : p.component? k = some q) :
    p.mapped? k target = (p.numbers k q)[target]? := by
  have within : k < p.components.length := component?_isSome.mp (by simp [component])
  unfold mapped?
  rw [tableOffsets_eq within, component]
  show (if target < q.components.length then _ else none) = _
  split
  · exact numberTable_eq component ‹_›
  · rename_i outside
    rw [getElem?_eq_none]
    rw [length_numbers component]
    omega

theorem mapped?_isSome (component : p.component? k = some q) :
    (p.mapped? k target).isSome ↔ (q.component? target).isSome := by
  rw [mapped?_eq component, component?_isSome]
  simp [length_numbers component]

end Program

/-! ### Linking -/

theorem map_eq_map_some_filterMap {α β : Type} {f : α → Option β} {xs : List α}
    (there : ∀ x ∈ xs, (f x).isSome) : xs.map f = (xs.filterMap f).map some := by
  induction xs with
  | nil => rfl
  | cons x rest ih =>
    obtain ⟨y, found⟩ := Option.isSome_iff_exists.mp (there x (.head _))
    simp [found, ih fun z later => there z (.tail _ later)]

namespace Registry

variable {r : Registry} {order before after names : List String} {name part : String}
  {d : Declaration}

theorem pending?_isSome : (r.pending? name).isSome ↔ name ∈ r.pending.map Declaration.name := by
  simp [pending?, find?_isSome]

theorem find?_isSome : (r.find? name).isSome ↔ name ∈ r.names := by
  simp [find?, names]

theorem pending_linkOne (r : Registry) (name : String) :
    (r.linkOne name).pending = r.pending.filter (·.name ≠ name) := by
  unfold linkOne
  split
  · rename_i absent
    refine (filter_eq_self.mpr fun d listed => ?_).symm
    have unnamed := find?_eq_none.mp absent d listed
    simpa using unnamed
  · rfl

theorem linked_linkOne (found : r.pending? name = some d) :
    (r.linkOne name).linked = r.linked ++ [Program.link d (d.parts.filterMap r.find?)] := by
  unfold linkOne
  split
  · simp_all
  · rename_i e foundToo
    cases found.symm.trans foundToo
    rfl

theorem pending_linkEach (r : Registry) (order : List String) :
    (order.foldl linkOne r).pending = r.pending.filter (·.name ∉ order) := by
  induction order generalizing r with
  | nil => simp
  | cons name rest ih =>
    rw [foldl_cons, ih, pending_linkOne, filter_filter]
    simp [Bool.and_comm]

theorem pending?_linkEach (new : name ∉ order) :
    (order.foldl linkOne r).pending? name = r.pending? name := by
  unfold pending?
  rw [pending_linkEach, find?_filter]
  congr 1
  funext e
  by_cases same : e.name = name
  · simp [same, new]
  · simp [same]

theorem linked_linkEach (ordered : r.Ordered order) :
    ∃ programs, (order.foldl linkOne r).linked = r.linked ++ programs ∧
      programs.map Program.name = order := by
  induction ordered with
  | nil => exact ⟨[], by simp, rfl⟩
  | @snoc order name d _ new pending _ ih =>
    obtain ⟨programs, linked, rfl⟩ := ih
    obtain ⟨-, rfl⟩ := mem_of_pending? pending
    have waits := (pending?_linkEach new).trans pending
    rw [foldl_concat, linked_linkOne waits, linked, append_assoc]
    exact ⟨_, rfl, by simp [Program.link]⟩

theorem parts_found (ordered : r.Ordered order)
    (parts : ∀ part ∈ d.parts, r.known part ∧ ((r.pending? part).isSome → part ∈ order)) :
    ∀ part ∈ d.parts, ((order.foldl linkOne r).find? part).isSome := by
  intro part listed
  obtain ⟨known, earlier⟩ := parts part listed
  obtain ⟨programs, all, named⟩ := linked_linkEach ordered
  rw [find?_isSome, names, all, map_append, named, mem_append]
  rcases mem_append.mp (known_iff.mp known) with waiting | linked
  · exact .inr (earlier (pending?_isSome.mpr waiting))
  · exact .inl linked

/-- The registry `r'` has all that `r` had pending, linked one after the other. -/
structure Linking (r : Registry) (order : List String) (r' : Registry) : Prop where
  emptied : r'.pending = []
  /-- Each pending program is linked once. -/
  once : order.Perm (r.pending.map Declaration.name)
  linked : ∃ programs, r'.linked = r.linked ++ programs ∧ programs.map Program.name = order
  /-- When it is its turn, a program is still pending, its parts are linked and it finds them all. -/
  inTurn : ∀ before name after, order = before ++ name :: after → ∃ d parts,
    r.pending? name = some d ∧ (before.foldl linkOne r).pending? name = some d ∧
    (∀ part ∈ d.parts, (r.pending? part).isSome → part ∈ before) ∧
    d.parts.map (before.foldl linkOne r).find? = parts.map some ∧
    ((before ++ [name]).foldl linkOne r).linked =
      (before.foldl linkOne r).linked ++ [Program.link d parts]

theorem forM_modify (f : σ → α → σ) (xs : List α) (s : σ) :
    (xs.forM fun x => (modify (f · x) : EStateM ε σ PUnit)) s = .ok () (xs.foldl f s) := by
  induction xs generalizing s with
  | nil => rfl
  | cons x rest ih => exact ih (f s x)

theorem linkAll_apply (r : Registry) :
    linkAll r = match r.linkOrder with
      | .ok order => .ok order (order.foldl linkOne r)
      | .error e => .error e r := by
  unfold linkAll
  simp only [get_bind_apply]
  cases r.linkOrder with
  | error e => rfl
  | ok order =>
    show (order.forM (fun name => modify (linkOne · name)) >>= fun _ => pure order :
      EStateM LinkError Registry (List String)) r = _
    rw [bind_apply, forM_modify]
    rfl

theorem linking_of_ordered (ordered : r.Ordered order)
    (all : ∀ name ∈ r.pending.map Declaration.name, name ∈ order) :
    r.Linking order (order.foldl linkOne r) where
  emptied := by
    rw [pending_linkEach, filter_eq_nil_iff]
    intro d listed
    simp [all _ (mem_map_of_mem listed)]
  once := by
    refine (perm_ext_iff_of_nodup ordered.nodup (nodup_append.mp r.distinct).1).mpr ?_
    exact fun name => ⟨fun mem => pending?_isSome.mp (ordered.pending mem), all name⟩
  linked := linked_linkEach ordered
  inTurn := by
    rintro before name after rfl
    obtain ⟨earlier, new, d, pending, parts⟩ := ordered.split
    have waits := (pending?_linkEach new).trans pending
    refine ⟨d, d.parts.filterMap (before.foldl linkOne r).find?, pending, waits, ?_, ?_, ?_⟩
    · exact fun part listed => (parts part listed).2
    · exact map_eq_map_some_filterMap (parts_found earlier parts)
    · rw [foldl_concat, linked_linkOne waits]

theorem linking_of_linkOrder (found : r.linkOrder = .ok order) :
    r.Linking order (order.foldl linkOne r) := by
  obtain ⟨ordered, -, all⟩ := (visits_linkOrder r).ordered .nil (by simp) found
  exact linking_of_ordered ordered fun name listed => (all name listed).2 (pending?_isSome.mpr listed)

/-- Linking succeeds exactly on compositions that are complete and have no cycle. It then links every
pending program once, after its parts; otherwise it changes nothing. The search always ends. -/
theorem linkAll_links_or_leaves (r : Registry) :
    ((∃ order r', linkAll r = .ok order r') ↔ r.Complete ∧ r.Acyclic) ∧
    (∀ order r', linkAll r = .ok order r' → r.Linking order r') ∧
    (∀ e r', linkAll r = .error e r' → r' = r ∧ r.Defect e) ∧
    Visits r [] [] (r.pending.map Declaration.name) r.linkOrder ∧
    ∀ order parts, ∃! result, Visits r [] order parts result := by
  rw [linkAll_apply, ← linkOrder_ok_iff]
  refine ⟨?_, ?_, ?_, visits_linkOrder r, exists_unique_visits r⟩
  · cases r.linkOrder <;> simp
  · intro order r' linked
    cases found : r.linkOrder with
    | error e => simp [found] at linked
    | ok order' =>
      rw [found] at linked
      cases linked
      exact linking_of_linkOrder found
  · intro e r' failed
    cases ended : r.linkOrder with
    | ok order => simp [ended] at failed
    | error e' =>
      rw [ended] at failed
      cases failed
      exact ⟨rfl, (visits_linkOrder r).defect (by simp) (by simp) (by simp) ended⟩

end Registry

end Tenancy
