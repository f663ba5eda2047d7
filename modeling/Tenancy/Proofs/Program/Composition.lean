import Mathlib.Data.List.Nodup
import Tenancy.Proofs.Program.Linking

/-!
What programs are composed of.

A registry links programs one after the other, each from its declaration and programs linked before.
So a program has all components of its components among its own, each the very program that the
registry has by its name, and the component tables lead from one to the other. Which program a name
stands for depends on the declarations alone, not on the order or the batches of linking.
-/

namespace Tenancy

open Tenancy.Action List

/-- Programs linked one after the other, each from one of the declarations and from programs linked
before it. -/
inductive Composed (declared : List Declaration) : List Program → Prop where
  | nil : Composed declared []
  | snoc {programs parts : List Program} {d : Declaration} (before : Composed declared programs)
      (member : d ∈ declared) (new : d.name ∉ programs.map Program.name)
      (resolved : d.parts.map (fun name => programs.find? (·.name = name)) = parts.map some) :
      Composed declared (programs ++ [Program.link d parts])

/-- The registry after `declared` have been declared, the last one first. In between, linking may have
succeeded and may have failed. -/
inductive Registry.History : List Declaration → Registry → Prop where
  | empty : History [] .empty
  | declare {declared : List Declaration} {r r' : Registry} {d : Declaration}
      (before : History declared r) (accepted : r.declare d = .ok r') : History (d :: declared) r'
  | link {declared : List Declaration} {r : Registry} (before : History declared r) :
      History declared (left (Registry.linkAll r))

/-- All components of a linked program. -/
structure Program.Closed (programs : List Program) (p : Program) : Prop where
  linked : ∀ q ∈ p.components, q ∈ programs
  within : ∀ q ∈ p.components, ∀ c ∈ q.components, c ∈ p.components
  distinct : (p.components.map Program.name).Nodup

namespace Program

variable {found more parts programs : List Program} {p q c : Program} {name : String}

/-! ### The first of each name -/

theorem firstOfName_cons (found : List Program) (q : Program) (rest : List Program) :
    firstOfName found (q :: rest) =
      firstOfName (if found.any (·.name = q.name) then found else found ++ [q]) rest := rfl

theorem mem_of_mem_firstOfName (mem : p ∈ firstOfName found more) : p ∈ found ∨ p ∈ more := by
  induction more generalizing found with
  | nil => exact .inl mem
  | cons q rest ih =>
    rw [firstOfName_cons] at mem
    rcases ih mem with kept | later
    · split at kept
      · exact .inl kept
      · rcases mem_append.mp kept with old | new
        · exact .inl old
        · exact .inr (mem_singleton.mp new ▸ .head _)
    · exact .inr (.tail _ later)

theorem subset_firstOfName (found more : List Program) : found ⊆ firstOfName found more := by
  induction more generalizing found with
  | nil => exact List.Subset.refl _
  | cons q rest ih =>
    rw [firstOfName_cons]
    refine List.Subset.trans ?_ (ih _)
    split
    · exact List.Subset.refl _
    · exact subset_append_left _ _

theorem exists_mem_firstOfName (found : List Program) (mem : p ∈ more) :
    ∃ q ∈ firstOfName found more, q.name = p.name := by
  induction more generalizing found with
  | nil => simp at mem
  | cons first rest ih =>
    rw [firstOfName_cons]
    rcases mem_cons.mp mem with rfl | later
    · split
      · rename_i known
        obtain ⟨q, listed, same⟩ := any_eq_true.mp known
        exact ⟨q, subset_firstOfName _ _ listed, by simpa using same⟩
      · exact ⟨p, subset_firstOfName _ _ (by simp), rfl⟩
    · exact ih _ later

theorem nodup_firstOfName (distinct : (found.map Program.name).Nodup) :
    ((firstOfName found more).map Program.name).Nodup := by
  induction more generalizing found with
  | nil => exact distinct
  | cons q rest ih =>
    rw [firstOfName_cons]
    apply ih
    split
    · exact distinct
    · rename_i new
      rw [map_append]
      refine nodup_append.mpr ⟨distinct, by simp, ?_⟩
      rintro other mem _ last rfl
      obtain ⟨p, listed, named⟩ := mem_map.mp mem
      obtain rfl : other = q.name := by simpa using last
      exact new (any_eq_true.mpr ⟨p, listed, by simpa using named⟩)

/-! ### Linking -/

theorem mem_of_mem_flatten (mem : q ∈ flatten name parts) :
    q.name ≠ name ∧ ∃ p ∈ parts, q ∈ p.components := by
  obtain ⟨listed, ne⟩ :=
    mem_filter.mp ((mem_of_mem_firstOfName mem).resolve_left not_mem_nil)
  exact ⟨by simpa using ne, mem_flatMap.mp listed⟩

section

variable (distinct : (programs.map Program.name).Nodup)
  (listed : parts ⊆ programs)
  (closed : ∀ p ∈ programs, p.Closed programs)
include distinct listed closed

theorem mem_flatten (new : name ∉ programs.map Program.name) (part : p ∈ parts)
    (component : q ∈ p.components) : q ∈ flatten name parts := by
  have known : q ∈ programs := (closed p (listed part)).linked q component
  have ne : q.name ≠ name := fun same => new (same ▸ mem_map_of_mem known)
  have among : q ∈ (parts.flatMap components).filter (·.name ≠ name) :=
    mem_filter.mpr ⟨mem_flatMap.mpr ⟨p, part, component⟩, by simpa using ne⟩
  obtain ⟨other, mem, same⟩ := exists_mem_firstOfName [] among
  obtain ⟨-, p', part', component'⟩ := mem_of_mem_flatten mem
  have knownToo : other ∈ programs := (closed p' (listed part')).linked other component'
  rwa [inj_on_of_nodup_map distinct knownToo known same] at mem

theorem closed_link (new : d.name ∉ programs.map Program.name) :
    (link d parts).Closed (programs ++ [link d parts]) where
  linked q component := by
    rcases mem_cons.mp component with rfl | inherited
    · simp
    · obtain ⟨-, p, part, mem⟩ := mem_of_mem_flatten inherited
      exact mem_append_left _ ((closed p (listed part)).linked q mem)
  within q component c further := by
    rcases mem_cons.mp component with rfl | inherited
    · exact further
    · obtain ⟨-, p, part, mem⟩ := mem_of_mem_flatten inherited
      have among := (closed p (listed part)).within q mem c further
      exact .tail _ (mem_flatten distinct listed closed new part among)
  distinct := by
    refine nodup_cons.mpr ⟨?_, nodup_firstOfName .nil⟩
    intro own
    obtain ⟨q, inherited, same⟩ := mem_map.mp own
    exact (mem_of_mem_flatten inherited).1 same

end

theorem Closed.component?_numberOf (closed : p.Closed programs) (component : c ∈ p.components) :
    p.component? (p.numberOf c.name) = some c := by
  have found := find?_name_eq closed.distinct component
  rw [find?_eq_getElem?_findIdx] at found
  exact found

/-- The table of a component leads to the component that the running code means. -/
theorem Closed.component?_mapped (closed : p.Closed programs) (running : p.component? k = some q)
    (mapped : p.mapped? k target = some number) :
    ∃ c, q.component? target = some c ∧ p.component? number = some c := by
  rw [mapped?_eq running, numbers] at mapped
  split at mapped
  · rename_i own
    subst own
    cases running
    obtain ⟨within, rfl⟩ := List.getElem?_eq_some_iff.mp mapped
    rw [List.getElem_range]
    obtain ⟨c, found⟩ := Option.isSome_iff_exists.mp (component?_isSome.mpr (by simpa using within))
    exact ⟨c, found, found⟩
  · rw [getElem?_map] at mapped
    obtain ⟨c, found, rfl⟩ := Option.map_eq_some_iff.mp mapped
    have among := closed.within q (mem_components running) c (mem_of_getElem? found)
    exact ⟨c, found, closed.component?_numberOf among⟩

end Program

namespace Composed

variable {declared others : List Declaration} {programs parts : List Program} {p q : Program}
  {d : Declaration} {names : List String}

section

variable (composed : Composed declared programs)
include composed

theorem distinct : (programs.map Program.name).Nodup := by
  induction composed with
  | nil => exact .nil
  | snoc _ _ new _ ih =>
    rw [map_append]
    refine nodup_append.mpr ⟨ih, by simp, ?_⟩
    rintro name mem _ last rfl
    rw [mem_singleton.mp last] at mem
    exact new mem

theorem mono (subset : declared ⊆ others) : Composed others programs := by
  induction composed with
  | nil => exact .nil
  | snoc _ mem new resolved ih =>
    exact ih.snoc (subset mem) new resolved

theorem find?_eq (mem : p ∈ programs) : programs.find? (·.name = p.name) = some p :=
  find?_name_eq composed.distinct mem

end

section

variable (resolved : names.map (fun name => programs.find? (·.name = name)) = parts.map some)
include resolved

theorem parts_subset : parts ⊆ programs := by
  intro p part
  have listed := mem_map_of_mem (f := some) part
  rw [← resolved] at listed
  obtain ⟨name, -, found⟩ := mem_map.mp listed
  exact mem_of_find?_eq_some found

theorem exists_part
    (part : name ∈ names) : ∃ p ∈ programs, p.name = name ∧ programs.find? (·.name = name) = some p := by
  have found := mem_map_of_mem (f := fun name => programs.find? (·.name = name)) part
  rw [resolved] at found
  obtain ⟨p, -, same⟩ := mem_map.mp found
  exact ⟨p, mem_of_find?_eq_some same.symm, by simpa using find?_some same.symm, same.symm⟩

end

theorem parts_append (more : List Program)
    (resolved : names.map (fun name => programs.find? (·.name = name)) = parts.map some) :
    names.map (fun name => (programs ++ more).find? (·.name = name)) = parts.map some := by
  rw [← resolved]
  apply map_congr_left
  intro name listed
  obtain ⟨part, -, -, found⟩ := exists_part resolved listed
  rw [find?_append, found]
  rfl

section

variable (composed : Composed declared programs)
include composed

/-- Every program is closed, by induction on the linking. -/
theorem closed : ∀ p ∈ programs, p.Closed programs := by
  induction composed with
  | nil => simp
  | snoc before _ new resolved ih =>
    intro p mem
    rcases mem_append.mp mem with earlier | last
    · refine { ih p earlier with linked := fun q component => ?_ }
      exact mem_append_left _ ((ih p earlier).linked q component)
    · rw [mem_singleton.mp last]
      exact Program.closed_link before.distinct (parts_subset resolved) ih new

/-- Every program is its declaration linked, and its parts are found by their names. -/
theorem linked (mem : p ∈ programs) : ∃ d ∈ declared, ∃ parts, p = Program.link d parts ∧
      d.parts.map (fun name => programs.find? (·.name = name)) = parts.map some := by
  induction composed with
  | nil => simp at mem
  | @snoc programs parts d _ isDeclared _ resolved ih =>
    rcases mem_append.mp mem with earlier | last
    · obtain ⟨e, listed, parts', rfl, found⟩ := ih earlier
      exact ⟨e, listed, parts', rfl, parts_append _ found⟩
    · exact ⟨d, isDeclared, parts, mem_singleton.mp last, parts_append _ resolved⟩

theorem agree (other : Composed others programs')
    (distinct : (declared.map Declaration.name).Nodup) (same : ∀ d, d ∈ declared ↔ d ∈ others) :
    ∀ p ∈ programs, ∀ q ∈ programs', p.name = q.name → p = q := by
  induction composed with
  | nil => simp
  | @snoc programs parts d _ isDeclared _ resolved ih =>
    intro p mem q linked named
    rcases mem_append.mp mem with earlier | last
    · exact ih p earlier q linked named
    obtain ⟨e, listed, parts', rfl, resolved'⟩ := other.linked linked
    rw [mem_singleton.mp last] at named ⊢
    obtain rfl : d = e :=
      inj_on_of_nodup_map distinct isDeclared ((same e).mpr listed) named
    -- The parts come from the same names, and the programs linked before agree on each of them.
    have partsAgree : parts.map some = parts'.map some := by
      rw [← resolved, ← resolved']
      apply map_congr_left
      intro name part
      obtain ⟨first, earlier, named, found⟩ := exists_part resolved part
      obtain ⟨second, linked', named', found'⟩ := exists_part resolved' part
      rw [found, found', ih first earlier second linked' (named.trans named'.symm)]
    rw [(map_inj_right (fun _ _ => Option.some.inj)).mp partsAgree]

end

end Composed

namespace Registry

variable {declared : List Declaration} {r r' : Registry} {order : List String} {name part : String}
  {d : Declaration}

/-- How a registry has come from `declared`. -/
structure Traces (declared : List Declaration) (r : Registry) : Prop where
  composed : Composed declared r.linked
  waiting : r.pending ⊆ declared
  distinct : (declared.map Declaration.name).Nodup
  known : ∀ d ∈ declared, r.known d.name

theorem known_linkOne (known : r.known part) : (r.linkOne name).known part := by
  cases found : r.pending? name with
  | none =>
    have unchanged : r.linkOne name = r := by
      unfold linkOne
      split <;> simp_all
    rwa [unchanged]
  | some d =>
    rw [known_iff, pending_linkOne, linked_linkOne found]
    obtain ⟨-, rfl⟩ := mem_of_pending? found
    by_cases same : part = d.name
    · simp [same, Program.link]
    · have before := known_iff.mp known
      simp only [mem_append, mem_map, mem_filter, map_append] at before ⊢
      rcases before with ⟨e, listed, rfl⟩ | linked
      · exact .inl ⟨e, ⟨listed, by simpa using same⟩, rfl⟩
      · exact .inr (.inl linked)

theorem Traces.linkOne (traces : r.Traces declared) (found : r.pending? name = some d)
    (parts : ∀ part ∈ d.parts, (r.find? part).isSome) : (r.linkOne name).Traces declared where
  composed := by
    obtain ⟨listed, rfl⟩ := mem_of_pending? found
    rw [linked_linkOne found]
    refine traces.composed.snoc (traces.waiting listed) ?_ (map_eq_map_some_filterMap parts)
    intro clash
    exact (nodup_append.mp r.distinct).2.2 _ (mem_map_of_mem listed) _ clash rfl
  waiting := by
    rw [pending_linkOne]
    exact List.Subset.trans (filter_subset_self _) traces.waiting
  distinct := traces.distinct
  known d listed := known_linkOne (traces.known d listed)

theorem Traces.linkEach (traces : r.Traces declared) (ordered : r.Ordered order) :
    (order.foldl Registry.linkOne r).Traces declared := by
  induction ordered with
  | nil => exact traces
  | snoc earlier new pending parts ih =>
    rw [foldl_concat]
    exact ih.linkOne ((pending?_linkEach new).trans pending) (parts_found earlier parts)

theorem Traces.declare (traces : r.Traces declared) (accepted : r.declare d = .ok r') :
    r'.Traces (d :: declared) := by
  unfold Registry.declare at accepted
  split at accepted
  · cases accepted
  rename_i new
  cases accepted
  refine ⟨traces.composed.mono (subset_cons_self _ _), ?_, ?_, ?_⟩
  · exact append_subset.mpr ⟨List.Subset.trans traces.waiting (subset_cons_self _ _), by simp⟩
  · refine nodup_cons.mpr ⟨?_, traces.distinct⟩
    intro taken
    obtain ⟨e, listed, same⟩ := mem_map.mp taken
    exact new (same ▸ traces.known e listed)
  · intro e listed
    rw [known_iff, map_append, append_assoc]
    rcases mem_cons.mp listed with rfl | earlier
    · simp
    · have before := known_iff.mp (traces.known e earlier)
      simp only [mem_append] at before ⊢
      exact before.imp_right .inr

section

variable (history : History declared r)
include history

theorem History.traces : r.Traces declared := by
  induction history with
  | empty => exact ⟨.nil, by simp, .nil, by simp⟩
  | declare _ accepted ih => exact ih.declare accepted
  | @link declared r _ ih =>
    rw [linkAll_apply]
    cases found : r.linkOrder with
    | error e => exact ih
    | ok order =>
      have ordered := ((visits_linkOrder r).ordered .nil (by simp) found).1
      exact ih.linkEach ordered

theorem History.find?_eq (linked : p ∈ r.linked) : r.find? p.name = some p :=
  history.traces.composed.find?_eq linked

theorem History.find?_eq_none
    (absent : name ∉ declared.map Declaration.name) : r.find? name = none := by
  apply List.find?_eq_none.mpr
  intro p linked named
  obtain ⟨d, mem, parts, rfl, -⟩ := history.traces.composed.linked linked
  exact absent (List.mem_map.mpr ⟨d, mem, of_decide_eq_true named⟩)

theorem History.find?_declared (linked : r.pending = []) (listed : d ∈ declared) :
    ∃ parts, r.find? d.name = some (Program.link d parts) ∧ d.parts.map r.find? = parts.map some := by
  have traces := history.traces
  have known := known_iff.mp (traces.known d listed)
  rw [linked, map_nil, nil_append] at known
  obtain ⟨p, mem, named⟩ := mem_map.mp known
  obtain ⟨e, listed', parts, rfl, resolved⟩ := traces.composed.linked mem
  obtain rfl : e = d := inj_on_of_nodup_map traces.distinct listed' listed named
  exact ⟨parts, history.find?_eq mem, resolved⟩

end

/-! ### What linking leaves behind -/

/-- The tables of a linked program are right: a component has a number for each of its own components
and for nothing else, and the number leads to that very program. No table is too short and no
component is missing. -/
theorem mapped?_leads_to_component {p q : Program} {k : Nat} (history : History declared r)
    (linked : p ∈ r.linked) (running : p.component? k = some q) (target : Nat) :
    ((p.mapped? k target).isSome ↔ (q.component? target).isSome) ∧
    (∀ number, p.mapped? k target = some number →
      ∃ c, q.component? target = some c ∧ p.component? number = some c ∧ r.find? c.name = some c) ∧
    (∀ c ∈ q.components, p.component? (p.numberOf c.name) = some c) ∧
    ∃ base, p.tableOffsets[k]? = some base ∧
      ((q.component? target).isSome → (p.numberTable[base + target]?).isSome) := by
  have closed := history.traces.composed.closed p linked
  have within : k < p.components.length := Program.component?_isSome.mp (by simp [running])
  refine ⟨Program.mapped?_isSome running, ?_, ?_, _, Program.tableOffsets_eq within, ?_⟩
  · intro number mapped
    obtain ⟨c, target, component⟩ := closed.component?_mapped running mapped
    have known := closed.linked c (Program.mem_components component)
    exact ⟨c, target, component, history.find?_eq known⟩
  · intro c member
    exact closed.component?_numberOf (closed.within q (Program.mem_components running) c member)
  · intro component
    have valid := Program.component?_isSome.mp component
    rw [Program.numberTable_eq running valid]
    simpa [Program.length_numbers running] using valid

/-! The diamond: `/top` is composed of `/base` twice, through `/near` and through `/far`. -/

def base : Declaration := { name := "/base" }

def near : Declaration := { name := "/near", parts := ["/base"] }

def far : Declaration := { name := "/far", parts := ["/base"] }

def top : Declaration := { name := "/top", parts := ["/far", "/near"] }

/-- In `/top` the table of `/near` leads to the `/base` that `/far` has brought in. -/
theorem near_leads_to_base :
    ∃ r p q c, History [top, far, near, base] r ∧ p ∈ r.linked ∧ p.component? 3 = some q ∧
      p.mapped? 3 1 = some 2 ∧ q.component? 1 = some c ∧ p.component? 2 = some c ∧
      r.find? c.name = some c := by
  have history : ∃ r, History [top, far, near, base] r ∧ ∃ p ∈ r.linked, ∃ q,
      p.component? 3 = some q ∧ p.mapped? 3 1 = some 2 :=
    ⟨_, .link (.declare (.declare (.link (.declare (.declare .empty rfl) rfl)) rfl) rfl),
      _, .tail _ (.tail _ (.tail _ (.head _))), _, rfl, rfl⟩
  obtain ⟨r, history, p, linked, q, running, mapped⟩ := history
  obtain ⟨c, found⟩ := (mapped?_leads_to_component history linked running 1).2.1 2 mapped
  exact ⟨r, p, q, c, history, linked, running, mapped, found⟩

/-- What the names stand for does not depend on the order of the declarations, nor on when linking was
tried in between. -/
theorem find?_eq_of_same_declared {declared1 declared2 : List Declaration} {r1 r2 : Registry}
    (history1 : History declared1 r1) (history2 : History declared2 r2)
    (same : ∀ d, d ∈ declared1 ↔ d ∈ declared2) (linked1 : r1.pending = [])
    (linked2 : r2.pending = []) :
    (∀ name, r1.find? name = r2.find? name) ∧
    ∀ d ∈ declared1, ∃ parts, d.parts.map r1.find? = parts.map some ∧
      r1.find? d.name = some (Program.link d parts) ∧
      r2.find? d.name = some (Program.link d parts) := by
  have agree := history1.traces.composed.agree history2.traces.composed history1.traces.distinct same
  have bound : ∀ d ∈ declared1, ∃ parts, d.parts.map r1.find? = parts.map some ∧
      r1.find? d.name = some (Program.link d parts) ∧
      r2.find? d.name = some (Program.link d parts) := by
    intro d listed
    obtain ⟨parts, found, resolved⟩ := history1.find?_declared linked1 listed
    obtain ⟨parts', found', -⟩ := history2.find?_declared linked2 ((same d).mp listed)
    have equal := agree _ (mem_of_find?_eq_some found) _ (mem_of_find?_eq_some found') rfl
    exact ⟨parts, resolved, found, equal ▸ found'⟩
  refine ⟨?_, bound⟩
  intro name
  by_cases listed : name ∈ declared1.map Declaration.name
  · obtain ⟨d, member, rfl⟩ := mem_map.mp listed
    obtain ⟨parts, -, found, found'⟩ := bound d member
    rw [found, found']
  · have elsewhere : name ∉ declared2.map Declaration.name := by
      intro named
      obtain ⟨d, member, rfl⟩ := mem_map.mp named
      exact listed (mem_map_of_mem ((same d).mpr member))
    rw [history1.find?_eq_none listed, history2.find?_eq_none elsewhere]

/-- The diamond declared in two orders; in the second, linking fails at first. -/
theorem diamond_eq_diamond :
    ∃ r1 r2, History [top, far, near, base] r1 ∧ History [base, near, top, far] r2 ∧
      r1.pending = [] ∧ r2.pending = [] ∧ r1.names ≠ r2.names ∧
      ∀ name, r1.find? name = r2.find? name := by
  have histories : ∃ r1 r2, History [top, far, near, base] r1 ∧ History [base, near, top, far] r2 ∧
      r1.pending = [] ∧ r2.pending = [] ∧ r1.names ≠ r2.names :=
    ⟨_, _, .link (.declare (.declare (.link (.declare (.declare .empty rfl) rfl)) rfl) rfl),
      .link (.declare (.declare (.link (.declare (.declare .empty rfl) rfl)) rfl) rfl), rfl, rfl,
      by decide +kernel⟩
  obtain ⟨r1, r2, history1, history2, linked1, linked2, different⟩ := histories
  have same : ∀ d, d ∈ [top, far, near, base] ↔ d ∈ [base, near, top, far] := by
    intro d
    simp only [mem_cons, not_mem_nil]
    tauto
  exact ⟨r1, r2, history1, history2, linked1, linked2, different,
    (find?_eq_of_same_declared history1 history2 same linked1 linked2).1⟩

end Registry

/-! ### A component within the program that is composed of it -/

namespace Program

variable {programs : List Program} {p q c : Program} {i k number target : Nat}

/-- Component `i` of `p` is `q`, and each of them has all components of its components. -/
structure Embeds (programs : List Program) (p : Program) (i : Nat) (q : Program) : Prop where
  outer : p.Closed programs
  inner : q.Closed programs
  component : p.component? i = some q

theorem Closed.number_unique (closed : p.Closed programs) (first : p.component? k = some c)
    (second : p.component? j = some c) : k = j := by
  have within : k < p.components.length := component?_isSome.mp (by simp [first])
  apply (List.getElem?_inj within (List.Nodup.of_map _ closed.distinct)).mp
  exact first.trans second.symm

namespace Embeds

section

variable (embeds : p.Embeds programs i q)
include embeds

theorem component?_mapped (mapped : p.mapped? i target = some number) :
    ∃ c, q.component? target = some c ∧ p.component? number = some c :=
  embeds.outer.component?_mapped embeds.component mapped

/-- The composing program has a number for every component of its component. -/
theorem exists_number (found : q.component? target = some c) :
    ∃ number, p.mapped? i target = some number ∧ p.component? number = some c := by
  have mapped : (p.mapped? i target).isSome := (mapped?_isSome embeds.component).mpr (by simp [found])
  obtain ⟨number, mapped⟩ := Option.isSome_iff_exists.mp mapped
  obtain ⟨d, foundToo, component⟩ := embeds.component?_mapped mapped
  cases found.symm.trans foundToo
  exact ⟨number, mapped, component⟩

theorem mapped?_self : p.mapped? i 0 = some i := by
  obtain ⟨number, mapped, component⟩ := embeds.exists_number (component?_zero q)
  rw [mapped, embeds.outer.number_unique component embeds.component]

theorem mapped?_mapped (running : q.component? k = some c) (mapped : p.mapped? i k = some number)
    (target : Nat) : p.mapped? number target = (q.mapped? k target).bind (p.mapped? i) := by
  obtain ⟨d, runningToo, component⟩ := embeds.component?_mapped mapped
  cases running.symm.trans runningToo
  cases within : q.mapped? k target with
  | none =>
    have outside : ¬ (q.mapped? k target).isSome := by simp [within]
    rw [mapped?_isSome running, ← mapped?_isSome component] at outside
    simpa using outside
  | some inner =>
    obtain ⟨d, found, meant⟩ := embeds.inner.component?_mapped running within
    obtain ⟨first, mappedFirst, componentFirst⟩ := embeds.exists_number meant
    have reached : (p.mapped? number target).isSome :=
      (mapped?_isSome component).mpr (by simp [found])
    obtain ⟨second, mappedSecond⟩ := Option.isSome_iff_exists.mp reached
    obtain ⟨e, foundToo, componentSecond⟩ := embeds.outer.component?_mapped component mappedSecond
    cases found.symm.trans foundToo
    rw [mappedSecond, Option.bind_some, mappedFirst,
      embeds.outer.number_unique componentSecond componentFirst]

end

end Embeds

theorem storage_append (ps qs : List Program) : storage (ps ++ qs) = storage ps + storage qs := by
  induction ps with
  | nil => simp [storage]
  | cons p rest ih =>
    rw [List.cons_append, storage, storage, ih, Nat.add_assoc]

theorem offset_succ (component : p.component? k = some q) :
    p.offset (k + 1) = p.offset k + q.ownVariables.length := by
  have last : p.components[k]? = some q := component
  unfold offset
  rw [List.take_add_one, last, storage_append]
  rfl

theorem offset_mono (before : k ≤ j) : p.offset k ≤ p.offset j := by
  induction before with
  | refl => exact Nat.le_refl _
  | step _ ih =>
    apply Nat.le_trans ih
    unfold offset
    rw [List.take_add_one, storage_append]
    exact Nat.le_add_right _ _

/-- A slot is for one variable of one component. -/
theorem slot_unique (first : p.component? k = some q) (second : p.component? j = some c)
    (within : index < q.ownVariables.length) (withinToo : other < c.ownVariables.length)
    (same : p.offset k + index = p.offset j + other) : k = j ∧ index = other := by
  rcases Nat.lt_trichotomy k j with before | rfl | after
  · have apart : p.offset (k + 1) ≤ p.offset j := offset_mono before
    rw [offset_succ first] at apart
    omega
  · omega
  · have apart : p.offset (j + 1) ≤ p.offset k := offset_mono after
    rw [offset_succ second] at apart
    omega

/-- A slot in the storage of `p` and one in the storage of its component `i`, for one variable. -/
inductive Shares (p : Program) (i : Nat) (q : Program) : Nat → Nat → Prop where
  | intro {number target index : Nat} {c : Program} (found : q.component? target = some c)
      (mapped : p.mapped? i target = some number) (within : index < c.ownVariables.length) :
      Shares p i q (p.offset number + index) (q.offset target + index)

theorem Embeds.shares_unique (embeds : p.Embeds programs i q) (first : p.Shares i q x y)
    (second : p.Shares i q x' y') : x = x' ↔ y = y' := by
  obtain ⟨found, mapped, within⟩ := first
  obtain ⟨foundToo, mappedToo, withinToo⟩ := second
  obtain ⟨c, known, component⟩ := embeds.component?_mapped mapped
  cases found.symm.trans known
  obtain ⟨d, knownToo, componentToo⟩ := embeds.component?_mapped mappedToo
  cases foundToo.symm.trans knownToo
  constructor
  · intro same
    obtain ⟨rfl, rfl⟩ := slot_unique component componentToo within withinToo same
    cases component.symm.trans componentToo
    rw [embeds.inner.number_unique found foundToo]
  · intro same
    obtain ⟨rfl, rfl⟩ := slot_unique found foundToo within withinToo same
    cases mapped.symm.trans mappedToo
    rfl

theorem Embeds.shares_self (embeds : p.Embeds programs i p) (shares : p.Shares i p x y) :
    x = y := by
  obtain ⟨found, mapped, within⟩ := shares
  rw [embeds.outer.number_unique embeds.component (component?_zero p), mapped?_eq (component?_zero p),
    numbers, if_pos rfl, List.getElem?_range (component?_isSome.mp (by simp [found]))] at mapped
  cases mapped
  rfl

end Program

end Tenancy
