import Mathlib.Data.List.Induction
import Tenancy.Proofs.Inheritance
import Tenancy.Proofs.Staffing

/-!
The layout of linked programs.

A registry flattens what a program is composed of: the components of its parts, one part after the
other, each name once and where it comes first. Nothing that the program is composed of, however
deeply, is left out, and nothing else is let in. The variables of the components lie one after the
other in the storage of an object, and every object has just this storage.
-/

namespace Tenancy

open List

theorem Program.map_name_firstOfName (programs : List Program) :
    (firstOfName [] programs).map name = (programs.map name).eraseDups := by
  induction programs using reverseRecOn with
  | nil => rfl
  | append_singleton before q ih =>
    have last : firstOfName [] (before ++ [q]) =
        if (firstOfName [] before).any (·.name = q.name) then firstOfName [] before
        else firstOfName [] before ++ [q] := by
      unfold firstOfName
      rw [foldl_append]
      rfl
    have known : (firstOfName [] before).any (·.name = q.name) = true ↔
        q.name ∈ before.map name := by
      rw [← mem_eraseDups, ← ih]
      simp
    rw [last, map_append, eraseDups_append, ← ih]
    by_cases listed : q.name ∈ before.map name
    · rw [if_pos (known.mpr listed)]
      simp [cons_removeAll, listed]
    · rw [if_neg (mt known.mp listed), map_append]
      simp [cons_removeAll, eraseDups_cons, listed]

def Composes (declared : List Declaration) (name part : String) : Prop :=
  ∃ d ∈ declared, d.name = name ∧ part ∈ d.parts

namespace Composed

variable {declared : List Declaration} {programs parts : List Program} {p q : Program}
  {d : Declaration}

theorem mem_parts_iff {names : List String}
    (resolved : names.map (fun name => programs.find? (·.name = name)) = parts.map some) :
    p ∈ parts ↔ p.name ∈ names ∧ programs.find? (·.name = p.name) = some p := by
  constructor
  · intro part
    have listed := mem_map_of_mem (f := some) part
    rw [← resolved] at listed
    obtain ⟨name, among, found⟩ := mem_map.mp listed
    obtain rfl : p.name = name := by simpa using find?_some found
    exact ⟨among, found⟩
  · rintro ⟨among, found⟩
    have listed := mem_map_of_mem (f := fun name => programs.find? (·.name = name)) among
    rw [resolved, found] at listed
    obtain ⟨q, part, same⟩ := mem_map.mp listed
    exact Option.some.inj same ▸ part

/-- A program is linked from its parts, and is no component of theirs. -/
structure Flattens (declared : List Declaration) (programs : List Program) (p : Program)
    (d : Declaration) (parts : List Program) : Prop where
  declared : d ∈ declared
  linked : p = Program.link d parts
  resolved : d.parts.map (fun name => programs.find? (·.name = name)) = parts.map some
  inherited : p.inherited = Program.firstOfName [] (parts.flatMap Program.components)

theorem flattens (composed : Composed declared programs) (mem : p ∈ programs) :
    ∃ d parts, Flattens declared programs p d parts := by
  induction composed with
  | nil => simp at mem
  | @snoc programs parts d before isDeclared new resolved ih =>
    rcases mem_append.mp mem with earlier | last
    · obtain ⟨e, parts', flattens⟩ := ih earlier
      exact ⟨e, parts', { flattens with resolved := parts_append _ flattens.resolved }⟩
    · rw [mem_singleton.mp last]
      refine ⟨d, parts, isDeclared, rfl, parts_append _ resolved, ?_⟩
      -- The name is new, so no component of a part has it.
      have others : (parts.flatMap Program.components).filter (·.name ≠ d.name) =
          parts.flatMap Program.components := by
        apply filter_eq_self.mpr
        intro q listed
        obtain ⟨part, among, component⟩ := mem_flatMap.mp listed
        have known := (before.closed part (parts_subset resolved among)).linked q component
        have ne : q.name ≠ d.name := fun same => new (same ▸ mem_map_of_mem known)
        simpa using ne
      show Program.flatten d.name parts = _
      rw [Program.flatten, others]

theorem Flattens.mem_inherited_iff (flattens : Flattens declared programs p d parts)
    (composed : Composed declared programs) :
    q ∈ p.inherited ↔ ∃ part ∈ parts, q ∈ part.components := by
  rw [flattens.inherited]
  constructor
  · intro mem
    exact mem_flatMap.mp ((Program.mem_of_mem_firstOfName mem).resolve_left not_mem_nil)
  · rintro ⟨part, among, component⟩
    have subset := parts_subset flattens.resolved
    obtain ⟨q', mem, same⟩ := Program.exists_mem_firstOfName []
      (mem_flatMap.mpr ⟨part, among, component⟩)
    obtain ⟨part', among', component'⟩ := mem_flatMap.mp
      ((Program.mem_of_mem_firstOfName mem).resolve_left not_mem_nil)
    have known := (composed.closed part (subset among)).linked q component
    have known' := (composed.closed part' (subset among')).linked q' component'
    rwa [inj_on_of_nodup_map composed.distinct known' known same] at mem

theorem Flattens.eq_of_name (flattens : Flattens declared programs p d parts)
    (distinct : (declared.map Declaration.name).Nodup) (listed : e ∈ declared)
    (named : e.name = p.name) : e = d := by
  refine inj_on_of_nodup_map distinct listed flattens.declared ?_
  rw [named, flattens.linked]
  rfl

theorem composes_of_mem_inherited (composed : Composed declared programs) (mem : p ∈ programs)
    (inherited : q ∈ p.inherited) : Relation.TransGen (Composes declared) p.name q.name := by
  induction composed generalizing p q with
  | nil => simp at mem
  | @snoc programs parts d before isDeclared new resolved ih =>
    rcases mem_append.mp mem with earlier | last
    · exact ih earlier inherited
    · obtain rfl := mem_singleton.mp last
      obtain ⟨-, part, among, component⟩ := Program.mem_of_mem_flatten inherited
      have step : Composes declared d.name part.name :=
        ⟨d, isDeclared, rfl, ((mem_parts_iff resolved).mp among).1⟩
      rcases mem_cons.mp component with rfl | deeper
      · exact .single step
      · exact .head step (ih (parts_subset resolved among) deeper)

theorem mem_inherited_of_composes (composed : Composed declared programs)
    (distinct : (declared.map Declaration.name).Nodup) (known : q ∈ programs)
    (composes : Relation.TransGen (Composes declared) name q.name) (mem : p ∈ programs)
    (named : p.name = name) : q ∈ p.inherited := by
  induction composes using Relation.TransGen.head_induction_on generalizing p with
  | single step =>
    obtain ⟨d, parts, flattens⟩ := composed.flattens mem
    obtain ⟨e, listed, same, part⟩ := step
    obtain rfl := flattens.eq_of_name distinct listed (same.trans named.symm)
    refine (flattens.mem_inherited_iff composed).mpr ⟨q, ?_, .head _⟩
    exact (mem_parts_iff flattens.resolved).mpr ⟨part, composed.find?_eq known⟩
  | @head _ between step _ ih =>
    obtain ⟨d, parts, flattens⟩ := composed.flattens mem
    obtain ⟨e, listed, same, part⟩ := step
    obtain rfl := flattens.eq_of_name distinct listed (same.trans named.symm)
    obtain ⟨c, linked, rfl, found⟩ := exists_part flattens.resolved part
    refine (flattens.mem_inherited_iff composed).mpr ⟨c, ?_, .tail _ ?_⟩
    · exact (mem_parts_iff flattens.resolved).mpr ⟨part, found⟩
    · exact ih linked rfl

end Composed

/-- What a linked program has for components. -/
structure Program.Flat (declared : List Declaration) (r : Registry) (p : Program) : Prop where
  distinct : (p.components.map Program.name).Nodup
  first : p.component? 0 = some p
  /-- After the program itself come the components of its parts, each where it is met first. -/
  order : ∃ d ∈ declared, ∃ parts, p = Program.link d parts ∧
    d.parts.map r.find? = parts.map some ∧ p.inherited.map Program.name =
      (parts.flatMap fun part => part.components.map Program.name).eraseDups
  known : ∀ q ∈ p.components, r.find? q.name = some q
  /-- They are what the program is composed of, however deeply. -/
  composed : ∀ q, q ∈ p.inherited ↔
    q ∈ r.linked ∧ Relation.TransGen (Composes declared) p.name q.name

theorem Registry.History.flat
    (history : Registry.History declared r) (linked : p ∈ r.linked) : p.Flat declared r := by
  have composed := history.traces.composed
  have closed := composed.closed p linked
  obtain ⟨d, parts, flattens⟩ := composed.flattens linked
  refine ⟨closed.distinct, rfl, ⟨d, flattens.declared, parts, flattens.linked, flattens.resolved, ?_⟩,
    fun q component => composed.find?_eq (closed.linked q component), fun q => ⟨?_, ?_⟩⟩
  · rw [flattens.inherited, Program.map_name_firstOfName, map_flatMap]
  · intro inherited
    exact ⟨closed.linked q (.tail _ inherited), composed.composes_of_mem_inherited linked inherited⟩
  · rintro ⟨known, composes⟩
    exact composed.mem_inherited_of_composes history.traces.distinct known composes linked rfl

/-- The slices of the components make up the storage, one after the other. -/
structure Program.Sliced (p : Program) : Prop where
  first : p.offset 0 = 0
  next : ∀ (k : Nat) (q : Program), p.component? k = some q →
    p.slice? k = some (p.offset k, q.ownVariables.length) ∧
    p.offset (k + 1) = p.offset k + q.ownVariables.length
  last : p.offset p.components.length = p.size
  within : ∀ (k : Nat) (q : Program), p.component? k = some q →
    p.offset k + q.ownVariables.length ≤ p.size
  /-- Each slot is in one slice. -/
  once : ∀ slot < p.size, ∃! k, ∃ q, p.component? k = some q ∧ p.offset k ≤ slot ∧
    slot < p.offset k + q.ownVariables.length

namespace Program

variable {p q : Program} {k slot : Nat}

theorem offset_length (p : Program) : p.offset p.components.length = p.size := by
  rw [offset, take_length, size]

theorem offset_add_le (found : p.component? k = some q) :
    p.offset k + q.ownVariables.length ≤ p.size := by
  rw [← offset_succ found, ← offset_length]
  exact offset_mono (component?_isSome.mp (by simp [found]))

theorem exists_slice (below : slot < p.offset n) : ∃ k q, p.component? k = some q ∧
    p.offset k ≤ slot ∧ slot < p.offset k + q.ownVariables.length := by
  induction n with
  | zero => exact absurd below (Nat.not_lt_zero slot)
  | succ n ih =>
    by_cases before : slot < p.offset n
    · exact ih before
    · cases found : p.component? n with
      | none =>
        have stop : p.components[n]? = none := found
        rw [offset, take_add_one, stop, Option.toList_none, append_nil] at below
        exact absurd below before
      | some q =>
        rw [offset_succ found] at below
        exact ⟨n, q, found, Nat.le_of_not_lt before, below⟩

theorem sliced (p : Program) : p.Sliced where
  first := rfl
  next k q found := ⟨by rw [slice?, found]; rfl, offset_succ found⟩
  last := p.offset_length
  within _ _ := offset_add_le
  once slot below := by
    rw [← offset_length] at below
    obtain ⟨k, q, found, low, high⟩ := exists_slice below
    refine ⟨k, ⟨q, found, low, high⟩, ?_⟩
    rintro j ⟨c, found', low', high'⟩
    have inside : slot - p.offset j < c.ownVariables.length := by omega
    have insideToo : slot - p.offset k < q.ownVariables.length := by omega
    exact (slot_unique found' found inside insideToo (by omega)).1

end Program

/-- An object has the storage of its program, and each component a part of it. -/
structure Instance.Fits (o : Instance) : Prop where
  size : o.members.size = o.program.size
  within : ∀ (k : Nat) (q : Program), o.program.component? k = some q →
    o.program.offset k + q.ownVariables.length ≤ o.members.size
  length : ∀ (k : Nat) (q : Program), o.program.component? k = some q →
    (o.componentMembers k).length = q.ownVariables.length
  slots : ∀ (k : Nat) (q : Program), o.program.component? k = some q →
    ∀ i < q.ownVariables.length, (o.componentMembers k)[i]? = o.members[o.program.offset k + i]?

theorem Instance.fits {o : Instance} (size : o.members.size = o.program.size) : o.Fits where
  size := size
  within k q found := size ▸ Program.offset_add_le found
  length k q found := by
    have within := Program.offset_add_le found
    unfold componentMembers Program.slice?
    rw [found]
    simp only [Option.map_some, length_take, length_drop, Array.length_toList]
    omega
  slots k q found i below := by rw [getElem?_componentMembers found, if_pos below]

/-- A program that a registry has linked is laid out as its declarations say, and every object that
has been made from it has just the storage that it needs. -/
theorem Registry.linked_layout {declared : List Declaration} {r : Registry} {p : Program}
    (history : Registry.History declared r) (linked : p ∈ r.linked) :
    p.Flat declared r ∧ p.Sliced ∧
    ∀ σ : System, σ.Peopled (fun _ => True) → ∀ o ∈ σ.world.objects, o.program = p → o.Fits :=
  ⟨history.flat linked, p.sliced, fun _ peopled o member _ =>
    Instance.fits (peopled.staffed.world.storage o member)⟩

/-! A hall is composed of a case and a rack, which both have a shelf. -/

namespace Registry

def shelf : Declaration := { name := "/shelf", ownVariables := [⟨"books", .any⟩] }

def bookcase : Declaration where
  name := "/case"
  parts := ["/shelf"]
  ownVariables := [⟨"door", .any⟩, ⟨"lock", .any⟩]

def rack : Declaration := { name := "/rack", parts := ["/shelf"], ownVariables := [⟨"hooks", .any⟩] }

def hall : Declaration where
  name := "/hall"
  parts := ["/case", "/rack"]
  ownVariables := [⟨"floor", .any⟩]

def hallProgram : Program :=
  Program.link hall
    [Program.link bookcase [Program.link shelf []], Program.link rack [Program.link shelf []]]

/-- The hall has the shelf once, after the case, and five slots. -/
theorem hall_layout : ∃ r, History [hall, rack, bookcase, shelf] r ∧ hallProgram ∈ r.linked ∧
    hallProgram.Flat [hall, rack, bookcase, shelf] r ∧ hallProgram.Sliced ∧
    hallProgram.components.map Program.name = ["/hall", "/case", "/shelf", "/rack"] ∧
    (range 4).map hallProgram.slice? = [some (0, 1), some (1, 2), some (3, 1), some (4, 1)] ∧
    ∃ (σ : System) (o : Instance), σ.Peopled (fun _ => True) ∧ o ∈ σ.world.objects ∧
      o.program = hallProgram ∧ o.members.size = 5 ∧ o.Fits := by
  have linked : ∃ r, History [hall, rack, bookcase, shelf] r ∧ hallProgram ∈ r.linked :=
    ⟨_, .link (.declare (.declare (.declare (.declare .empty rfl) rfl) rfl) rfl),
      .tail _ (.tail _ (.tail _ (.head _)))⟩
  obtain ⟨r, history, linked⟩ := linked
  obtain ⟨flat, sliced, fits⟩ := linked_layout history linked
  have empty : System.Peopled (fun _ => True) ⟨stadium, fun _ => none⟩ :=
    .blank (stadium_blank.mono fun _ _ => trivial) fun _ _ => trivial
  have housed := empty.next (.demand (.createDomain "house")) rfl fun _ _ _ => trivial
  have peopled := housed.next (.demand (.newObject hallProgram 0)) rfl fun _ _ _ => trivial
  have made : ∃ o ∈ ((stadium.createDomain "house").2.newObject hallProgram 0).2.objects,
      o.program = hallProgram := ⟨_, Array.mem_push_self, rfl⟩
  obtain ⟨o, member, same⟩ := made
  have fit := fits _ peopled o member same
  have size : o.members.size = 5 := by
    rw [fit.size, same]
    decide +kernel
  exact ⟨r, history, linked, flat, sliced, by decide +kernel, by decide +kernel, _, o, peopled, member,
    same, size, fit⟩

end Registry

end Tenancy
