import Tenancy.Proofs.Machine.Mirrored

/-!
Inherited code keeps its meaning.

A function of a component runs on an object that is composed of the component as it runs on an object
of the component alone, as long as it calls neither other objects nor efuns. It comes to the same
result and leaves the same in the variables of the component, and it does not touch the variables of
other components. Only a fault about a missing function tells the two objects apart.
-/

namespace Tenancy

open Program Opcode Program

namespace Instance

variable {o o1 o2 : Instance} {k j : Nat} {c : Program}

theorem getElem?_componentMembers (found : o.program.component? k = some c) (index : Nat) :
    (o.componentMembers k)[index]? =
      if index < c.ownVariables.length then o.members[o.program.offset k + index]? else none := by
  unfold componentMembers slice?
  rw [found]
  simp [List.getElem?_take, List.getElem?_drop]

theorem componentMembers_eq_iff (first : o1.program.component? k = some c)
    (second : o2.program.component? j = some c) :
    o1.componentMembers k = o2.componentMembers j ↔ ∀ index < c.ownVariables.length,
      o1.members[o1.program.offset k + index]? = o2.members[o2.program.offset j + index]? := by
  constructor
  · intro same index within
    have held : (o1.componentMembers k)[index]? = (o2.componentMembers j)[index]? := by rw [same]
    rwa [getElem?_componentMembers first, getElem?_componentMembers second, if_pos within,
      if_pos within] at held
  · intro same
    apply List.ext_getElem?
    intro index
    rw [getElem?_componentMembers first, getElem?_componentMembers second]
    split
    · exact same index ‹_›
    · rfl

end Instance

namespace Placement

variable {place : Placement} {programs : List Program} {w1 w2 : World}

/-- In every component that both objects have, the variables hold the same. -/
def Alike (place : Placement) (w1 w2 : World) : Prop :=
  ∀ (number target : Nat) (c : Program), place.outer.component? number = some c →
    place.inner.component? target = some c →
    (w1.object place.whole).componentMembers number = (w2.object place.part).componentMembers target

theorem Alike.apt (embeds : place.outer.Embeds programs place.number place.inner)
    (alike : place.Alike place.start place.start) : place.Apt programs where
  embeds := embeds
  same x y shares := by
    obtain ⟨found, mapped, within⟩ := shares
    obtain ⟨c, foundToo, component⟩ := embeds.component?_mapped mapped
    cases found.symm.trans foundToo
    exact (Instance.componentMembers_eq_iff component found).mp (alike _ _ _ component found) _ within

/-- The two runs may begin in a state. The object has a linked program, the variables of its component
are those of the other object, and the domain that the thread is in has both objects or neither. -/
structure Begins (place : Placement) (r : Registry) (s : State) : Prop where
  linked : place.outer ∈ r.linked
  component : place.outer.component? place.number = some place.inner
  start : place.start = s.world
  alike : place.Alike s.world s.world
  housed : World.Housed place (s.world.domain s.thread.current.domain)
  sound : s.world.heap.Sound
  owner : s.owner.number < s.world.heap.lists.size

theorem Begins.apt
    (begins : place.Begins r s) (history : Registry.History declared r) : place.Apt r.linked := by
  have composed := history.traces.composed
  have outer := composed.closed _ begins.linked
  have inner := composed.closed _ (outer.linked _ (List.mem_of_getElem? begins.component))
  have alike := begins.alike
  rw [← begins.start] at alike
  exact alike.apt ⟨outer, inner, begins.component⟩

theorem Begins.mirrors (begins : place.Begins r s) (apt : place.Apt programs) :
    State.Mirrors place s.thread.frames s.thread.frames s s := by
  refine ⟨?_, rfl, rfl, begins.owner, begins.housed⟩
  have sound := begins.sound
  rw [← begins.start] at sound ⊢
  exact ⟨.refl sound, rfl, .refl _ _ _, .refl _ _ _, apt.same⟩

/-- Two worlds that runs have come to. All payloads are the same, and so are the variables of common
components. Variables of components that only the whole has are as at the start. -/
structure Ends (place : Placement) (w1 w2 : World) : Prop where
  payloads : ∀ id, w2.heap.aspect? id = w1.heap.aspect? id
  outer : (w1.object place.whole).program = place.outer
  inner : (w2.object place.part).program = place.inner
  alike : place.Alike w1 w2
  others : ∀ k c, place.outer.component? k = some c → c ∉ place.inner.components →
    (w1.object place.whole).componentMembers k = (place.start.object place.whole).componentMembers k

end Placement

namespace World.Mirrors

variable {place : Placement} {programs : List Program} {w1 w2 : World}

section

variable (apt : place.Apt programs) (mirrors : w1.Mirrors place w2)
include apt mirrors

theorem alike : place.Alike w1 w2 := by
  intro number target c component found
  obtain ⟨number', mapped, componentToo⟩ := apt.embeds.exists_number found
  obtain rfl := apt.embeds.outer.number_unique componentToo component
  have outer : (w1.object place.whole).program = place.outer := mirrors.first.program _
  have inner : (w2.object place.part).program = place.inner := mirrors.second.program _
  apply (Instance.componentMembers_eq_iff (outer ▸ component) (inner ▸ found)).mpr
  intro index within
  rw [outer, inner]
  exact mirrors.same _ _ (.intro found mapped within)

theorem others
    (component : place.outer.component? k = some c) (apart : c ∉ place.inner.components) :
    (w1.object place.whole).componentMembers k =
      (place.start.object place.whole).componentMembers k := by
  have outer : (w1.object place.whole).program = place.outer := mirrors.first.program _
  apply (Instance.componentMembers_eq_iff (outer ▸ component) component).mpr
  intro index within
  rw [outer]
  apply mirrors.first.kept
  rintro ⟨y, shares⟩
  generalize slot : place.outer.offset k + index = x at shares
  obtain ⟨found, mapped, withinToo⟩ := shares
  obtain ⟨d, foundToo, componentToo⟩ := apt.embeds.component?_mapped mapped
  cases found.symm.trans foundToo
  obtain ⟨rfl, -⟩ := slot_unique component componentToo within withinToo slot
  cases component.symm.trans componentToo
  exact apart (List.mem_of_getElem? found)

theorem ends : place.Ends w1 w2 where
  payloads := mirrors.heap.aspect?_eq
  outer := mirrors.first.program _
  inner := mirrors.second.program _
  alike := mirrors.alike apt
  others _ _ := mirrors.others apt

end

end World.Mirrors

inductive RunResult.Mirrors (place : Placement) : RunResult → RunResult → Prop where
  | finished {o1 o2 : Outcome} {s1 s2 : State} (outcome : o1.Mirrors place o2)
      (ends : place.Ends s1.world s2.world) : Mirrors place (.finished o1 s1) (.finished o2 s2)
  | broken (b : Breach) : Mirrors place (.broken b) (.broken b)
  | exhausted (m1 m2 : Machine) : Mirrors place (.exhausted m1) (.exhausted m2)

namespace Machine

def staysInward : Nat → Machine → Bool
  | 0, _ => true
  | fuel + 1, m => m.inward &&
    match m.step with
    | .next m => staysInward fuel m
    | _ => true

def inwardFrom (fuel : Nat) : Except Breach Machine → Bool
  | .ok m => m.staysInward fuel
  | .error _ => true

variable {place : Placement} {programs : List Program}

theorem Mirrors.run (apt : place.Apt programs) (patient : Bool) {m1 m2 : Machine}
    (mirrors : m1.Mirrors place m2) (inward : m2.staysInward fuel) :
    (m1.run patient fuel).Mirrors place (m2.run patient fuel) := by
  induction fuel generalizing m1 m2 with
  | zero => exact .exhausted m1 m2
  | succ fuel ih =>
    rw [staysInward, Bool.and_eq_true] at inward
    obtain ⟨first, later⟩ := inward
    have stepped := mirrors.step apt first
    rw [Machine.run, Machine.run]
    generalize m1.step = p1 at stepped
    generalize m2.step = p2 at stepped later
    cases stepped with
    | next mirrors => exact ih mirrors later
    | done state outcome => exact .finished outcome (state.world.ends apt)
    | broken b => exact .broken b

/-- A function of a component on an object that is composed of it, and on an object of the component
alone. -/
theorem callComponent_inherited {place : Placement} {declared : List Declaration} {r : Registry}
    {s : State} (history : Registry.History declared r) (begins : place.Begins r s) (function : Nat)
    (args : List Value) (patient : Bool) (fuel : Nat)
    (inward : inwardFrom fuel ((s.idle [.bare]).callComponent place.part 0 function args)) :
    RunResult.Mirrors place
      (runFrom patient fuel ((s.idle [.bare]).callComponent place.whole place.number function args))
      (runFrom patient fuel ((s.idle [.bare]).callComponent place.part 0 function args)) := by
  have apt := begins.apt history
  have goes : Goes place
      (callComponent ⟨s, .result .nil, [.bare]⟩ place.whole place.number function args)
      (callComponent ⟨s, .result .nil, [.bare]⟩ place.part 0 function args) :=
    callComponent_mirrors apt (begins.mirrors apt) .bare apt.embeds.mapped?_self function args
  unfold State.idle at inward ⊢
  generalize callComponent _ place.whole place.number function args = r1 at goes
  generalize callComponent _ place.part 0 function args = r2 at goes inward
  cases goes with
  | ok mirrors => exact mirrors.run apt patient inward
  | error b => exact .broken b

end Machine

/-! A desk is composed of a tray, and an office of a lamp and of the desk. -/

namespace Registry

def tray : Declaration where
  name := "/tray"
  ownVariables := [⟨"kept", .any⟩]
  functions := [
    { name := "fill", number := 0
      body := .code #[
        { code := mkEmptyArray.toByte, first := .member 0 },
        { code := ret.toByte, first := .member 0 }] }]

/-- Its first function has the tray filled. Its second one calls a function that there is not. The
third one looks into an array once another function has returned. -/
def desk : Declaration where
  name := "/desk"
  parts := ["/tray"]
  ownVariables := [⟨"last", .any⟩]
  constants := [.integer 0x10000]
  functions := [
    { name := "fill", number := 0
      body := .code #[
        { code := callFar.toByte, first := .member 0 },
        { code := ret.toByte, first := .member 0 }] },
    { name := "stray", number := 1
      body := .code #[{ code := callNear.toByte, first := .member 0, second := .constant 7 }] },
    { name := "look", number := 2, locals := 1
      body := .code #[
        { code := mkEmptyArray.toByte, first := .member 0 },
        { code := callNear.toByte, first := .local 0, second := .constant 3 },
        { code := idxGet.toByte, first := .local 0, second := .member 0,
          third := .constant 0 }] },
    { name := "rest", number := 3 }]

def lamp : Declaration := { name := "/lamp", ownVariables := [⟨"lit", .any⟩] }

def office : Declaration where
  name := "/office"
  parts := ["/lamp", "/desk"]
  ownVariables := [⟨"label", .any⟩]

end Registry

namespace State

open Registry

/-- An office and a desk in a domain that is collected whenever a function has returned. -/
def furnished : State :=
  let table := link desk [link tray []]
  let world : World :=
    { settings := { firstThreshold := 1, minThreshold := 1, maxThreshold := 1 }
      domainIds := .empty 1
      objectIds := .empty 1 }
  let (home, world) := world.createDomain "home"
  let (_, world) := world.newObject (link office [link lamp [], table]) home
  let (_, world) := world.newObject table home
  ⟨world, { key := ⟨0⟩, domains := [⟨home, 0, 0⟩], scratch := ⟨1⟩, transfer := ⟨2⟩, home }⟩

end State

def Placement.furnished : Placement := ⟨State.furnished.world, 0, 1, 2⟩

theorem Placement.begins_furnished :
    ∃ r, Registry.History [Registry.office, Registry.lamp, Registry.desk, Registry.tray] r ∧
      furnished.Begins r State.furnished := by
  have named : ∀ number < furnished.outer.components.length,
      ∀ target < furnished.inner.components.length,
      (furnished.outer.component? number).map name = (furnished.inner.component? target).map name →
      (State.furnished.world.object 0).componentMembers number =
        (State.furnished.world.object 1).componentMembers target := by decide +kernel
  refine ⟨_, .link (.declare (.declare (.declare (.declare .empty rfl) rfl) rfl) rfl), ?_⟩
  constructor
  · exact .tail _ (.tail _ (.tail _ (.head _)))
  · rfl
  · rfl
  · intro number target c first second
    apply named
    · exact component?_isSome.mp (Option.isSome_of_eq_some first)
    · exact component?_isSome.mp (Option.isSome_of_eq_some second)
    · rw [first, second]
  · unfold World.Housed
    decide +kernel
  · exact Heap.sound_empty.newList
  · decide +kernel

def RunResult.fault? : RunResult → Option Fault
  | .finished (.faulted f) _ => some f
  | _ => none

def RunResult.members? (key : ObjectKey) : RunResult → Option (List Value)
  | .finished _ s => some (s.world.object key).members.toList
  | _ => none

/-- A call of the component of the office that is a desk. -/
def State.askOffice (s : State) (function : Nat) : RunResult :=
  Machine.runFrom true 24 ((s.idle [.bare]).callComponent 0 2 function [])

def State.askDesk (s : State) (function : Nat) : RunResult :=
  Machine.runFrom true 24 ((s.idle [.bare]).callComponent 1 0 function [])

/-- Filling the tray of the office, as the tray of the desk. -/
theorem Machine.callComponent_inherited_fill :
    ∃ declared r s, Registry.History declared r ∧ Placement.furnished.Begins r s ∧
      (s.askOffice 0).members? 0 = some [.nil, .nil, .ref ⟨.array, 0⟩, .ref ⟨.array, 0⟩] ∧
      (s.askDesk 0).members? 1 = some [.ref ⟨.array, 0⟩, .ref ⟨.array, 0⟩] ∧
      RunResult.Mirrors .furnished (s.askOffice 0) (s.askDesk 0) := by
  obtain ⟨r, history, begins⟩ := Placement.begins_furnished
  refine ⟨_, r, .furnished, history, begins, by decide +kernel, by decide +kernel, ?_⟩
  exact callComponent_inherited history begins 0 [] true 24 (by decide +kernel)

/-- A function that the desk lacks is missing in component 0 of the desk and in component 2 of the
office. -/
theorem Machine.fault_names_number_in_object :
    ∃ declared r s, Registry.History declared r ∧ Placement.furnished.Begins r s ∧
      inwardFrom 24 ((s.idle [.bare]).callComponent Placement.furnished.part 0 1 []) ∧
      (s.askOffice 1).fault? = some (.badComponent 2 7) ∧
      (s.askDesk 1).fault? = some (.badComponent 0 7) := by
  obtain ⟨r, history, begins⟩ := Placement.begins_furnished
  exact ⟨_, r, .furnished, history, begins, by decide +kernel, by decide +kernel, by decide +kernel⟩

/-- There is another office in a domain of its own, where the thread is not. -/
def State.divided : State :=
  let (away, world) := furnished.world.createDomain "away"
  ⟨(world.newObject (furnished.world.object 0).program away).2, furnished.thread⟩

/-- What an object has that the domain does not list is lost to a collection there. -/
theorem Machine.collection_tells_objects_apart :
    inwardFrom 24 ((State.divided.idle [.bare]).callComponent 1 0 2 []) ∧
    (runFrom true 24 ((State.divided.idle [.bare]).callComponent 2 2 2 [])).fault? =
      some .freedValue ∧ (State.divided.askDesk 2).fault? = some (.indexOutOfRange 0x10000 0) := by
  decide +kernel

end Tenancy
