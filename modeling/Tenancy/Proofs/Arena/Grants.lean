import Mathlib.Logic.Relation
import Tenancy.Proofs.Arena.Slots

/-!
What an arena has granted.

A history is an arena together with all values that it ever took in, their identities, and how often
their slots have been released since. Whatever is allocated, released and drained, an identity leads
to its value while that is there and to nothing afterwards, until the versions of its slot have all
been used. The process in an identity is not looked at, so an identity that was never given out can
lead to a value as well.
-/

namespace Tenancy.Arena

open List

variable {α : Type} {a b : Arena α} {id : GlobalId} {v : α}

/-! ### Histories -/

/-- A value that the arena has taken in, under the identity that it gave out for it. -/
structure Grant (α : Type) where
  id : GlobalId
  value : α
  /-- How often the slot has been released since. -/
  releases : Nat := 0

def Grant.slot (g : Grant α) : Nat := g.id.index

def Grant.live (g : Grant α) : Bool := g.releases == 0

/-- Counts a release if the slot is among those released. -/
def Grant.count (released : Nat → Bool) (g : Grant α) : Grant α :=
  if released g.slot then { g with releases := g.releases + 1 } else g

/-- An arena with all that it has granted, the latest first. -/
structure History (α : Type) where
  arena : Arena α
  grants : List (Grant α) := []

namespace History

def current (r : History α) : List (Grant α) := r.grants.filter Grant.live

def inUse (r : History α) : List Nat := r.current.map Grant.slot

def allocateWith (r : History α) (make : GlobalId → α) : History α :=
  let (id, arena) := r.arena.allocateWith make
  ⟨arena, ⟨id, make id, 0⟩ :: r.grants⟩

def allocate (r : History α) (value : α) : History α :=
  let (id, arena) := r.arena.allocate value
  ⟨arena, ⟨id, value, 0⟩ :: r.grants⟩

/-- A slot has been released if the arena hands a value back. -/
def release (r : History α) (id : GlobalId) : History α :=
  match r.arena.release id with
  | (none, arena) => ⟨arena, r.grants⟩
  | (some _, arena) => ⟨arena, r.grants.map (Grant.count (· == id.index))⟩

def drain (r : History α) : History α :=
  ⟨r.arena.drain.2, r.grants.map (Grant.count r.inUse.contains)⟩

/-- One use of an arena. Values are only added while there is room. -/
inductive Uses (r : History α) : History α → Prop where
  | allocate (room : r.inUse.length < 0x100000000) (value : α) : Uses r (r.allocate value)
  | allocateWith (room : r.inUse.length < 0x100000000) (make : GlobalId → α) :
      Uses r (r.allocateWith make)
  | release (id : GlobalId) : Uses r (r.release id)
  | drain : Uses r r.drain

def Reachable (process : UInt16) : History α → Prop :=
  Relation.ReflTransGen Uses ⟨.empty process, []⟩

end History

/-- The slot of the grant has the version of its identity, moved on by each release. -/
def Grant.Tracked (g : Grant α) (a : Arena α) : Prop :=
  ∃ s, a.slots[g.slot]? = some s ∧ s.version = nextVersion^[g.releases] g.id.version ∧
    (g.live → s.value = some g.value)

namespace Grant

variable {g : Grant α} {gone : Nat → Bool}

theorem Tracked.allocated (tracked : g.Tracked a) (allocated : a.Allocated id v b) :
    g.Tracked b := by
  obtain ⟨s, found, version, held⟩ := tracked
  by_cases here : g.slot = id.index
  · rw [here] at found
    have gone : ¬ g.live := fun live =>
      allocated.vacant (mem_occupied.mpr ⟨s, g.value, found, held live⟩)
    refine ⟨_, here ▸ allocated.stored, ?_, fun live => absurd live gone⟩
    exact (allocated.version s found).symm.trans version
  · exact ⟨s, allocated.others _ s here found, version, held⟩

@[simp] theorem id_count (gone : Nat → Bool) (g : Grant α) : (g.count gone).id = g.id := by
  unfold count
  split <;> rfl

@[simp] theorem slot_count (gone : Nat → Bool) (g : Grant α) : (g.count gone).slot = g.slot := by
  simp [slot]

@[simp] theorem live_count (gone : Nat → Bool) (g : Grant α) :
    (g.count gone).live = (g.live && !gone g.slot) := by
  unfold count live
  split <;> simp [*]

@[simp] theorem value_count (gone : Nat → Bool) (g : Grant α) : (g.count gone).value = g.value := by
  unfold count
  split <;> rfl

theorem Tracked.vacated (tracked : g.Tracked a) (vacated : a.Vacated gone b) :
    (g.count gone).Tracked b := by
  obtain ⟨s, found, version, held⟩ := tracked
  have left := vacated.slots _ s found
  unfold count
  split
  · rename_i released
    rw [if_pos released] at left
    refine ⟨_, left, ?_, fun live => by simp [Grant.live] at live⟩
    rw [version, Function.iterate_succ_apply']
  · rename_i kept
    rw [if_neg kept] at left
    exact ⟨s, left, version, held⟩

end Grant

namespace History

variable {process : UInt16} {r r' : History α} {g : Grant α}

/-- The arena is as its history says. -/
structure Consistent (issuer : UInt16) (r : History α) : Prop where
  tidy : r.arena.Tidy
  small : r.arena.next ≤ 0x100000000
  process : r.arena.process = issuer
  issued : ∀ g ∈ r.grants, g.id.process = issuer
  used : ∀ g ∈ r.grants, g.id.version ≠ 0
  tracked : ∀ g ∈ r.grants, g.Tracked r.arena
  occupied : r.arena.occupied.Perm r.inUse

theorem Consistent.nodup_inUse (sane : r.Consistent process) : r.inUse.Nodup :=
  sane.occupied.nodup_iff.mp (nodup_occupied _)

theorem Consistent.live_eq (sane : r.Consistent process) : r.arena.live = r.inUse.length := by
  rw [sane.tidy.live, sane.occupied.length_eq]

theorem consistent_empty (process : UInt16) :
    Consistent process (⟨.empty process, []⟩ : History α) where
  tidy := by constructor <;> simp [Arena.empty, Arena.occupied]
  small := Nat.zero_le _
  process := rfl
  issued _ listed := by simp at listed
  used _ listed := by simp at listed
  tracked _ listed := by simp at listed
  occupied := by simp [Arena.occupied, empty, inUse, current]

theorem Consistent.allocateWith (sane : r.Consistent process)
    (room : r.inUse.length < 0x100000000) (make : GlobalId → α) :
    (r.allocateWith make).Consistent process := by
  rw [← sane.live_eq] at room
  have allocated := sane.tidy.allocateWith sane.small room make
  unfold History.allocateWith
  dsimp only
  generalize (r.arena.allocateWith make).1 = id at *
  generalize (r.arena.allocateWith make).2 = b at *
  constructor
  case tidy => exact allocated.tidy
  case small =>
    have next := allocated.next
    have small := sane.small
    dsimp only
    omega
  case process => exact allocated.process.trans sane.process
  case issued =>
    rintro g (_ | ⟨_, old⟩)
    · exact allocated.issuer.trans sane.process
    · exact sane.issued g old
  case used =>
    rintro g (_ | ⟨_, old⟩)
    · exact allocated.used
    · exact sane.used g old
  case tracked =>
    rintro g (_ | ⟨_, old⟩)
    · exact ⟨_, allocated.stored, rfl, fun _ => rfl⟩
    · exact (sane.tracked g old).allocated allocated
  case occupied => exact allocated.occupied.trans (sane.occupied.cons _)

theorem inUse_count (r : History α) (gone : Nat → Bool) (b : Arena α) :
    inUse ⟨b, r.grants.map (Grant.count gone)⟩ = r.inUse.filter fun i => !gone i := by
  unfold inUse current
  induction r.grants with
  | nil => rfl
  | cons g rest ih =>
    rw [map_cons, filter_cons, filter_cons, Grant.live_count]
    cases live : g.live <;> cases released : gone g.slot <;> simp [ih, released]

theorem Consistent.vacated (sane : r.Consistent process) (vacated : r.arena.Vacated gone b) :
    Consistent process ⟨b, r.grants.map (Grant.count gone)⟩ := by
  constructor
  case tidy => exact vacated.tidy sane.tidy
  case small => exact vacated.next.symm ▸ sane.small
  case process => exact vacated.process.trans sane.process
  case issued =>
    simp only [forall_mem_map, Grant.id_count]
    exact sane.issued
  case used =>
    simp only [forall_mem_map, Grant.id_count]
    exact sane.used
  case tracked =>
    simp only [forall_mem_map]
    exact fun g listed => (sane.tracked g listed).vacated vacated
  case occupied =>
    rw [inUse_count, vacated.occupied_eq]
    exact sane.occupied.filter _

theorem release_of_found (found : r.arena.get? id = some v) :
    r.release id = ⟨(r.arena.release id).2, r.grants.map (Grant.count (· == id.index))⟩ := by
  unfold History.release
  rw [show r.arena.release id = (some v, (r.arena.release id).2) by simp [Arena.release, found]]

theorem release_of_missing (missing : r.arena.get? id = none) : r.release id = r := by
  unfold History.release
  rw [show r.arena.release id = (none, r.arena) by simp [Arena.release, missing]]

theorem Consistent.release (sane : r.Consistent process) (id : GlobalId) :
    (r.release id).Consistent process := by
  cases found : r.arena.get? id with
  | none =>
    rw [release_of_missing found]
    exact sane
  | some v =>
    rw [release_of_found found]
    exact sane.vacated (release_vacated found)

theorem Uses.consistent (uses : r.Uses r') (sane : r.Consistent process) :
    r'.Consistent process := by
  cases uses with
  | allocate room value => exact sane.allocateWith room fun _ => value
  | allocateWith room make => exact sane.allocateWith room make
  | release id => exact sane.release id
  | drain =>
    refine sane.vacated (drain_vacated sane.tidy fun j => ?_)
    rw [contains_iff_mem, sane.occupied.mem_iff]

theorem Reachable.consistent (reachable : r.Reachable process) : r.Consistent process := by
  induction reachable with
  | refl => exact consistent_empty process
  | tail _ uses ih => exact uses.consistent ih

end History

/-! ### What identities lead to -/

structure Resolves (a : Arena α) (id : GlobalId) (v : α) : Prop where
  get : a.get? id = some v
  contains : a.contains id = true
  release : (a.release id).1 = some v

structure Ignores (a : Arena α) (id : GlobalId) : Prop where
  get : a.get? id = none
  contains : a.contains id = false
  release : a.release id = (none, a)

theorem resolves_of_get? (found : a.get? id = some v) : a.Resolves id v :=
  ⟨found, by simp [contains, found], by simp [release, found]⟩

theorem ignores_iff : a.Ignores id ↔ a.get? id = none :=
  ⟨Ignores.get, fun missing => ⟨missing, by simp [contains, missing], by simp [release, missing]⟩⟩

namespace History

variable {process : UInt16} {r r' : History α} {g : Grant α}

section

variable (sane : r.Consistent process)
include sane

theorem Consistent.get?_of_live (listed : g ∈ r.grants)
    (live : g.live) : r.arena.get? g.id = some g.value := by
  obtain ⟨s, found, version, held⟩ := sane.tracked g listed
  have none : g.releases = 0 := by simpa [Grant.live] using live
  rw [none, Function.iterate_zero_apply] at version
  rw [get?_eq_some, ← version, ← held live]
  exact found

theorem Consistent.get?_of_released (listed : g ∈ r.grants)
    (released : ¬ g.live) (few : g.releases < 65535) : r.arena.get? g.id = none := by
  obtain ⟨s, found, version, -⟩ := sane.tracked g listed
  have some : 0 < g.releases := by simpa [Grant.live, Nat.pos_iff_ne_zero] using released
  have moved := iterate_nextVersion_ne (sane.used g listed) some few
  rw [← version] at moved
  rw [Option.eq_none_iff_forall_ne_some]
  intro v current
  have same := (get?_eq_some.mp current).symm.trans found
  rw [← Option.some.inj same] at moved
  exact moved rfl

theorem Consistent.values_perm : r.arena.values.Perm (r.current.map Grant.value) := by
  rw [values_eq]
  refine (sane.occupied.filterMap _).trans (.of_eq ?_)
  unfold inUse
  rw [filterMap_map, ← filterMap_eq_map]
  refine filterMap_congr fun g listed => ?_
  obtain ⟨listed, live⟩ := mem_filter.mp listed
  obtain ⟨s, found, -, held⟩ := sane.tracked g listed
  simp [found, held live]

end

/-- An identity leads to the value that it was given out for while that is there, and then to
nothing until its slot has been released as often as there are versions. -/
theorem grants_resolve (reachable : r.Reachable process) :
    (r.current.map Grant.id).Nodup ∧ (∀ g ∈ r.grants, g.id.isNull = false) ∧
    (∀ g ∈ r.current, r.arena.slots[g.id.index]? = some ⟨g.id.version, some g.value⟩) ∧
    r.arena.live = r.current.length ∧ r.arena.values.Perm (r.current.map Grant.value) ∧
    (∀ g ∈ r.grants, g.live → r.arena.Resolves g.id g.value) ∧
    ∀ g ∈ r.grants, ¬ g.live → g.releases < 65535 → r.arena.Ignores g.id := by
  have consistent := reachable.consistent
  refine ⟨?_, ?_, ?_, ?_, consistent.values_perm, ?_, ?_⟩
  · refine List.Nodup.of_map GlobalId.index ?_
    rw [map_map]
    exact consistent.nodup_inUse
  · exact fun g listed => GlobalId.isNull_eq_false_of_version (consistent.used g listed)
  · intro g listed
    obtain ⟨listed, live⟩ := mem_filter.mp listed
    exact get?_eq_some.mp (consistent.get?_of_live listed live)
  · rw [consistent.live_eq, inUse, length_map]
  · exact fun g listed live => resolves_of_get? (consistent.get?_of_live listed live)
  · exact fun g listed released few =>
      ignores_iff.mpr (consistent.get?_of_released listed released few)

theorem allocate_empty (process : UInt16) (value : α) :
    (History.mk (.empty process) []).allocate value =
      ⟨{ process, slots := freshPage.setIfInBounds 0 ⟨1, some value⟩, next := 1, live := 1 },
        [⟨.ofParts process 0 1, value, 0⟩]⟩ := by
  have page : (#[] ++ freshPage : Array (ArenaSlot α)) = freshPage := Array.empty_append
  have reserved : (empty process : Arena α).reserve =
      (0, { process, slots := freshPage, next := 1 }) := by
    rw [← page]
    rfl
  unfold History.allocate Arena.allocate Arena.allocateWith
  rw [reserved]
  rfl

def single : History Nat := (History.mk (.empty 1) []).allocate 7

theorem single_reachable : single.Reachable 1 := .tail .refl (.allocate (by decide) 7)

def recycled : History Nat :=
  ((single.allocateWith GlobalId.index).release (.ofParts 1 0 1)).allocate 20

theorem recycled_reachable : recycled.Reachable 1 := by
  refine .tail (.tail (.tail single_reachable (.allocateWith ?_ _)) (.release _)) (.allocate ?_ 20)
  all_goals
    unfold single
    rw [allocate_empty]
    decide +kernel

theorem grants_resolve_recycled : recycled.Reachable 1 ∧
    recycled.grants.map Grant.id = [.ofParts 1 0 2, .ofParts 1 1 1, .ofParts 1 0 1] ∧
    recycled.grants.map Grant.releases = [0, 0, 1] ∧
    (∀ g ∈ recycled.grants, g.live → recycled.arena.Resolves g.id g.value) ∧
    ∀ g ∈ recycled.grants, ¬ g.live → g.releases < 65535 → recycled.arena.Ignores g.id := by
  obtain ⟨-, -, -, -, -, current, stale⟩ := grants_resolve recycled_reachable
  refine ⟨recycled_reachable, ?_, ?_, current, stale⟩
  all_goals
    unfold recycled single
    rw [allocate_empty]
    decide +kernel

section

variable (sane : r.Consistent process)
include sane

theorem Consistent.exists_grant (found : r.arena.get? id = some v) :
    ∃ g ∈ r.current, g.id.index = id.index ∧ g.id.version = id.version ∧ g.value = v := by
  have stored := get?_eq_some.mp found
  have here : id.index ∈ r.inUse :=
    sane.occupied.mem_iff.mp (mem_occupied.mpr ⟨_, v, stored, rfl⟩)
  obtain ⟨g, listed, slot⟩ := mem_map.mp here
  obtain ⟨granted, live⟩ := mem_filter.mp listed
  have same := get?_eq_some.mp (sane.get?_of_live granted live)
  have slot : g.id.index = id.index := slot
  rw [slot, stored] at same
  simp only [Option.some.injEq, ArenaSlot.mk.injEq] at same
  exact ⟨g, listed, slot, same.1.symm, same.2.symm⟩

/-- An identity leads to a value if its slot and version are those of a value that is still there. -/
theorem Consistent.get?_eq_some_iff : r.arena.get? id = some v ↔
      ∃ g ∈ r.current, g.id.index = id.index ∧ g.id.version = id.version ∧ g.value = v := by
  refine ⟨sane.exists_grant, ?_⟩
  rintro ⟨g, listed, index, version, rfl⟩
  obtain ⟨granted, live⟩ := mem_filter.mp listed
  have stored := get?_eq_some.mp (sane.get?_of_live granted live)
  rw [index, version] at stored
  exact get?_eq_some.mpr stored

theorem Consistent.get?_allocate
    (room : r.inUse.length < 0x100000000) (value : α) (found : r.arena.get? id = some v) :
    (r.allocate value).arena.get? id = some v := by
  obtain ⟨g, listed, same⟩ := sane.get?_eq_some_iff.mp found
  have later : (r.allocate value).Consistent process := sane.allocateWith room fun _ => value
  refine later.get?_eq_some_iff.mpr ⟨g, ?_, same⟩
  obtain ⟨granted, live⟩ := mem_filter.mp listed
  exact mem_filter.mpr ⟨mem_cons_of_mem _ granted, live⟩

end

theorem Consistent.get?_release (sane : r.Consistent process) (found : r.arena.get? id = some v) :
    (r.arena.release id).2.get? id' = some v' ↔
      r.arena.get? id' = some v' ∧ id'.index ≠ id.index := by
  have later := sane.release id
  rw [release_of_found found] at later
  rw [later.get?_eq_some_iff, sane.get?_eq_some_iff]
  unfold current
  constructor
  · rintro ⟨g, listed, index, version, rfl⟩
    obtain ⟨mapped, live⟩ := mem_filter.mp listed
    obtain ⟨g, granted, rfl⟩ := mem_map.mp mapped
    rw [Grant.live_count, Bool.and_eq_true, Bool.not_eq_true', beq_eq_false_iff_ne] at live
    rw [Grant.id_count] at index version
    refine ⟨⟨g, mem_filter.mpr ⟨granted, live.1⟩, index, version, by simp⟩, ?_⟩
    rw [← index]
    exact live.2
  · rintro ⟨⟨g, listed, index, version, rfl⟩, other⟩
    obtain ⟨granted, live⟩ := mem_filter.mp listed
    refine ⟨g.count (· == id.index), mem_filter.mpr ⟨mem_map_of_mem granted, ?_⟩, by simpa,
      by simpa, by simp⟩
    rw [Grant.live_count, live, Bool.true_and, Bool.not_eq_true', beq_eq_false_iff_ne, Grant.slot, index]
    exact other

/-- Identities with one slot lead to one value, if they both lead to one. -/
theorem eq_of_index (found : a.get? id = some v) (found' : a.get? id' = some v')
    (same : id.index = id'.index) : v = v' := by
  have stored := get?_eq_some.mp found
  rw [same, get?_eq_some.mp found'] at stored
  simp only [Option.some.injEq, ArenaSlot.mk.injEq] at stored
  exact stored.2.symm

theorem Consistent.eq_of_slot (sane : r.Consistent process)
    (listed : g ∈ r.grants) (live : g.live) (listed' : g' ∈ r.grants) (live' : g'.live)
    (same : g.slot = g'.slot) : g = g' :=
  inj_on_of_nodup_map sane.nodup_inUse (mem_filter.mpr ⟨listed, live⟩)
    (mem_filter.mpr ⟨listed', live'⟩) same

theorem Consistent.live_count_iff (sane : r.Consistent process) (listed : g ∈ r.grants)
    (listed' : g' ∈ r.grants) (live' : g'.live) :
    (g.count (· == g'.slot)).live ↔ g.live ∧ g ≠ g' := by
  rw [Grant.live_count, Bool.and_eq_true, Bool.not_eq_true', beq_eq_false_iff_ne]
  refine and_congr_right fun live => not_congr ⟨fun here => ?_, congrArg Grant.slot⟩
  exact sane.eq_of_slot listed live listed' live' here

/-- An identity that was never given out leads to nothing, save that the process in it is not looked
at: it leads to a value whose identity differs in that alone. -/
theorem stranger_ignored_iff (reachable : r.Reachable process) (never : ∀ g ∈ r.grants, g.id ≠ id) :
    (r.arena.Ignores id ↔ ∀ g ∈ r.current, ¬ (g.id.index = id.index ∧ g.id.version = id.version)) ∧
    (id.process = process → r.arena.Ignores id) := by
  have consistent := reachable.consistent
  have ignored : r.arena.Ignores id ↔
      ∀ g ∈ r.current, ¬ (g.id.index = id.index ∧ g.id.version = id.version) := by
    rw [ignores_iff, Option.eq_none_iff_forall_ne_some]
    constructor
    · rintro missing g listed ⟨index, version⟩
      obtain ⟨granted, live⟩ := mem_filter.mp listed
      have stored := get?_eq_some.mp (consistent.get?_of_live granted live)
      rw [index, version] at stored
      exact missing g.value (get?_eq_some.mpr stored)
    · intro none v found
      obtain ⟨g, listed, index, version, -⟩ := consistent.exists_grant found
      exact none g listed ⟨index, version⟩
  refine ⟨ignored, fun issuer => ignored.mpr ?_⟩
  rintro g listed ⟨index, version⟩
  have granted := (mem_filter.mp listed).1
  refine never g granted (GlobalId.eq_of_parts ?_ index version)
  exact (consistent.issued g granted).trans issuer.symm

theorem stranger_ignored_single : single.Reachable 1 ∧
    (∀ g ∈ single.grants, g.id ≠ .ofParts 1 0 2) ∧ single.arena.Ignores (.ofParts 1 0 2) := by
  have never : ∀ g ∈ single.grants, g.id ≠ .ofParts 1 0 2 := by
    unfold single
    rw [allocate_empty]
    decide +kernel
  exact ⟨single_reachable, never,
    (stranger_ignored_iff single_reachable never).2 (by decide +kernel)⟩

/-- An identity of another process, that was never given out, takes the value away. -/
theorem stranger_resolves : single.Reachable 1 ∧ (∀ g ∈ single.grants, g.id ≠ .ofParts 2 0 1) ∧
    single.arena.Resolves (.ofParts 2 0 1) 7 ∧
    (single.arena.release (.ofParts 2 0 1)).2.live = 0 := by
  refine ⟨single_reachable, ?_, resolves_of_get? ?_, ?_⟩
  all_goals
    unfold single
    rw [allocate_empty]
    decide +kernel

end History

end Tenancy.Arena
