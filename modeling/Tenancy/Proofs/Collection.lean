import Tenancy.Proofs.Heap.Change
import Tenancy.World

/-!
Collection of a domain.

A collection starts from the roots it is given, the windows parked in the domain and the variables
of its objects. It frees the payloads of the domain that these do not reach within the domain, and
nothing else.
-/

namespace Tenancy

theorem Settings.nextThreshold_eq {s : Settings} (ordered : s.minThreshold ≤ s.maxThreshold)
    (live : Nat) : s.nextThreshold live = max s.minThreshold (min live s.maxThreshold) := by
  unfold nextThreshold
  split
  · omega
  · split <;> omega

namespace World

variable {w : World} {k : DomainKey} {roots : List Value} {id : Nat}

inductive Root (w : World) (k : DomainKey) (roots : List Value) : Value → Prop where
  | given {v : Value} : v ∈ roots → Root w k roots v
  | parked {v : Value} {window : ParkedWindow} : window ∈ (w.domain k).parked →
      v ∈ window.values → Root w k roots v
  | member {v : Value} {m : ObjectId × ObjectKey} : m ∈ (w.domain k).members →
      v ∈ (w.object m.2).members → Root w k roots v

theorem root_iff : w.Root k roots v ↔ v ∈ roots ++ w.standingRoots (w.domain k) := by
  simp only [standingRoots, List.mem_append, List.mem_flatMap, Array.mem_toList_iff]
  constructor
  · intro root
    cases root with
    | given root => exact .inl root
    | parked window held => exact .inr (.inl ⟨_, window, held⟩)
    | member listed held => exact .inr (.inr ⟨_, listed, held⟩)
  · rintro (root | ⟨_, window, held⟩ | ⟨_, listed, held⟩)
    · exact .given root
    · exact .parked window held
    · exact .member listed held

/-- What a collection of a domain finds: payloads of the domain, by way of such payloads. -/
def Reaches (w : World) (k : DomainKey) (roots : List Value) : Nat → Prop :=
  w.heap.Reached (w.domain k).values (w.Root k roots)

theorem reaches_iff : w.Reaches k roots id ↔ w.heap.Reached (w.domain k).values
      (· ∈ roots ++ w.standingRoots (w.domain k)) id :=
  ⟨fun reached => reached.mono fun _ => root_iff.mp,
    fun reached => reached.mono fun _ => root_iff.mpr⟩

/-- A collection of a domain from one world to another. -/
structure Collected (w : World) (k : DomainKey) (roots : List Value) (report : CollectReport)
    (w' : World) : Prop where
  /-- Of the payloads of the domain, exactly those that were not found are gone. -/
  freed : ∀ id, w.heap.owner? id = some (w.domain k).values →
    (w'.heap.payload? id = none ↔ ¬ w.Reaches k roots id)
  /-- What was found has the same contents. -/
  kept : ∀ id, w.Reaches k roots id → w'.heap.aspect? id = w.heap.aspect? id
  /-- The domain owns what was found, once, and nobody else does. -/
  owned : ∀ id, w.Reaches k roots id → (w'.heap.members (w.domain k).values).count id = 1 ∧
    ∀ l, l ≠ (w.domain k).values → id ∉ w'.heap.members l
  /-- Payloads that do not belong to the domain stay as they are. -/
  untouched : ∀ id, w.heap.owner? id ≠ some (w.domain k).values →
    w'.heap.cells[id]? = w.heap.cells[id]?
  others : ∀ l, l ≠ (w.domain k).values → w'.heap.list l = w.heap.list l
  before : report.before = (w.heap.list (w.domain k).values).size
  balance : report.before = report.live + report.freed
  live : report.live = (w'.heap.list (w.domain k).values).size
  next : w.settings.minThreshold ≤ w.settings.maxThreshold →
    report.next = max w.settings.minThreshold (min report.live w.settings.maxThreshold)
  allocated : (w'.heap.list (w.domain k).values).allocated = 0

theorem heap_collect (w : World) (k : DomainKey) (roots : List Value) :
    (w.collect k roots).2.heap =
      (w.heap.collect (w.domain k).values (roots ++ w.standingRoots (w.domain k))).2 := rfl

theorem aspect?_collect_of_reaches (sane : w.heap.Consistent) (reached : w.Reaches k roots id) :
    (w.collect k roots).2.heap.aspect? id = w.heap.aspect? id := by
  rw [heap_collect, sane.aspect?_collect_of_reached (reaches_iff.mp reached)]

theorem payload?_collect (sound : w.heap.Sound) (owned : w.heap.owner? id = some (w.domain k).values) :
    (w.collect k roots).2.heap.payload? id = none ↔ ¬ w.Reaches k roots id := by
  constructor
  · intro gone reached
    rw [Heap.owner?_eq] at owned
    obtain ⟨a, seen, owner⟩ := Option.bind_eq_some_iff.mp owned
    have live := sound.live seen (by simp [owner])
    rw [Heap.payload?_eq, aspect?_collect_of_reaches sound.consistent reached, seen,
      Option.bind_some] at gone
    simp [gone] at live
  · intro unreached
    rw [heap_collect, Heap.payload?_eq, sound.consistent.aspect?_collect_of_unreached owned
      (mt reaches_iff.mpr unreached)]
    cases w.heap.aspect? id <;> rfl

/-- A collection frees exactly what the domain does not reach. -/
theorem collect_frees_exactly_unreached {w : World} (possible : w.heap.Possible) (k : DomainKey)
    (roots : List Value) : w.Collected k roots (w.collect k roots).1 (w.collect k roots).2 := by
  have sound := possible.sound
  have consistent := sound.consistent
  have after := consistent.collect (w.domain k).values (roots ++ w.standingRoots (w.domain k))
  refine ⟨fun id => payload?_collect sound, fun id => aspect?_collect_of_reaches consistent, ?_, ?_,
    fun l different => consistent.list_collect_of_ne different, rfl, ?_, rfl, ?_, ?_⟩
  · intro id reached
    have member := consistent.mem_members_collect.mpr (reaches_iff.mp reached)
    refine ⟨List.count_eq_one_of_mem (after.members_nodup _) member, fun l different elsewhere => ?_⟩
    exact different (after.mem_members_unique elsewhere member)
  · exact fun id elsewhere => consistent.getElem?_collect elsewhere
  · exact consistent.size_collect _ _
  · exact fun ordered => Settings.nextThreshold_eq ordered _
  · exact Heap.allocated_collect _ _ _

/-- Two arrays that hold each other, and a text that nobody refers to. -/
def tangledHeap : Heap :=
  let h := ({} : Heap).newList.2
  let h := (h.create (.array []) false false).2.adopt ⟨0⟩ 0
  let h := (h.create (.array [.ref ⟨.array, 0⟩]) false false).2.adopt ⟨0⟩ 1
  let h := (h.create (.string "unused") false false).2.adopt ⟨0⟩ 2
  h.write 0 (.array [.ref ⟨.array, 1⟩])

def tangled : World :=
  { heap := tangledHeap
    domainIds := .empty 1
    domains := #[{ id := .null, name := "", values := ⟨0⟩ }]
    objectIds := .empty 1 }

theorem possible_tangled : tangled.heap.Possible := by
  refine .tail ?_ (.write _ 0 _)
  refine .tail (.tail ?_ (.create _ (.string "unused") false false)) (.adopt (by decide) (by decide))
  refine .tail (.tail ?_ (.create _ (.array [.ref ⟨.array, 0⟩]) false false))
    (.adopt (by decide) (by decide))
  refine .tail (.tail ?_ (.create _ (.array []) false false)) (.adopt (by decide) (by decide))
  exact .single (.newList {})

theorem collect_tangled : tangled.heap.Possible ∧
    (tangled.collect 0 [.ref ⟨.array, 1⟩]).1 = ⟨⟨3, 2, 1⟩, 256⟩ ∧
    tangled.Collected 0 [.ref ⟨.array, 1⟩] (tangled.collect 0 [.ref ⟨.array, 1⟩]).1
      (tangled.collect 0 [.ref ⟨.array, 1⟩]).2 :=
  ⟨possible_tangled, by decide,
    collect_frees_exactly_unreached possible_tangled 0 [.ref ⟨.array, 1⟩]⟩

end World

end Tenancy
