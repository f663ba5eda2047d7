import Tenancy.Proofs.Heap.Change
import Tenancy.World

/-!
Sound worlds.

In a sound world the heap is sound, domains own lists that exist, identities of domains lead to
domains, objects have a slot for each variable of their program, and all functions have some property
`P`. What code and natives do to a world keeps it sound; it leaves identity, list and parked windows of
every domain alone, and objects keep their programs.
-/

namespace Tenancy

open World Array

def Program.All (P : Function → Prop) (p : Program) : Prop :=
  ∀ q ∈ p.components, ∀ f ∈ q.functions, P f

theorem Program.All.mono {p : Program} (all : p.All P) (weaker : ∀ f, P f → Q f) : p.All Q :=
  fun q component f listed => weaker f (all q component f listed)

namespace Arena

variable {α : Type} {a : Arena α} {p : α → Prop}

def All (p : α → Prop) (a : Arena α) : Prop := ∀ s ∈ a.slots, ∀ v, s.value = some v → p v

section

variable (all : a.All p)
include all

theorem All.get? {id : GlobalId} {v : α} (found : a.get? id = some v) : p v := by
  unfold Arena.get? at found
  split at found
  · rename_i s stored
    split at found
    · exact all s (mem_of_getElem? stored) v found
    · simp at found
  · simp at found

theorem All.set (index : Nat) (fits : ∀ v, s.value = some v → p v) :
    All p { a with slots := a.slots.setIfInBounds index s } := by
  intro slot stored v held
  rcases mem_or_eq_of_mem_setIfInBounds stored with old | rfl
  · exact all slot old v held
  · exact fits v held

theorem All.mono (weaker : ∀ v, p v → q v) : a.All q :=
  fun s stored v held => weaker v (all s stored v held)

theorem All.reserve : a.reserve.2.All p := by
  unfold Arena.reserve
  split
  · exact all
  · split
    · intro s stored v held
      rcases mem_append.mp stored with old | fresh
      · exact all s old v held
      · simp only [freshPage, mem_replicate] at fresh
        simp [fresh.2] at held
    · exact all

theorem All.allocate (fits : p v) : (a.allocate v).2.All p :=
  all.reserve.set _ fun _ same => Option.some.inj same ▸ fits

end

end Arena

/-- Domains that differ in nothing that threads rely on. -/
structure Domain.Same (d d' : Domain) : Prop where
  id : d'.id = d.id
  values : d'.values = d.values
  parked : d'.parked = d.parked
  holder : d'.holder = d.holder

theorem Domain.Same.refl (d : Domain) : d.Same d := ⟨rfl, rfl, rfl, rfl⟩

namespace World

variable {P : Function → Prop} {w w' : World} {id : DomainId}

theorem domain_modifyDomain (w : World) (k j : DomainKey) (f : Domain → Domain) :
    (w.modifyDomain k f).domain j =
      if k = j ∧ j < w.domains.size then f (w.domain j) else w.domain j := by
  unfold domain modifyDomain
  rw [getElem?_modify]
  by_cases same : k = j
  · by_cases within : j < w.domains.size
    · simp [same, within]
    · simp [same, within]
  · simp [same]

@[simp] theorem size_domains_modifyDomain (w : World) (k : DomainKey) (f : Domain → Domain) :
    (w.modifyDomain k f).domains.size = w.domains.size := by simp [modifyDomain]

theorem same_modifyDomain (domains : w'.domains = w.domains) (same : ∀ d : Domain, d.Same (f d))
    (k j : DomainKey) : (w.domain j).Same ((w'.modifyDomain k f).domain j) := by
  have unmodified : w'.domain j = w.domain j := by simp [domain, domains]
  rw [domain_modifyDomain, unmodified]
  split
  · exact same _
  · exact .refl _

structure Sound (P : Function → Prop) (w : World) : Prop where
  heap : w.heap.Sound
  lists : ∀ k < w.domains.size, (w.domain k).values.number < w.heap.lists.size
  keys : w.domainIds.All (· < w.domains.size)
  linked : ∀ p ∈ w.registry.linked, p.All P
  objects : ∀ o ∈ w.objects, o.program.All P
  storage : ∀ o ∈ w.objects, o.members.size = o.program.size
  efuns : ∀ f ∈ w.efuns.functions, P f

section

variable (sound : w.Sound P)
include sound

theorem Sound.findDomain? {k : DomainKey} (found : w.findDomain? id = some k) :
    k < w.domains.size := sound.keys.get? found

theorem Sound.object (k : ObjectKey) : (w.object k).program.All P := by
  unfold World.object
  cases found : w.objects[k]? with
  | none =>
    intro q component f listed
    obtain rfl : q = default := List.mem_singleton.mp component
    exact absurd listed List.not_mem_nil
  | some o => exact sound.objects o (mem_of_getElem? found)

theorem Sound.size_members (k : ObjectKey) :
    (w.object k).members.size = (w.object k).program.size := by
  unfold World.object
  cases found : w.objects[k]? with
  | none => rfl
  | some o => exact sound.storage o (mem_of_getElem? found)

theorem Sound.withHeap {heap : Heap} (changes : w.heap.Changes heap) : Sound P { w with heap } :=
  { sound with
    heap := changes.sound sound.heap
    lists := fun k within =>
      (sound.lists k within).trans_le (changes.size_le sound.heap).2 }

theorem Sound.modifyDomain (k : DomainKey)
    (values : ∀ d, (f d).values = d.values) : (w.modifyDomain k f).Sound P :=
  { sound with
    lists := by
      intro j within
      rw [size_domains_modifyDomain] at within
      rw [domain_modifyDomain]
      split
      · rw [values]
        exact sound.lists j within
      · exact sound.lists j within
    keys := by
      rw [size_domains_modifyDomain]
      exact sound.keys }

end

theorem mem_modifyObject
    (stored : o ∈ (w.modifyObject k f).objects) : o ∈ w.objects ∨ ∃ o' ∈ w.objects, o = f o' := by
  obtain ⟨i, found⟩ := mem_iff_getElem?.mp stored
  unfold modifyObject at found
  rw [getElem?_modify] at found
  split at found
  · obtain ⟨o', before, rfl⟩ := Option.map_eq_some_iff.mp found
    exact .inr ⟨o', mem_of_getElem? before, rfl⟩
  · exact .inl (mem_of_getElem? found)

theorem Sound.modifyObject (sound : w.Sound P) (k : ObjectKey)
    (program : ∀ o, (f o).program = o.program) (size : ∀ o, (f o).members.size = o.members.size) :
    (w.modifyObject k f).Sound P :=
  { sound with
    objects := by
      intro o stored
      rcases mem_modifyObject stored with before | ⟨o', before, rfl⟩
      · exact sound.objects o before
      · rw [program]
        exact sound.objects o' before
    storage := by
      intro o stored
      rcases mem_modifyObject stored with before | ⟨o', before, rfl⟩
      · exact sound.storage o before
      · rw [size, program]
        exact sound.storage o' before }

theorem Sound.newObject (sound : w.Sound P) (all : program.All P)
    (k : DomainKey) : (w.newObject program k).2.Sound P := by
  refine Sound.modifyDomain ?_ k fun _ => rfl
  exact { sound with
    objects := fun o stored => by
      rcases mem_push.mp stored with old | rfl
      · exact sound.objects o old
      · exact all
    storage := fun o stored => by
      rcases mem_push.mp stored with old | rfl
      · exact sound.storage o old
      · exact size_replicate }

theorem same_newObject (w : World) (program : Program) (k j : DomainKey) :
    (w.domain j).Same ((w.newObject program k).2.domain j) := by
  refine same_modifyDomain rfl ?_ k j
  exact fun _ => ⟨rfl, rfl, rfl, rfl⟩

@[simp] theorem size_domains_newObject (w : World) (program : Program) (k : DomainKey) :
    (w.newObject program k).2.domains.size = w.domains.size := size_domains_modifyDomain _ k _

theorem Sound.destruct (sound : w.Sound P) (id : ObjectId) : (w.destruct id).2.Sound P := by
  unfold World.destruct
  split
  · exact sound
  · rename_i objectIds _
    have retired : Sound P { w with objectIds } := { sound with }
    dsimp only
    split
    · exact retired
    · split
      · exact retired
      · exact retired.modifyDomain _ fun _ => rfl

theorem same_destruct (w : World) (id : ObjectId) (j : DomainKey) :
    (w.domain j).Same ((w.destruct id).2.domain j) := by
  unfold destruct
  split
  · exact .refl _
  · dsimp only
    split
    · exact .refl _
    · split
      · exact .refl _
      · refine same_modifyDomain rfl ?_ _ j
        exact fun _ => ⟨rfl, rfl, rfl, rfl⟩

@[simp] theorem size_domains_destruct (w : World) (id : ObjectId) :
    (w.destruct id).2.domains.size = w.domains.size := by
  unfold destruct
  split
  · rfl
  · dsimp only
    split
    · rfl
    · split
      · rfl
      · exact size_domains_modifyDomain _ _ _

theorem destruct_eq (w : World) (id : ObjectId) :
    ∃ objectIds domains, (w.destruct id).2 = { w with objectIds, domains } := by
  unfold destruct
  split
  · exact ⟨_, _, rfl⟩
  · dsimp only
    split
    · exact ⟨_, _, rfl⟩
    · split <;> exact ⟨_, _, rfl⟩

@[simp] theorem heap_destruct (w : World) (id : ObjectId) : (w.destruct id).2.heap = w.heap := by
  obtain ⟨_, _, same⟩ := destruct_eq w id
  rw [same]

theorem settings_destruct (w : World) (id : ObjectId) :
    (w.destruct id).2.settings = w.settings := by
  obtain ⟨_, _, same⟩ := destruct_eq w id
  rw [same]

theorem threads_destruct (w : World) (id : ObjectId) : (w.destruct id).2.threads = w.threads := by
  obtain ⟨_, _, same⟩ := destruct_eq w id
  rw [same]

/-- Destroying a domain frees its values, and its identity leads nowhere. -/
theorem destroyDomain_cases (destroyed : w.destroyDomain id = .ok w') :
    w' = w ∨ ∃ k, w.findDomain? id = some k ∧ w' = { w with
      domainIds := (w.domainIds.release id.global).2
      heap := w.heap.freeAll (w.domain k).values } := by
  unfold destroyDomain at destroyed
  split at destroyed
  · exact .inl (Except.ok.inj destroyed).symm
  · rename_i k found
    dsimp only at destroyed
    split at destroyed
    · exact .inr ⟨k, found, (Except.ok.inj destroyed).symm⟩
    · simp at destroyed

theorem Sound.destroyDomain (sound : w.Sound P) (destroyed : w.destroyDomain id = .ok w') :
    w'.Sound P := by
  rcases destroyDomain_cases destroyed with rfl | ⟨k, -, rfl⟩
  · exact sound
  · refine { sound.withHeap (.single (.freeAll _ _)) with keys := ?_ }
    show (w.domainIds.release id.global).2.All _
    unfold Arena.release
    split
    · exact sound.keys
    · exact sound.keys.set _ (by simp)

theorem Sound.newList (sound : w.Sound P) : w.newList.2.Sound P :=
  sound.withHeap (.single (.newList w.heap))

theorem domain_createDomain (w : World) (name : String) (j : DomainKey) :
    (w.createDomain name).2.domain j = if j = w.domains.size then
      { id := ⟨(w.domainIds.allocate w.domains.size).1⟩, name, values := ⟨w.heap.lists.size⟩,
        threshold := w.settings.firstThreshold }
    else w.domain j := by
  unfold createDomain domain newList Heap.newList
  rw [getElem?_push]
  split <;> rfl

theorem size_createDomain (w : World) (name : String) :
    (w.createDomain name).2.domains.size = w.domains.size + 1 := by
  simp [createDomain, newList]

theorem Sound.createDomain (sound : w.Sound P) (name : String) :
    (w.createDomain name).2.Sound P := by
  have listed := sound.newList
  have allocated : (w.domainIds.allocate w.domains.size).2.All (· < w.domains.size + 1) :=
    Arena.All.allocate (sound.keys.mono fun _ => Nat.lt_succ_of_lt) (Nat.lt_succ_self _)
  exact { listed with
    lists := fun k within => by
      show (((w.domains.push _)[k]?).getD default).values.number < w.heap.newList.2.lists.size
      rw [getElem?_push]
      split
      · simp [Heap.newList]
      · rename_i ne
        have old : k < w.domains.size := by
          have bound : k < w.domains.size + 1 := by
            simpa [World.createDomain, World.newList] using within
          omega
        exact listed.lists k old
    keys := by simpa [World.createDomain, World.newList] using allocated }

theorem Sound.setMember (sound : w.Sound P) (id : ObjectId) (slot : Nat) (v : Value) :
    (w.setMember id slot v).2.Sound P := by
  unfold World.setMember
  split
  · exact sound
  · exact sound.modifyObject _ (fun _ => rfl) fun _ => size_setIfInBounds

theorem Sound.collect (sound : w.Sound P) (k : DomainKey) (roots : List Value) :
    (w.collect k roots).2.Sound P :=
  (sound.withHeap (.single (.collect _ _ _))).modifyDomain k fun _ => rfl

structure Retains (w w' : World) : Prop where
  objects : w.objects.size ≤ w'.objects.size
  program : ∀ k < w.objects.size, (w'.object k).program = (w.object k).program

namespace Retains

theorem of_eq (same : w'.objects = w.objects) : w.Retains w' :=
  ⟨(congrArg size same.symm).le, fun k _ => by rw [object, object, same]⟩

theorem refl (w : World) : w.Retains w := of_eq rfl

theorem trans (first : w.Retains w') (second : w'.Retains w'') : w.Retains w'' where
  objects := first.objects.trans second.objects
  program k within :=
    (second.program k (within.trans_le first.objects)).trans (first.program k within)

theorem modifyObject (w : World) (k : ObjectKey)
    (program : ∀ o, (f o).program = o.program) : w.Retains (w.modifyObject k f) where
  objects := by simp [World.modifyObject]
  program j within := by
    unfold object World.modifyObject
    rw [getElem?_modify, getElem?_eq_getElem within]
    split
    · exact program _
    · rfl

theorem newObject (w : World) (program : Program) (k : DomainKey) :
    w.Retains (w.newObject program k).2 where
  objects := by simp [World.newObject, World.modifyDomain]
  program j within := by
    simp [object, World.newObject, World.modifyDomain, getElem?_push, within.ne]

theorem setMember (w : World) (id : ObjectId) (slot : Nat) (v : Value) :
    w.Retains (w.setMember id slot v).2 := by
  unfold World.setMember
  split
  · exact refl w
  · exact modifyObject w _ fun _ => rfl

theorem destruct (w : World) (id : ObjectId) : w.Retains (w.destruct id).2 := by
  obtain ⟨_, _, same⟩ := destruct_eq w id
  rw [same]
  exact of_eq rfl

end Retains

theorem same_collect (w : World) (k : DomainKey) (roots : List Value) (j : DomainKey) :
    (w.domain j).Same ((w.collect k roots).2.domain j) := by
  refine same_modifyDomain rfl ?_ k j
  exact fun _ => ⟨rfl, rfl, rfl, rfl⟩

end World

end Tenancy
