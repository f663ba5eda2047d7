import Tenancy.Proofs.Heap.Drafted
import Tenancy.Proofs.Machine.Lockstep

/-!
What a host does between calls.

A host attaches a thread to a new world. It then creates domains and objects and makes payloads of
its own. Each of these leaves idle states that go together so.
-/

namespace Tenancy

open Heap Nat Thread Array

/-! ### Identities -/

namespace Arena

variable {α : Type} {a : Arena α}

section

variable (unused : a.free = []) (versions : ∀ s ∈ a.slots, s.version = 1)
include unused versions

theorem reserve_fresh :
    a.reserve.1 = a.next ∧ a.reserve.2.process = a.process ∧ a.reserve.2.free = [] ∧
      a.reserve.2.next = a.next + 1 ∧ ∀ s ∈ a.reserve.2.slots, s.version = 1 := by
  have opened : ∀ s ∈ a.slots ++ freshPage, s.version = 1 := by
    intro s listed
    rcases mem_append.mp listed with old | new
    · exact versions s old
    · obtain ⟨-, rfl⟩ := mem_replicate.mp new
      rfl
  unfold reserve
  rw [unused]
  dsimp only
  split
  · exact ⟨rfl, rfl, rfl, rfl, opened⟩
  · exact ⟨rfl, rfl, rfl, rfl, versions⟩

theorem allocate_fresh (v : α) :
    (a.allocate v).1 = .ofParts a.process a.next 1 ∧ (a.allocate v).2.process = a.process ∧
      (a.allocate v).2.free = [] ∧ (a.allocate v).2.next = a.next + 1 ∧
      ∀ s ∈ (a.allocate v).2.slots, s.version = 1 := by
  obtain ⟨index, process, free, next, versions⟩ := reserve_fresh unused versions
  have version : a.reserve.2.versionAt a.reserve.1 = 1 := by
    unfold versionAt
    split
    · rename_i s found
      exact versions s (mem_of_getElem? found)
    · rfl
  refine ⟨?_, process, free, next, fun s listed => ?_⟩
  · show GlobalId.ofParts a.reserve.2.process a.reserve.1 (a.reserve.2.versionAt a.reserve.1) = _
    rw [version, process, index]
  · rcases mem_or_eq_of_mem_setIfInBounds listed with old | rfl
    · exact versions s old
    · exact version

end

end Arena

namespace World

variable {w w1 w2 : World} {S T : ListId} {G : Nat → Prop} {name : String} {k : DomainKey}
  {o : ObjectKey}

/-! ### New domains -/

theorem domain_createDomain_old (valid : k < w.domains.size) :
    (w.createDomain name).2.domain k = w.domain k := by
  rw [domain_createDomain, if_neg valid.ne]

theorem Alike.createDomain (alike : w1.Alike w2)
    (lists : w2.heap.lists.size = w1.heap.lists.size) (name : String) :
    (w1.createDomain name).2.Alike (w2.createDomain name).2 := by
  have created : ∀ w : World, (w.createDomain name).2.skeleton = { w.skeleton with
      domainIds := (w.skeleton.domainIds.allocate w.domains.size).2
      domains := w.skeleton.domains.push
        { id := ⟨(w.skeleton.domainIds.allocate w.domains.size).1⟩, name
          values := ⟨w.heap.lists.size⟩ } } := by
    intro w
    simp [World.createDomain, skeleton, newList, Heap.newList, Domain.skeleton]
  unfold Alike
  rw [created, created, alike.size, lists, alike]

theorem Houses.createDomain (houses : w.Houses k o) (name : String) :
    (w.createDomain name).2.Houses k o where
  domain := by
    rw [size_createDomain]
    exact lt_succ_of_lt houses.domain
  object := houses.object
  home := by
    rw [domain_createDomain_old houses.domain]
    exact houses.home

theorem Orderly.createDomain (orderly : w.Orderly S T)
    (lists : ∀ k < w.domains.size, (w.domain k).values.number < w.heap.lists.size)
    (own : S.number ≠ w.heap.lists.size) (way : T.number ≠ w.heap.lists.size)
    (room : w.domains.size < 0x100000000) (name : String) :
    (w.createDomain name).2.Orderly S T := by
  obtain ⟨id, process, free, next, versions⟩ :=
    Arena.allocate_fresh orderly.unused orderly.versions w.domains.size
  have cases : ∀ {k}, k < (w.createDomain name).2.domains.size →
      k = w.domains.size ∧ ((w.createDomain name).2.domain k).values = ⟨w.heap.lists.size⟩ ∨
      k < w.domains.size ∧ (w.createDomain name).2.domain k = w.domain k := by
    intro k valid
    rw [size_createDomain] at valid
    by_cases new : k = w.domains.size
    · refine .inl ⟨new, ?_⟩
      rw [domain_createDomain, if_pos new]
    · have old : k < w.domains.size := by omega
      exact .inr ⟨old, domain_createDomain_old old⟩
  have fresh : ∀ {l : ListId}, l.number ≠ w.heap.lists.size → ⟨w.heap.lists.size⟩ ≠ l := by
    rintro l old rfl
    exact old rfl
  constructor
  case apart => exact orderly.apart
  case scratch =>
    intro k valid
    rcases cases valid with ⟨-, new⟩ | ⟨old, same⟩
    · rw [new]
      exact fresh own
    · rw [same]
      exact orderly.scratch k old
  case transfer =>
    intro k valid
    rcases cases valid with ⟨-, new⟩ | ⟨old, same⟩
    · rw [new]
      exact fresh way
    · rw [same]
      exact orderly.transfer k old
  case lists =>
    intro j first k second equal
    rcases cases first with ⟨rfl, new⟩ | ⟨old, same⟩ <;>
      rcases cases second with ⟨rfl, new'⟩ | ⟨old', same'⟩
    · rfl
    · rw [new, same'] at equal
      exact absurd equal (fresh (lists k old').ne)
    · rw [new', same] at equal
      exact absurd equal.symm (fresh (lists j old).ne)
    · rw [same, same'] at equal
      exact orderly.lists j old k old' equal
  case few => rw [size_createDomain]; exact room
  case named =>
    intro k valid
    show ((w.createDomain name).2.domain k).id = ⟨.ofParts (w.domainIds.allocate _).2.process k 1⟩
    rw [process]
    rcases cases valid with ⟨rfl, -⟩ | ⟨old, same⟩
    · rw [domain_createDomain, if_pos rfl, id, orderly.next]
    · rw [same]
      exact orderly.named k old
  case unused => exact free
  case next =>
    rw [size_createDomain, ← orderly.next]
    exact next
  case versions => exact versions
  case keys =>
    rw [size_createDomain]
    exact (orderly.keys.mono fun _ valid => lt_succ_of_lt valid).allocate (lt_succ_self _)
  case listed =>
    intro o valid
    obtain ⟨k, houses, id, mem⟩ := orderly.listed o valid
    refine ⟨k, houses.createDomain name, id, ?_⟩
    rw [domain_createDomain_old houses.domain]
    exact mem

theorem Stocked.createDomain (stocked : w.Stocked G) (orderly : w.Orderly S T)
    (later : (w.createDomain name).2.Orderly S T) : (w.createDomain name).2.Stocked G := by
  have keeps : w.heap.Keeps (w.createDomain name).2.heap := (newList_respects S G w.heap).toKeeps
  constructor
  case lists =>
    intro k valid
    rw [size_createDomain] at valid
    by_cases new : k = w.domains.size
    · rw [domain_createDomain, if_pos new]
      simp [World.createDomain, newList, Heap.newList]
    · have old : k < w.domains.size := by omega
      rw [domain_createDomain_old old]
      exact (stocked.lists k old).trans_le keeps.lists
  case storage =>
    intro k o houses v held
    obtain ⟨j, other, -⟩ := orderly.listed o houses.object
    have moved := other.createDomain name
    obtain rfl : j = k := later.ids moved.domain houses.domain (moved.home.symm.trans houses.home)
    unfold fits
    rw [domain_createDomain_old other.domain]
    exact (stocked.storage j o other v held).keep keeps
  case literals =>
    intro o valid v literal
    exact keeps.conveys.lasts v (stocked.literals o valid v literal)
  case defaults =>
    intro f listed v default
    exact keeps.conveys.lasts v (stocked.defaults f listed v default)

/-! ### New objects -/

theorem Alike.newObject (alike : w1.Alike w2) (program : Program) (k : DomainKey) :
    (w1.newObject program k).2.Alike (w2.newObject program k).2 := by
  have created : ∀ w : World, (w.newObject program k).2.skeleton =
      (w.skeleton.newObject program k).2 := by
    intro w
    unfold World.newObject
    rw [domain_skeleton]
    exact skeleton_modifyDomain _ _ (by exact fun _ => rfl)
  unfold Alike
  rw [created, created, alike]

section NewObject

variable {program : Program}

theorem id_newObject (w : World) (program : Program) (k j : DomainKey) :
    ((w.newObject program k).2.domain j).id = (w.domain j).id := (same_newObject w program k j).id

theorem values_newObject (w : World) (program : Program) (k j : DomainKey) :
    ((w.newObject program k).2.domain j).values = (w.domain j).values :=
  (same_newObject w program k j).values

theorem houses_newObject_iff (old : o ≠ w.objects.size) :
    (w.newObject program k).2.Houses j o ↔ w.Houses j o := by
  have same : (w.newObject program k).2.object o = w.object o := by rw [object_newObject, if_neg old]
  have id := id_newObject w program k j
  constructor
  · rintro ⟨domain, object, home⟩
    rw [size_domains_newObject] at domain
    rw [size_objects_newObject] at object
    rw [same, id] at home
    exact ⟨domain, lt_of_le_of_ne (le_of_lt_succ object) old, home⟩
  · rintro ⟨domain, object, home⟩
    refine ⟨?_, ?_, ?_⟩
    · rwa [size_domains_newObject]
    · rw [size_objects_newObject]
      exact lt_succ_of_lt object
    · rwa [same, id]

theorem Orderly.newObject (orderly : w.Orderly S T) (valid : k < w.domains.size) :
    (w.newObject program k).2.Orderly S T := by
  constructor
  case apart => exact orderly.apart
  case scratch =>
    intro j within
    rw [size_domains_newObject] at within
    rw [values_newObject]
    exact orderly.scratch j within
  case transfer =>
    intro j within
    rw [size_domains_newObject] at within
    rw [values_newObject]
    exact orderly.transfer j within
  case lists =>
    intro i first j second
    rw [size_domains_newObject] at first second
    rw [values_newObject, values_newObject]
    exact orderly.lists i first j second
  case few => rw [size_domains_newObject]; exact orderly.few
  case named =>
    intro j within
    rw [size_domains_newObject] at within
    rw [id_newObject]
    exact orderly.named j within
  case unused => exact orderly.unused
  case next => rw [size_domains_newObject]; exact orderly.next
  case versions => exact orderly.versions
  case keys => rw [size_domains_newObject]; exact orderly.keys
  case listed =>
    intro o within
    rw [size_objects_newObject] at within
    by_cases new : o = w.objects.size
    · subst new
      refine ⟨k, ⟨?_, ?_, ?_⟩, ⟨(w.objectIds.allocate w.objects.size).1⟩, ?_⟩
      · rwa [size_domains_newObject]
      · rw [size_objects_newObject]
        exact lt_succ_self _
      · rw [object_newObject, if_pos rfl, id_newObject]
      · rw [domain_newObject, if_pos ⟨rfl, valid⟩]
        simp
    · have old := lt_of_le_of_ne (le_of_lt_succ within) new
      obtain ⟨j, houses, id, mem⟩ := orderly.listed o old
      refine ⟨j, (houses_newObject_iff new).mpr houses, id, ?_⟩
      rw [domain_newObject]
      split
      · exact List.mem_append_left _ mem
      · exact mem

theorem Stocked.newObject (stocked : w.Stocked G)
    (literals : ∀ v ∈ program.literals, w.heap.Lasts G v) :
    (w.newObject program k).2.Stocked G := by
  constructor
  case lists =>
    intro j within
    rw [size_domains_newObject] at within
    rw [values_newObject]
    exact stocked.lists j within
  case storage =>
    intro j o houses v held
    unfold fits
    rw [values_newObject]
    by_cases new : o = w.objects.size
    · rw [object_newObject, if_pos new] at held
      obtain ⟨-, rfl⟩ := mem_replicate.mp held
      exact suits_of_ref? rfl
    · rw [object_newObject, if_neg new] at held
      exact stocked.storage j o ((houses_newObject_iff new).mp houses) v held
  case literals =>
    intro o within v literal
    rw [size_objects_newObject] at within
    rw [object_newObject] at literal
    split at literal
    · exact literals v literal
    · rename_i new
      exact stocked.literals o (lt_of_le_of_ne (le_of_lt_succ within) new) v literal
  case defaults => exact stocked.defaults

theorem Tame.newObject (tame : w.Tame) (functions : program.All Function.Tame) :
    (w.newObject program k).2.Tame where
  objects o within := by
    rw [size_objects_newObject] at within
    rw [object_newObject]
    split
    · exact functions
    · rename_i new
      exact tame.objects o (lt_of_le_of_ne (le_of_lt_succ within) new)
  efuns := tame.efuns

end NewObject

end World

/-! ### Idle states -/

inductive Provision where
  | domain (name : String)
  | object (program : Program) (domain : DomainKey)
  /-- What is here belongs to the host. -/
  | payload (share : Share) (draft : Draft)

def Provision.ownership (scratch : ListId) : Share → Ownership
  | .here => .owned scratch
  | .loose => .loose
  | .exempt e => .exempt e

def Provision.apply (s : State) : Provision → Option Value × State
  | .domain name => (none, { s with world := (s.world.createDomain name).2 })
  | .object program k => (none, { s with world := (s.world.newObject program k).2 })
  | .payload share draft =>
    let (v, heap) := s.world.heap.make (ownership s.thread.scratch share) draft
    (some v, { s with world := { s.world with heap } })

def Provision.values : Provision → List Value
  | .domain _ => []
  | .object program _ => program.literals
  | .payload _ draft => draft.values

/-- The function has no native body but a builtin one. -/
def Function.Plain (f : Function) : Prop :=
  ∀ body, f.body = .native body → ∃ e ∈ Efun.builtins, e.1 = body

theorem Function.Plain.tame {f : Function} (plain : f.Plain) : f.Tame := by
  intro body isNative
  obtain ⟨e, listed, rfl⟩ := plain body isNative
  exact Efun.builtins_tame e listed

/-- Domains have identities of their own while there are fewer than identities tell apart. Programs
are byte code, and what they have built in is deeply constant. -/
def Provision.Allowed (s : State) : Provision → Prop
  | .domain _ => s.world.domains.size < 0x100000000
  | .object program k => k < s.world.domains.size ∧ program.All Function.Plain ∧
      ∀ v ∈ program.literals, s.world.heap.Steady v
  | .payload _ _ => True

namespace State

variable {S T : ListId} {G : Nat → Prop} {s1 s2 : State}

theorem Pair.withWorld (pair : s1.Pair S T G s2) (alike : w1.Alike w2)
    (heap : w1.heap.Twin S G w2.heap) (orderly : w1.Orderly S T) (stocked : w1.Stocked G)
    (tame : w1.Tame) (keeps : s1.world.heap.Keeps w1.heap) (deed : s1.world.Deed Function.Tame w1) :
    Pair S T G { s1 with world := w1 } { s2 with world := w2 } := by
  have crewed := pair.crewed
  have empty : s1.thread.frames = [] ∧ s1.thread.stack.size = 0 ∧
      ∃ c : DomainContext, s1.thread.domains = [c] ∧ c.start = 0 := by
    unfold Crewed at crewed
    generalize s1.thread.frames = frames at crewed
    generalize s1.thread.domains = domains at crewed
    cases crewed with
    | host start empty => exact ⟨rfl, empty, _, rfl, start⟩
  obtain ⟨frames, size0, c, domains, start⟩ := empty
  have size := (deed.kept pair.idle.resting.regular.sound.world).2.2
  refine ⟨⟨pair.twin.thread, pair.twin.scratch, pair.twin.transfer, alike, heap, orderly, stocked,
    tame, pair.twin.ownList.trans_le keeps.lists,
    pair.twin.wayList.trans_le keeps.lists, pair.twin.home.trans_le size, ?_⟩, ?_,
    pair.idle.deed deed⟩
  · show Tiled _ s1.thread.stack s1.thread.domains s1.thread.stack.size
    rw [domains, size0]
    exact ⟨start.le, fun i v _ high => absurd high (not_lt_zero i), trivial⟩
  · show Staffed _ _ s1.thread.frames s1.thread.domains s1.thread.stack.size
    rw [frames, domains, size0]
    exact .host start rfl rfl

theorem Pair.createDomain (pair : s1.Pair S T G s2) (room : s1.world.domains.size < 0x100000000)
    (name : String) :
    Pair S T G { s1 with world := (s1.world.createDomain name).2 }
      { s2 with world := (s2.world.createDomain name).2 } := by
  have twin := pair.twin
  have orderly := twin.orderly.createDomain twin.stocked.lists twin.ownList.ne
    twin.wayList.ne room name
  exact pair.withWorld (twin.alike.createDomain twin.heap.lists name) twin.heap.newList orderly
    (twin.stocked.createDomain twin.orderly orderly) ⟨twin.tame.objects, twin.tame.efuns⟩
    (newList_respects S G _).toKeeps (.createDomain name)

theorem Pair.newObject (pair : s1.Pair S T G s2) {program : Program}
    (valid : k < s1.world.domains.size) (functions : program.All Function.Plain)
    (literals : ∀ v ∈ program.literals, s1.world.heap.Lasts G v) :
    Pair S T G { s1 with world := (s1.world.newObject program k).2 }
      { s2 with world := (s2.world.newObject program k).2 } := by
  have twin := pair.twin
  have tame : program.All Function.Tame := fun q component f listed =>
    (functions q component f listed).tame
  exact pair.withWorld (twin.alike.newObject program k) twin.heap (twin.orderly.newObject valid)
    (twin.stocked.newObject literals) (twin.tame.newObject tame) (.refl _) (.newObject tame k)

theorem outer_ownership (scratch : ListId) (share : Share) :
    (Provision.ownership scratch share).Outer scratch := by
  intro l owned
  cases share <;> cases owned
  rfl

theorem Pair.make (pair : s1.Pair S T G s2) (avoids : ∀ v ∈ draft.values, v.Avoids G) : Pair S T G
      { s1 with world :=
        { s1.world with heap := (s1.world.heap.make (Provision.ownership S share) draft).2 } }
      { s2 with world :=
        { s2.world with heap := (s2.world.heap.make (Provision.ownership S share) draft).2 } } := by
  have twin := pair.twin
  have outer := outer_ownership S share
  obtain ⟨-, heap, keeps⟩ := twin.heap.make twin.ownList outer avoids
  have changes := make_changes twin.heap.first (fun l owned => outer l owned ▸ twin.ownList) draft
  exact pair.withWorld twin.alike heap (twin.orderly.firm (.withHeap _ _))
    (twin.stocked.keep (.withHeap _ _) (fun _ => rfl) keeps) (twin.tame.firm (.withHeap _ _)) keeps
    (.heap changes)

/-- States that go together still do after the same provision, and the same was made. -/
theorem Pair.provide (pair : s1.Pair S T G s2) {p : Provision} (allowed : p.Allowed s1)
    (avoids : ∀ v ∈ p.values, v.Avoids G) :
    (p.apply s2).1 = (p.apply s1).1 ∧ (p.apply s1).2.Pair S T G (p.apply s2).2 := by
  obtain ⟨w2, t2⟩ := s2
  obtain rfl : t2 = s1.thread := pair.twin.thread
  have twin := pair.twin
  cases p with
  | domain name => exact ⟨rfl, pair.createDomain allowed name⟩
  | object program k =>
    obtain ⟨valid, functions, steady⟩ := allowed
    exact ⟨rfl, pair.newObject valid functions fun v listed => ⟨steady v listed, avoids v listed⟩⟩
  | payload share draft =>
    unfold Provision.apply
    rw [twin.scratch]
    obtain ⟨same, -, -⟩ := twin.heap.make twin.ownList (outer_ownership S share) avoids
    exact ⟨congrArg some same, pair.make avoids⟩

theorem Pair.provide_outside (pair : s1.Pair S T G s2) {p : Provision}
    (avoids : ∀ v ∈ p.values, v.Avoids G) (outside : ∀ v ∈ p.values, s1.world.heap.Outside S v) :
    s1.world.heap.Respects S G (p.apply s1).2.world.heap ∧ ∀ v, (p.apply s1).1 = some v →
      (p.apply s1).2.world.heap.Outside S v ∧ v.Avoids G := by
  cases p with
  | domain name => exact ⟨newList_respects S G _, nofun⟩
  | object program k => exact ⟨.refl S G _, nofun⟩
  | payload share draft =>
    unfold Provision.apply
    rw [pair.twin.scratch]
    obtain ⟨respects, made⟩ := pair.twin.heap.make_outside (outer_ownership S share) avoids outside
    refine ⟨respects, ?_⟩
    rintro v ⟨⟩
    exact made

end State

/-! ### New worlds -/

/-- A world before anything has happened in it, with builtin efuns only. -/
structure World.Fresh (w : World) : Prop where
  blank : w.Blank Function.Plain
  defaults : ∀ f ∈ w.efuns.functions, ∀ v ∈ f.defaults, w.heap.Steady v
  /-- Containers hold nothing that is not there. -/
  closed : ∀ id r, w.heap.Holds id (.ref r) → r.id < w.heap.cells.size

/-- Nothing is owned yet, so a heap without lists is its own twin. -/
theorem Heap.twin_of_lists {h : Heap} (sound : h.Sound) (empty : h.lists = #[]) (S : ListId) :
    h.Twin S (fun _ => False) h where
  first := sound
  second := sound
  cells := rfl
  lists := rfl
  within _ listed := listed.elim
  agree _ _ := rfl
  closed _ _ _ _ _ _ := id
  inside id l v _ owned _ _ := by
    obtain ⟨b, bound, -⟩ := Option.map_eq_some_iff.mp owned
    have valid := sound.consistent.list_valid bound
    simp [empty] at valid
  apart _ listed := listed.elim

namespace World

variable {w : World} {S T : ListId}

theorem Blank.orderly (blank : w.Blank P) (apart : T ≠ S) : w.Orderly S T where
  apart := apart
  scratch k valid := by simp [blank.domains] at valid
  transfer k valid := by simp [blank.domains] at valid
  lists j first := by simp [blank.domains] at first
  few := by simp [blank.domains]
  named k valid := by simp [blank.domains] at valid
  unused := by rw [blank.domainIds]; rfl
  next := by rw [blank.domainIds, blank.domains]; rfl
  versions s listed := by simp [blank.domainIds, Arena.empty] at listed
  keys s listed := by simp [blank.domainIds, Arena.empty] at listed
  listed o valid := by simp [blank.objects] at valid

theorem Fresh.stocked (fresh : w.Fresh) : w.Stocked (fun _ => False) where
  lists k valid := by simp [fresh.blank.domains] at valid
  storage k o houses := by
    have valid := houses.object
    simp [fresh.blank.objects] at valid
  literals o valid := by simp [fresh.blank.objects] at valid
  defaults f listed v default := ⟨fresh.defaults f listed v default, fun _ _ => id⟩

theorem Fresh.tame (fresh : w.Fresh) : w.Tame where
  objects o valid := by simp [fresh.blank.objects] at valid
  efuns f listed := (fresh.blank.efuns f listed).tame

theorem Firm.newKey (w : World) : w.Firm w.newKey.2 := { Firm.refl w with }

theorem Firm.newList (w : World) : w.Firm w.newList.2 := .withHeap w _

theorem Firm.hold (w : World) (k : DomainKey) (key : ThreadKey) : w.Firm (w.hold k key) :=
  .modifyDomain w k fun _ => ⟨rfl, rfl, rfl⟩

/-- A world with a home for its first thread, and the lists of that thread. -/
def settled (w : World) (name : String) (key : ThreadKey) : World :=
  ((w.newKey.2.createDomain name).2.newList.2.newList.2).hold 0 key

section Settled

variable {w1 w2 : World} (fresh : w1.Fresh) (name : String) (key : ThreadKey)

include fresh

theorem Fresh.domains_settled : (w1.settled name key).domains.size = 1 := by
  rw [settled, (Firm.hold _ 0 key).domains, (Firm.newList _).domains, (Firm.newList _).domains,
    size_createDomain, (Firm.newKey _).domains, fresh.blank.domains]
  rfl

theorem Fresh.orderly_created : (w1.newKey.2.createDomain name).2.Orderly ⟨1⟩ ⟨2⟩ := by
  have lists : w1.newKey.2.heap.lists.size = 0 := by
    show w1.heap.lists.size = 0
    rw [fresh.blank.lists]
    rfl
  refine ((fresh.blank.orderly (by decide)).firm (.newKey w1)).createDomain ?_ ?_ ?_ ?_ name
  · intro k valid
    rw [(Firm.newKey w1).domains, fresh.blank.domains] at valid
    simp at valid
  · simp [lists]
  · simp [lists]
  · rw [(Firm.newKey w1).domains, fresh.blank.domains]
    simp

theorem Fresh.stocked_settled : (w1.settled name key).Stocked (fun _ => False) := by
  have keyed := fresh.stocked.keep (.newKey w1) (fun _ => rfl) (.refl _)
  have created := keyed.createDomain ((fresh.blank.orderly (by decide)).firm (.newKey w1))
    (fresh.orderly_created name)
  have lists : ∀ w : World, w.heap.Keeps w.newList.2.heap := fun w =>
    (newList_respects ⟨1⟩ (fun _ => False) w.heap).toKeeps
  exact ((created.keep (.newList _) (fun _ => rfl) (lists _)).keep (.newList _) (fun _ => rfl)
    (lists _)).keep (.hold _ 0 key) (fun _ => rfl) (.refl _)

theorem Fresh.tame_settled : (w1.settled name key).Tame :=
  ⟨fresh.tame.objects, fresh.tame.efuns⟩

theorem Fresh.twin_settled (heap : w2.heap = w1.heap) :
    (w1.settled name key).heap.Twin ⟨1⟩ (fun _ => False) (w2.settled name key).heap := by
  have twin := (twin_of_lists fresh.blank.heap.sound fresh.blank.lists ⟨1⟩).newList.newList.newList
  show Twin ⟨1⟩ _ w1.heap.newList.2.newList.2.newList.2 w2.heap.newList.2.newList.2.newList.2
  rw [heap]
  exact twin

end Settled

theorem Alike.settled {w1 w2 : World} (alike : w1.Alike w2) (heap : w2.heap = w1.heap)
    (name : String) (key : ThreadKey) : (w1.settled name key).Alike (w2.settled name key) := by
  have keyed : w1.newKey.2.Alike w2.newKey.2 :=
    (congrArg (fun w => { w with threads := w.threads + 1 }) alike :)
  have created := keyed.createDomain (congrArg (·.lists.size) heap) name
  have listed : (w1.newKey.2.createDomain name).2.newList.2.newList.2.Alike
    (w2.newKey.2.createDomain name).2.newList.2.newList.2 := created
  exact listed.modifyDomain 0 fun _ => rfl

end World

def World.homeName (w : World) : String := s!"home of {w.newKey.1.text}"

theorem Thread.attach_settled (blank : w.Blank Function.Plain)
    (attached : attach w = .ok (t, w')) :
    t = { key := w.newKey.1, domains := [⟨0, 0, 0⟩], scratch := ⟨1⟩, transfer := ⟨2⟩, home := 0 } ∧
      w' = w.settled w.homeName w.newKey.1 := by
  obtain ⟨thread, world⟩ := attach_eq attached
  have home : (w.newKey.2.createDomain w.homeName).1 = 0 := by
    show w.domains.size = 0
    rw [blank.domains]
    rfl
  have scratch : (w.newKey.2.createDomain w.homeName).2.newList.1 = ⟨1⟩ := by
    simp [World.createDomain, World.newList, newList, World.newKey, blank.lists]
  have transfer : (w.newKey.2.createDomain w.homeName).2.newList.2.newList.1 = ⟨2⟩ := by
    simp [World.createDomain, World.newList, newList, World.newKey, blank.lists]
  unfold World.homeName at home scratch transfer
  rw [home, scratch, transfer] at thread
  rw [home] at world
  exact ⟨thread, world⟩

/-- Threads attached to new worlds that differ at most in their thresholds go together. -/
theorem World.Fresh.pair {w1 w2 : World} (fresh : w1.Fresh) (other : w2.Fresh)
    (alike : w1.Alike w2) (heap : w2.heap = w1.heap) {s1 s2 : State}
    (first : attach w1 = .ok (s1.thread, s1.world))
    (second : attach w2 = .ok (s2.thread, s2.world)) : s1.Pair ⟨1⟩ ⟨2⟩ (fun _ => False) s2 := by
  have key : w2.newKey.1 = w1.newKey.1 := (congrArg (·.newKey.1) alike :)
  have name : w2.homeName = w1.homeName := (congrArg World.homeName alike :)
  have idle : s1.Idle Function.Tame :=
    State.Attached.idle ⟨w1, fresh.blank.mono fun _ => Function.Plain.tame, first⟩
  obtain ⟨thread1, world1⟩ := attach_settled fresh.blank first
  obtain ⟨thread2, world2⟩ := attach_settled other.blank second
  obtain ⟨w, t⟩ := s1
  obtain ⟨w', t'⟩ := s2
  subst thread1 thread2 world1 world2
  rw [key, name]
  have size := fresh.domains_settled w1.homeName w1.newKey.1
  have lists : w1.heap.newList.2.newList.2.newList.2.lists.size = 3 := by
    simp [Heap.newList, fresh.blank.lists]
  refine ⟨⟨rfl, rfl, rfl, alike.settled heap _ _, fresh.twin_settled _ _ heap,
    (((fresh.orderly_created _).firm (.newList _)).firm (.newList _)).firm (.hold _ 0 _),
    fresh.stocked_settled _ _, fresh.tame_settled _ _, ?_, ?_, ?_, ?_⟩,
    .host rfl rfl rfl, idle⟩
  · exact lt_of_lt_of_eq (by decide : 1 < 3) lists.symm
  · exact lt_of_lt_of_eq (by decide : 2 < 3) lists.symm
  · show 0 < _
    rw [size]
    decide
  · exact ⟨le_refl 0, fun i v _ high => absurd high (not_lt_zero i), trivial⟩

end Tenancy
