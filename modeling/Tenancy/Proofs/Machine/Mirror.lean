import Tenancy.Proofs.Collection
import Tenancy.Proofs.Machine.Paired
import Tenancy.Proofs.Program.Composition

/-!
Instructions of a component in two objects.

One object is composed of a program, the other one is made from that program alone. Code of the
program runs on either of them: component numbers and the places of variables differ, while the
variables hold the same values. What an instruction does on one object it does on the other, and
variables of other components stay as they are.
-/

namespace Tenancy

open Array

/-! ### Heaps that differ in slots only -/

namespace Heap

variable {h1 h2 h1' h2' : Heap} {l : ListId} {v : Value} {id : Nat}

/-- Heaps with the same payloads in the same lists, and the same count of allocations. -/
structure Matches (h1 h2 : Heap) : Prop extends Agree (fun _ => False) h1 h2 where
  first : h1.Sound
  second : h2.Sound
  lists : h2.lists.size = h1.lists.size
  allocated : ∀ l, (h2.list l).allocated = (h1.list l).allocated

theorem allocated_place (h : Heap) (l other : ListId) (payload : Payload) :
    ((h.place l payload).2.list other).allocated =
      (h.list other).allocated + if other = l ∧ l.number < h.lists.size then 1 else 0 := by
  have placed : (h.place l payload).2.lists = (h.modifyList l (·.insert h.cells.size)).lists := by
    simp [place, create, adopt, occupy, unowned, binding?, Cell.unowned, modifyCell, modifyList]
  have listed : (h.place l payload).2.list other =
      (h.modifyList l (·.insert h.cells.size)).list other := by
    unfold list
    rw [placed]
  rw [listed]
  by_cases same : other = l
  · subst same
    by_cases valid : other.number < h.lists.size
    · rw [list_modifyList valid, if_pos ⟨rfl, valid⟩, ValueList.insert]
      split <;> rfl
    · rw [modifyList_of_missing valid, if_neg fun both => valid both.2, Nat.add_zero]
  · rw [list_modifyList_of_ne same, if_neg fun both => same both.1, Nat.add_zero]

namespace Matches

theorem refl {h : Heap} (sound : h.Sound) : h.Matches h :=
  ⟨⟨rfl, fun _ _ => rfl⟩, sound, sound, rfl, fun _ => rfl⟩

theorem aspect?_eq (matching : h1.Matches h2) (id : Nat) : h2.aspect? id = h1.aspect? id :=
  matching.agree id not_false

theorem mapped {f : Nat → Aspect → Aspect} (matching : h1.Matches h2) (first : h1'.Sound)
    (second : h2'.Sound) (seen : ∀ i, h1'.aspect? i = (h1.aspect? i).map (f i))
    (seenToo : ∀ i, h2'.aspect? i = (h2.aspect? i).map (f i)) (lists : h1'.lists = h1.lists)
    (listsToo : h2'.lists = h2.lists) : h1'.Matches h2' where
  cells := by rw [size_eq_of_mapped seen, size_eq_of_mapped seenToo, matching.cells]
  agree id kept := by rw [seen, seenToo, matching.agree id kept]
  first := first
  second := second
  lists := by rw [lists, listsToo, matching.lists]
  allocated l := by
    have same := matching.allocated l
    unfold list at *
    rwa [lists, listsToo]

section

variable (matching : h1.Matches h2)
include matching

theorem write (id : Nat) (payload : Payload) :
    (h1.write id payload).Matches (h2.write id payload) :=
  matching.mapped ((Change.write h1 id payload).sound matching.first)
    ((Change.write h2 id payload).sound matching.second) (aspect?_write h1 id payload)
    (aspect?_write h2 id payload) rfl rfl

theorem note (v : Value) : (h1.note v).Matches (h2.note v) := by
  have seenToo := aspect?_note h2 v
  rw [matching.digest_eq fun _ _ => not_false] at seenToo
  exact matching.mapped ((Change.note h1 v).sound matching.first)
    ((Change.note h2 v).sound matching.second) (aspect?_note h1 v) seenToo (lists_note h1 v)
    (lists_note h2 v)

theorem forgetDigest (id : Nat) : (h1.forgetDigest id).Matches (h2.forgetDigest id) :=
  matching.mapped ((Change.forgetDigest h1 id).sound matching.first)
    ((Change.forgetDigest h2 id).sound matching.second) (aspect?_forgetDigest h1 id)
    (aspect?_forgetDigest h2 id) rfl rfl

theorem place (valid : l.number < h1.lists.size) (payload : Payload) :
    (h1.place l payload).2.Matches (h2.place l payload).2 := by
  have more := extended_place h1 l payload
  have moreToo := extended_place h2 l payload
  have validToo : l.number < h2.lists.size := matching.lists ▸ valid
  constructor
  · constructor
    · rw [more.cells, moreToo.cells, matching.cells]
    · intro id _
      rw [more.seen, moreToo.seen, matching.cells, matching.aspect?_eq]
  · exact Changes.sound (place_changes valid payload) matching.first
  · exact Changes.sound (place_changes validToo payload) matching.second
  · rw [more.lists, moreToo.lists, matching.lists]
  · intro other
    rw [allocated_place, allocated_place, matching.allocated, matching.lists]

end

end Matches

def matching (l : ListId) : Kinship (fun _ => False) l where
  Related := Matches
  Leads h h' := h'.lists.size = h.lists.size
  refl _ := rfl
  trans first second := second.trans first
  Fits _ _ := True
  agree matching := matching.toAgree
  closed _ _ _ _ _ := not_false
  avoids _ _ _ := not_false
  scalar _ := trivial
  keep _ _ := trivial
  place matching valid _ := ⟨matching.place valid _, (extended_place _ _ _).lists, trivial⟩
  write payload matching _ _ := ⟨matching.write _ payload, rfl⟩
  note matching _ := ⟨matching.note _, congrArg size (lists_note _ _)⟩
  forgetDigest matching _ := ⟨matching.forgetDigest _, rfl⟩

theorem matching_deep (l : ListId) : (matching l).Deep := fun _ _ _ => trivial

namespace Matches

variable {roots1 roots2 : List Value}

section

variable (matching : h1.Matches h2)
include matching

theorem symm : h2.Matches h1 :=
  ⟨⟨matching.cells.symm, fun id _ => (matching.aspect?_eq id).symm⟩, matching.second,
    matching.first, matching.lists.symm, fun l => (matching.allocated l).symm⟩

theorem reached (same : ∀ v, v ∈ roots1 → v ∈ roots2)
    (reached : h1.Reached l (· ∈ roots1) id) : h2.Reached l (· ∈ roots2) id := by
  induction reached with
  | root root owned =>
    apply Reached.root (same _ root)
    rwa [matching.owner?_eq not_false]
  | child _ held owned ih =>
    apply Reached.child ih
    · rwa [matching.holds_iff not_false]
    · rwa [matching.owner?_eq not_false]

theorem size_eq (l : ListId) : (h2.list l).size = (h1.list l).size := by
  have first := matching.first.consistent
  have second := matching.second.consistent
  rw [first.size_eq, second.size_eq]
  apply List.Perm.length_eq
  rw [List.perm_ext_iff_of_nodup (second.members_nodup l) (first.members_nodup l)]
  intro id
  rw [first.mem_members_iff_owner, second.mem_members_iff_owner, matching.owner?_eq not_false]

theorem collect (same : ∀ v, v ∈ roots1 ↔ v ∈ roots2) (l : ListId) :
    (h1.collect l roots1).2.Matches (h2.collect l roots2).2 := by
  classical
  have first := matching.first.consistent
  have second := matching.second.consistent
  have reached : ∀ id, h1.Reached l (· ∈ roots1) id ↔ h2.Reached l (· ∈ roots2) id := fun id =>
    ⟨matching.reached fun v => (same v).mp, matching.symm.reached fun v => (same v).mpr⟩
  constructor
  · constructor
    · rw [first.size_cells_collect, second.size_cells_collect, matching.cells]
    · intro id _
      rw [first.aspect?_collect, second.aspect?_collect, matching.aspect?_eq]
      simp only [reached]
  · exact matching.first.collect l roots1
  · exact matching.second.collect l roots2
  · rw [first.size_lists_collect, second.size_lists_collect, matching.lists]
  · intro other
    by_cases this : other = l
    · rw [this, allocated_collect, allocated_collect]
    · rw [first.list_collect_of_ne this, second.list_collect_of_ne this, matching.allocated]

end

end Matches

end Heap

/-! ### Two objects -/

open Tenancy.Action Coupling Program

/-- Two runs begin in one world, on an object and on an object of its component `number`. -/
structure Placement where
  start : World
  whole : ObjectKey
  part : ObjectKey
  number : Nat

namespace Placement

variable (place : Placement)

def outer : Program := (place.start.object place.whole).program

def inner : Program := (place.start.object place.part).program

/-- Slots of the two objects for one variable. -/
def Shares (x y : Nat) : Prop := place.outer.Shares place.number place.inner x y

/-- The variables of the object are those of its component at the start. -/
structure Apt (programs : List Program) : Prop where
  embeds : place.outer.Embeds programs place.number place.inner
  same : ∀ x y, place.Shares x y →
    (place.start.object place.whole).members[x]? = (place.start.object place.part).members[y]?

end Placement

namespace World

/-- Objects are as at the start, but for some slots of one of them. -/
structure Confined (start : World) (key : ObjectKey) (slots : Nat → Prop) (w : World) : Prop where
  shell : ∀ k, w.object k = { start.object k with members := (w.object k).members }
  others : ∀ k, k ≠ key → (w.object k).members = (start.object k).members
  kept : ∀ x, ¬ slots x → (w.object key).members[x]? = (start.object key).members[x]?

variable {start w w1 w2 : World} {key : ObjectKey} {slots : Nat → Prop} {place : Placement}
  {programs : List Program} {x y : Nat} {v : Value}

theorem Confined.refl (start : World) (key : ObjectKey) (slots : Nat → Prop) :
    start.Confined key slots start := ⟨fun _ => rfl, fun _ _ => rfl, fun _ _ => rfl⟩

theorem Confined.congr (confined : start.Confined key slots w)
    (objects : w'.objects = w.objects) : start.Confined key slots w' := by
  have same : ∀ k, w'.object k = w.object k := by
    intro k
    unfold object
    rw [objects]
  constructor
  · intro k
    rw [same]
    exact confined.shell k
  · intro k other
    rw [same]
    exact confined.others k other
  · intro x closed
    rw [same]
    exact confined.kept x closed

theorem Confined.program (confined : start.Confined key slots w) (k : ObjectKey) :
    (w.object k).program = (start.object k).program := by rw [confined.shell]

theorem object_putMember_of_ne (other : k ≠ key) : (w.putMember key x v).object k = w.object k := by
  rw [putMember, object_modifyObject, if_neg fun both => other both.1.symm]

theorem object_putMember (w : World) (key : ObjectKey) (x : Nat) (v : Value) :
    (w.putMember key x v).object key =
      { w.object key with members := (w.object key).members.setIfInBounds x v } := by
  rw [putMember, object_modifyObject]
  split
  · rfl
  · rename_i absent
    have missing : w.objects[key]? = none := by
      apply getElem?_eq_none
      simpa using absent
    simp [object, missing, default]

theorem Confined.putMember (confined : start.Confined key slots w) (x : Nat) (v : Value)
    (allowed : slots x) : start.Confined key slots (w.putMember key x v) := by
  constructor
  · intro k
    by_cases this : k = key
    · subst this
      rw [object_putMember, confined.shell]
    · rw [object_putMember_of_ne this]
      exact confined.shell k
  · intro k other
    rw [object_putMember_of_ne other]
    exact confined.others k other
  · intro z closed
    have ne : x ≠ z := by
      rintro rfl
      exact closed allowed
    rw [object_putMember, getElem?_setIfInBounds_ne ne]
    exact confined.kept z closed

def rest (w : World) : World := { w with heap := {}, objects := #[] }

/-- Worlds of two runs: one has changed variables of the whole, the other one those of the part, and
they have come to hold the same. -/
structure Mirrors (place : Placement) (w1 w2 : World) : Prop where
  heap : w1.heap.Matches w2.heap
  rest : w2.rest = w1.rest
  first : place.start.Confined place.whole (fun x => ∃ y, place.Shares x y) w1
  second : place.start.Confined place.part (fun y => ∃ x, place.Shares x y) w2
  same : ∀ x y, place.Shares x y →
    (w1.object place.whole).members[x]? = (w2.object place.part).members[y]?

namespace Mirrors

section

variable (mirrors : w1.Mirrors place w2)
include mirrors

theorem domain_eq (k : DomainKey) : w2.domain k = w1.domain k := by
  have domains : w2.domains = w1.domains := congrArg (fun w => w.domains) mirrors.rest
  unfold domain
  rw [domains]

theorem settings_eq : w2.settings = w1.settings :=
  congrArg (fun w => w.settings) mirrors.rest

theorem needsCollection_eq (k : DomainKey) : w2.needsCollection k = w1.needsCollection k := by
  unfold needsCollection
  dsimp only
  rw [mirrors.domain_eq, mirrors.heap.allocated]

end

theorem putMember (apt : place.Apt programs) (mirrors : w1.Mirrors place w2)
    (shares : place.Shares x y) (v : Value) :
    (w1.putMember place.whole x v).Mirrors place (w2.putMember place.part y v) where
  heap := mirrors.heap
  rest := mirrors.rest
  first := mirrors.first.putMember x v ⟨y, shares⟩
  second := mirrors.second.putMember y v ⟨x, shares⟩
  same a b other := by
    have unique := apt.embeds.shares_unique shares other
    have within : x < (w1.object place.whole).members.size ↔
        y < (w2.object place.part).members.size := by
      have same := congrArg Option.isSome (mirrors.same x y shares)
      rw [Bool.eq_iff_iff] at same
      simpa using same
    rw [object_putMember, object_putMember, getElem?_setIfInBounds, getElem?_setIfInBounds]
    by_cases this : x = a
    · rw [if_pos this, if_pos (unique.mp this)]
      simp only [within]
    · rw [if_neg this, if_neg (mt unique.mpr this)]
      exact mirrors.same a b other

end Mirrors

theorem mem_standingRoots : v ∈ w.standingRoots d ↔ v ∈ d.parked.flatMap ParkedWindow.values ∨
      ∃ k ∈ d.members.map Prod.snd, ∃ x : Nat, (w.object k).members[x]? = some v := by
  simp only [standingRoots, List.mem_append, List.mem_flatMap, List.mem_map, mem_toList_iff,
    mem_iff_getElem?, exists_exists_and_eq_and]

/-- What the objects of a domain hold in one of two runs, they hold in the other one as well. Slots
that differ are for one variable, and what one run has overwritten the other one has kept. -/
theorem Confined.standingRoots {key' : ObjectKey} {shares : Nat → Nat → Prop} {d : Domain}
    (first : start.Confined key (fun x => ∃ y, shares x y) w1)
    (second : start.Confined key' (fun y => ∃ x, shares x y) w2)
    (initial : ∀ x y, shares x y → (start.object key).members[x]? = (start.object key').members[y]?)
    (same : ∀ x y, shares x y → (w1.object key).members[x]? = (w2.object key').members[y]?)
    (alone : key = key' → ∀ x y, shares x y → x = y)
    (housed : key ∈ d.members.map Prod.snd ↔ key' ∈ d.members.map Prod.snd)
    (root : v ∈ w1.standingRoots d) : v ∈ w2.standingRoots d := by
  rw [mem_standingRoots] at root ⊢
  rcases root with parked | ⟨k, listed, x, held⟩
  · exact .inl parked
  right
  by_cases this : k = key
  · subst this
    by_cases shared : ∃ y, shares x y
    · obtain ⟨y, shares⟩ := shared
      exact ⟨key', housed.mp listed, y, same x y shares ▸ held⟩
    · rw [first.kept x shared] at held
      refine ⟨k, listed, x, ?_⟩
      by_cases alike : k = key'
      · subst alike
        rw [second.kept x]
        · exact held
        · rintro ⟨z, shares⟩
          obtain rfl := alone rfl z x shares
          exact shared ⟨z, shares⟩
      · rwa [second.others k alike]
  · rw [first.others k this] at held
    by_cases other : k = key'
    · subst other
      by_cases shared : ∃ z, shares z x
      · obtain ⟨z, shares⟩ := shared
        refine ⟨key, housed.mpr listed, z, ?_⟩
        rw [second.others key (Ne.symm this), initial z x shares]
        exact held
      · exact ⟨k, listed, x, (second.kept x shared).trans held⟩
    · exact ⟨k, listed, x, by rwa [second.others k other]⟩

theorem live_collect (h : Heap) (l : ListId) (roots : List Value) :
    (h.collect l roots).1.live = ((h.collect l roots).2.list l).size := rfl

theorem rest_collect (w : World) (k : DomainKey) (roots : List Value) :
    (w.collect k roots).2.rest = w.rest.modifyDomain k fun d =>
      { d with
        threshold := w.settings.nextThreshold
          (w.heap.collect (w.domain k).values (roots ++ w.standingRoots (w.domain k))).1.live
        collections := d.collections + 1 } := rfl

/-- The domain has both objects, or it has neither. -/
def Housed (place : Placement) (d : Domain) : Prop :=
  place.whole ∈ d.members.map Prod.snd ↔ place.part ∈ d.members.map Prod.snd

namespace Mirrors

theorem standingRoots (apt : place.Apt programs) (mirrors : w1.Mirrors place w2) {d : Domain}
    (housed : Housed place d) (v : Value) : v ∈ w1.standingRoots d ↔ v ∈ w2.standingRoots d := by
  have alone : place.whole = place.part → ∀ x y, place.Shares x y → x = y := by
    intro alike x y shares
    have self : place.inner = place.outer := by rw [Placement.inner, ← alike, Placement.outer]
    have embeds := apt.embeds
    unfold Placement.Shares at shares
    rw [self] at embeds shares
    exact embeds.shares_self shares
  constructor
  · exact mirrors.first.standingRoots mirrors.second apt.same mirrors.same alone housed
  · apply mirrors.second.standingRoots mirrors.first
    · exact fun y x shares => (apt.same x y shares).symm
    · exact fun y x shares => (mirrors.same x y shares).symm
    · exact fun alike y x shares => (alone alike.symm x y shares).symm
    · exact housed.symm

theorem collect (apt : place.Apt programs) (mirrors : w1.Mirrors place w2)
    (housed : Housed place (w1.domain k)) (roots : List Value) :
    (w1.collect k roots).2.Mirrors place (w2.collect k roots).2 := by
  have same : ∀ v, v ∈ roots ++ w1.standingRoots (w1.domain k) ↔
      v ∈ roots ++ w2.standingRoots (w2.domain k) := by
    intro v
    rw [List.mem_append, List.mem_append, mirrors.domain_eq, mirrors.standingRoots apt housed]
  have collected := mirrors.heap.collect same (w1.domain k).values
  constructor
  · rw [heap_collect, heap_collect, mirrors.domain_eq]
    rwa [mirrors.domain_eq] at collected
  · have live := collected.size_eq (w1.domain k).values
    rw [rest_collect, rest_collect, mirrors.rest, mirrors.settings_eq, live_collect, live_collect,
      ← live, mirrors.domain_eq]
  · exact mirrors.first.congr rfl
  · exact mirrors.second.congr rfl
  · exact mirrors.same

end Mirrors

end World

/-- Frames of one function of the component, on the part and on the whole. -/
structure Frame.Mirrors (place : Placement) (f1 f2 : Frame) : Prop where
  found : place.inner.component? f2.component = some f2.program
  mapped : place.outer.mapped? place.number f2.component = some f1.component
  object : f2.object = place.part
  offset : f2.memberOffset = place.inner.offset f2.component
  count : f2.memberCount = f2.program.ownVariables.length
  own : f2.isEfun = false
  same : f1 = { f2 with
    object := place.whole
    component := f1.component
    memberOffset := place.outer.offset f1.component }

namespace Frame.Mirrors

variable {place : Placement} {f1 f2 : Frame}

section

variable (frame : f1.Mirrors place f2)
include frame

theorem own_eq : f1.isEfun = false := by rw [frame.same, frame.own]

theorem object_eq : f1.object = place.whole := by rw [frame.same]

theorem program_eq : f1.program = f2.program := by rw [frame.same]

theorem shares (within : index < f2.memberCount) :
    place.Shares (f1.memberOffset + index) (f2.memberOffset + index) := by
  rw [frame.count] at within
  rw [frame.same, frame.offset]
  exact .intro frame.found frame.mapped within

end

end Frame.Mirrors

namespace State

variable {place : Placement} {programs : List Program} {frames1 frames2 : List Frame}
  {s1 s2 : State}

/-- States of two runs, with these frames. -/
structure Mirrors (place : Placement) (frames1 frames2 : List Frame) (s1 s2 : State) : Prop where
  world : s1.world.Mirrors place s2.world
  frames : s1.thread.frames = frames1
  thread : s2.thread = { s1.thread with frames := frames2 }
  owner : s1.owner.number < s1.world.heap.lists.size
  housed : World.Housed place (s1.world.domain s1.thread.current.domain)

def mirroring (place : Placement) (frames1 frames2 : List Frame) : Coupling State where
  Related := Mirrors place frames1 frames2
  Leads _ _ := True
  refl _ := trivial
  trans _ _ := trivial

namespace Mirrors

section

variable (mirrors : Mirrors place frames1 frames2 s1 s2)
include mirrors

theorem outer_eq :
    (s1.world.object place.whole).program = place.outer := mirrors.world.first.program _

theorem inner_eq :
    (s2.world.object place.part).program = place.inner := mirrors.world.second.program _

theorem current_eq : s2.thread.current = s1.thread.current := by
  rw [mirrors.thread]
  rfl

theorem owner_eq : s2.owner = s1.owner := by
  unfold State.owner
  rw [mirrors.current_eq, mirrors.world.domain_eq]

theorem withHeap (heap : h1.Matches h2) (lists : h1.lists.size = s1.world.heap.lists.size) :
    Mirrors place frames1 frames2 { s1 with world := { s1.world with heap := h1 } }
      { s2 with world := { s2.world with heap := h2 } } where
  world :=
    ⟨heap, mirrors.world.rest, mirrors.world.first.congr rfl, mirrors.world.second.congr rfl,
      mirrors.world.same⟩
  frames := mirrors.frames
  thread := mirrors.thread
  owner := lists ▸ mirrors.owner
  housed := mirrors.housed

end

theorem collect (apt : place.Apt programs) (mirrors : Mirrors place frames1 frames2 s1 s2)
    (roots : List Value) :
    Mirrors place frames1 frames2
      { s1 with world := (s1.world.collect s1.thread.current.domain roots).2 }
      { s2 with world := (s2.world.collect s1.thread.current.domain roots).2 } := by
  have firm := World.Firm.collect s1.world s1.thread.current.domain roots
  constructor
  · exact mirrors.world.collect apt mirrors.housed roots
  · exact mirrors.frames
  · exact mirrors.thread
  · unfold State.owner
    rw [firm.values, World.heap_collect, mirrors.world.heap.first.consistent.size_lists_collect]
    exact mirrors.owner
  · unfold World.Housed
    rw [firm.members]
    exact mirrors.housed

end Mirrors

end State

/-- Code of the component uses any values. -/
def State.mirrorPair {place : Placement} {programs : List Program} {f1 f2 : Frame}
    (apt : place.Apt programs) (frame : f1.Mirrors place f2) (frames1 frames2 : List Frame) :
    Companions f1 f2 where
  toCoupling := State.mirroring place frames1 frames2
  G _ := False
  kin := Heap.matching
  Fits _ _ := True
  scalar _ := trivial
  keep _ _ := trivial
  same := by
    rw [frame.same]
  constant _ _ := trivial
  default _ _ := trivial
  stack mirrors := .inl (by rw [mirrors.thread])
  slot mirrors _ := ⟨by rw [mirrors.thread], fun _ _ => trivial⟩
  setSlot mirrors _ _ := by
    refine ⟨{ mirrors with thread := ?_ }, trivial⟩
    rw [State.setSlot, mirrors.thread]
    rfl
  field mirrors within := by
    rw [frame.object, frame.object_eq]
    exact ⟨(mirrors.world.same _ _ (frame.shares within)).symm, fun _ _ => trivial⟩
  setField mirrors within _ := by
    rw [frame.object, frame.object_eq]
    exact ⟨{ mirrors with
      world := mirrors.world.putMember apt (frame.shares within) _
      housed := mirrors.housed }, trivial⟩
  owner mirrors := mirrors.owner_eq
  valid mirrors := mirrors.owner
  heap mirrors := mirrors.world.heap
  deep _ := Heap.matching_deep _
  fits _ := Iff.rfl
  lifts mirrors _ _ heap lists := ⟨mirrors.withHeap heap lists, trivial⟩

end Tenancy
