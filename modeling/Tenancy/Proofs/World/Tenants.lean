import Tenancy.Proofs.Arena.Slots
import Tenancy.Proofs.Heap.Exchange
import Tenancy.Proofs.World.Sound
import Tenancy.Thread

/-!
Worlds whose domains keep to themselves.

The skeleton of a world leaves out its heap and what says when collections are due; two worlds with
one skeleton are alike. In an orderly world every domain has a list and an identity of its own, and
every object is listed by its domain. A stocked world holds in each object what is local to its
domain. A tiled stack holds in the window of each domain context what is local to that domain.
-/

namespace Tenancy

open Array

def Domain.skeleton (d : Domain) : Domain := { d with threshold := 0, collections := 0 }

def Settings.skeleton (s : Settings) : Settings :=
  { s with firstThreshold := 0, minThreshold := 0, maxThreshold := 0 }

/-- The world without its heap and without what says when collections are due. -/
def World.skeleton (w : World) : World :=
  { w with
    settings := w.settings.skeleton
    heap := {}
    domains := w.domains.map Domain.skeleton }

/-- Worlds that differ in nothing but their heaps and when collections are due. -/
def World.Alike (w1 w2 : World) : Prop := w2.skeleton = w1.skeleton

namespace World

variable {w w' w1 w2 : World} {S T : ListId} {G G' : Nat → Prop} {k : DomainKey} {o : ObjectKey}
  {v : Value}

theorem domain_skeleton (w : World) (k : DomainKey) :
    w.skeleton.domain k = (w.domain k).skeleton := by
  unfold domain skeleton
  rw [getElem?_map]
  cases w.domains[k]? <;> rfl

theorem skeleton_modifyDomain (w : World) (k : DomainKey)
    (commutes : ∀ d, (f d).skeleton = f d.skeleton) :
    (w.modifyDomain k f).skeleton = w.skeleton.modifyDomain k f := by
  have domains : (w.domains.modify k f).map Domain.skeleton =
      (w.domains.map Domain.skeleton).modify k f := by
    apply ext_getElem?
    intro i
    simp only [getElem?_map, getElem?_modify]
    split
    · cases w.domains[i]? <;> simp [commutes]
    · rfl
  simp [skeleton, modifyDomain, domains]

theorem map_modify_of_same {items : Array α}
    (same : ∀ a, items[k]? = some a → g (f a) = g a) : (items.modify k f).map g = items.map g := by
  apply ext_getElem?
  intro i
  simp only [getElem?_map, getElem?_modify]
  split
  · rename_i here
    subst here
    cases found : items[k]? with
    | none => rfl
    | some a => simp [same a found]
  · rfl

theorem skeleton_modifyDomain_of_same (w : World) (k : DomainKey)
    (same : ∀ d, (f d).skeleton = d.skeleton) : (w.modifyDomain k f).skeleton = w.skeleton := by
  simp [skeleton, modifyDomain, map_modify_of_same fun d _ => same d]

theorem skeleton_collect (w : World) (k : DomainKey) (roots : List Value) :
    (w.collect k roots).2.skeleton = w.skeleton :=
  skeleton_modifyDomain_of_same _ k fun _ => rfl

theorem object_modifyObject (w : World) (k j : ObjectKey) (f : Instance → Instance) :
    (w.modifyObject k f).object j =
      if k = j ∧ j < w.objects.size then f (w.object j) else w.object j := by
  unfold object modifyObject
  rw [getElem?_modify]
  by_cases same : k = j
  · by_cases valid : j < w.objects.size <;> simp [same, valid]
  · simp [same]

theorem object_newObject (w : World) (program : Program) (k : DomainKey) (o : ObjectKey) :
    (w.newObject program k).2.object o = if o = w.objects.size then
      { id := ⟨(w.objectIds.allocate w.objects.size).1⟩, domain := (w.domain k).id, program
        members := replicate program.size .nil }
    else w.object o := by
  unfold newObject object modifyDomain
  rw [getElem?_push]
  split <;> rfl

theorem size_objects_newObject (w : World) (program : Program) (k : DomainKey) :
    (w.newObject program k).2.objects.size = w.objects.size + 1 := by
  simp [newObject, modifyDomain]

theorem domain_newObject (w : World) (program : Program) (k j : DomainKey) :
    (w.newObject program k).2.domain j = if k = j ∧ j < w.domains.size then
      { w.domain j with
        members := (w.domain j).members ++
          [(⟨(w.objectIds.allocate w.objects.size).1⟩, w.objects.size)] }
    else w.domain j := domain_modifyDomain _ k j _

namespace Alike

section

variable (alike : w1.Alike w2)
include alike

theorem modifyDomain (k : DomainKey) (commutes : ∀ d, (f d).skeleton = f d.skeleton) :
    (w1.modifyDomain k f).Alike (w2.modifyDomain k f) := by
  unfold Alike at *
  rw [skeleton_modifyDomain _ _ commutes, skeleton_modifyDomain _ _ commutes, alike]

theorem domain (k : DomainKey) : (w2.domain k).skeleton = (w1.domain k).skeleton := by
  rw [← domain_skeleton, ← domain_skeleton, alike]

theorem id (k : DomainKey) : (w2.domain k).id = (w1.domain k).id :=
  (congrArg Domain.id (alike.domain k) :)

theorem values (k : DomainKey) :
    (w2.domain k).values = (w1.domain k).values := (congrArg Domain.values (alike.domain k) :)

theorem members (k : DomainKey) :
    (w2.domain k).members = (w1.domain k).members := (congrArg Domain.members (alike.domain k) :)

theorem parked (k : DomainKey) :
    (w2.domain k).parked = (w1.domain k).parked := (congrArg Domain.parked (alike.domain k) :)

theorem holder (k : DomainKey) :
    (w2.domain k).holder = (w1.domain k).holder := (congrArg Domain.holder (alike.domain k) :)

theorem size : w2.domains.size = w1.domains.size := by
  have same := congrArg (fun w : World => w.domains.size) alike
  simpa [skeleton] using same

theorem objects : w2.objects = w1.objects :=
  (congrArg World.objects alike :)

theorem object (k : ObjectKey) : w2.object k = w1.object k :=
  (congrArg (World.object · k) alike :)

theorem efuns : w2.efuns = w1.efuns := (congrArg World.efuns alike :)

theorem findObject? (id : ObjectId) :
    w2.findObject? id = w1.findObject? id := (congrArg (World.findObject? · id) alike :)

theorem findDomain? (id : DomainId) :
    w2.findDomain? id = w1.findDomain? id := (congrArg (World.findDomain? · id) alike :)

theorem callDepth : w2.settings.callDepth = w1.settings.callDepth :=
  (congrArg (fun w : World => w.settings.callDepth) alike :)

theorem domainDepth : w2.settings.domainDepth = w1.settings.domainDepth :=
  (congrArg (fun w : World => w.settings.domainDepth) alike :)

theorem enterTimeout : w2.settings.enterTimeout = w1.settings.enterTimeout :=
  (congrArg (fun w : World => w.settings.enterTimeout) alike :)

/-- Both are left, or neither is. -/
theorem leave (k : DomainKey) (key : ThreadKey) :
    (∃ b, w1.leave k key = .error b ∧ w2.leave k key = .error b) ∨
      w1.leave k key = .ok (w1.modifyDomain k fun d => { d with holder := none }) ∧
        w2.leave k key = .ok (w2.modifyDomain k fun d => { d with holder := none }) := by
  unfold World.leave
  dsimp only
  rw [alike.holder, alike.id]
  split
  · exact .inr ⟨rfl, rfl⟩
  · exact .inl ⟨_, rfl, rfl⟩

end

end Alike

/-- Nobody moves: domains keep identity, list and objects, objects keep domain and program. -/
structure Firm (w w' : World) : Prop where
  domainIds : w'.domainIds = w.domainIds
  domains : w'.domains.size = w.domains.size
  id : ∀ k, (w'.domain k).id = (w.domain k).id
  values : ∀ k, (w'.domain k).values = (w.domain k).values
  members : ∀ k, (w'.domain k).members = (w.domain k).members
  objects : w'.objects.size = w.objects.size
  domain : ∀ o, (w'.object o).domain = (w.object o).domain
  program : ∀ o, (w'.object o).program = (w.object o).program
  efuns : w'.efuns = w.efuns

namespace Firm

theorem refl (w : World) : w.Firm w :=
  ⟨rfl, rfl, fun _ => rfl, fun _ => rfl, fun _ => rfl, rfl, fun _ => rfl, fun _ => rfl, rfl⟩

theorem trans (first : w.Firm w') (second : w'.Firm w'') : w.Firm w'' where
  domainIds := second.domainIds.trans first.domainIds
  domains := second.domains.trans first.domains
  id k := (second.id k).trans (first.id k)
  values k := (second.values k).trans (first.values k)
  members k := (second.members k).trans (first.members k)
  objects := second.objects.trans first.objects
  domain o := (second.domain o).trans (first.domain o)
  program o := (second.program o).trans (first.program o)
  efuns := second.efuns.trans first.efuns

theorem modifyDomain (w : World) (k : DomainKey)
    (same : ∀ d, (f d).id = d.id ∧ (f d).values = d.values ∧ (f d).members = d.members) :
    w.Firm (w.modifyDomain k f) where
  domainIds := rfl
  domains := by simp
  id j := by rw [domain_modifyDomain]; split <;> simp [same]
  values j := by rw [domain_modifyDomain]; split <;> simp [same]
  members j := by rw [domain_modifyDomain]; split <;> simp [same]
  objects := rfl
  domain _ := rfl
  program _ := rfl
  efuns := rfl

theorem modifyObject (w : World) (o : ObjectKey)
    (same : ∀ i, (f i).domain = i.domain ∧ (f i).program = i.program) :
    w.Firm (w.modifyObject o f) where
  domainIds := rfl
  domains := rfl
  id _ := rfl
  values _ := rfl
  members _ := rfl
  objects := by simp [World.modifyObject]
  domain j := by rw [object_modifyObject]; split <;> simp [same]
  program j := by rw [object_modifyObject]; split <;> simp [same]
  efuns := rfl

theorem withHeap (w : World) (heap : Heap) : w.Firm { w with heap } := { refl w with }

theorem collect (w : World) (k : DomainKey) (roots : List Value) : w.Firm (w.collect k roots).2 :=
  (withHeap w _).trans (modifyDomain _ k fun _ => ⟨rfl, rfl, rfl⟩)

theorem collected (collects : w' = w ∨ w' = (w.collect k roots).2) : w.Firm w' := by
  obtain rfl | rfl := collects
  · exact refl _
  · exact collect _ _ _

end Firm

structure Houses (w : World) (k : DomainKey) (o : ObjectKey) : Prop where
  domain : k < w.domains.size
  object : o < w.objects.size
  home : (w.object o).domain = (w.domain k).id

theorem Houses.firm (houses : w.Houses k o) (firm : w.Firm w') : w'.Houses k o where
  domain := firm.domains ▸ houses.domain
  object := firm.objects ▸ houses.object
  home := by rw [firm.domain, firm.id, houses.home]

theorem Houses.of_firm (houses : w'.Houses k o) (firm : w.Firm w') : w.Houses k o where
  domain := firm.domains ▸ houses.domain
  object := firm.objects ▸ houses.object
  home := by rw [← firm.domain, ← firm.id, houses.home]

/-- Every domain has a list and an identity of its own, and lists its objects. Identities have been
issued one after the other. -/
structure Orderly (S T : ListId) (w : World) : Prop where
  apart : T ≠ S
  scratch : ∀ k < w.domains.size, (w.domain k).values ≠ S
  transfer : ∀ k < w.domains.size, (w.domain k).values ≠ T
  lists : ∀ j < w.domains.size, ∀ k < w.domains.size,
    (w.domain j).values = (w.domain k).values → j = k
  few : w.domains.size ≤ 0x100000000
  named : ∀ k < w.domains.size, (w.domain k).id = ⟨.ofParts w.domainIds.process k 1⟩
  unused : w.domainIds.free = []
  next : w.domainIds.next = w.domains.size
  versions : ∀ s ∈ w.domainIds.slots, s.version = 1
  keys : w.domainIds.All (· < w.domains.size)
  listed : ∀ o < w.objects.size, ∃ k, w.Houses k o ∧ ∃ id, (id, o) ∈ (w.domain k).members

end World

namespace World

variable {w w' : World} {S T : ListId} {G G' : Nat → Prop} {k : DomainKey} {o : ObjectKey}
  {v : Value}

theorem Orderly.firm (orderly : w.Orderly S T) (firm : w.Firm w') : w'.Orderly S T where
  apart := orderly.apart
  scratch k valid := by
    rw [firm.values]
    exact orderly.scratch k (firm.domains ▸ valid)
  transfer k valid := by
    rw [firm.values]
    exact orderly.transfer k (firm.domains ▸ valid)
  lists j first k second := by
    rw [firm.values, firm.values]
    exact orderly.lists j (firm.domains ▸ first) k (firm.domains ▸ second)
  few := firm.domains ▸ orderly.few
  named k valid := by
    rw [firm.id, firm.domainIds]
    exact orderly.named k (firm.domains ▸ valid)
  unused := firm.domainIds ▸ orderly.unused
  next := by rw [firm.domainIds, firm.domains, orderly.next]
  versions := firm.domainIds ▸ orderly.versions
  keys := by
    rw [firm.domainIds, firm.domains]
    exact orderly.keys
  listed o valid := by
    obtain ⟨k, houses, id, mem⟩ := orderly.listed o (firm.objects ▸ valid)
    exact ⟨k, houses.firm firm, id, by rw [firm.members]; exact mem⟩

theorem Orderly.ids (orderly : w.Orderly S T) {j : DomainKey} (first : j < w.domains.size)
    (second : k < w.domains.size) (same : (w.domain j).id = (w.domain k).id) : j = k := by
  rw [orderly.named j first, orderly.named k second] at same
  have index := congrArg (·.global.index) same
  rwa [GlobalId.index_ofParts (first.trans_le orderly.few),
    GlobalId.index_ofParts (second.trans_le orderly.few)] at index

theorem Orderly.member (orderly : w.Orderly S T) (houses : w.Houses k o) :
    ∃ id, (id, o) ∈ (w.domain k).members := by
  obtain ⟨j, other, id, mem⟩ := orderly.listed o houses.object
  obtain rfl : j = k := orderly.ids other.domain houses.domain (other.home.symm.trans houses.home)
  exact ⟨id, mem⟩

def fits (w : World) (G : Nat → Prop) (k : DomainKey) (v : Value) : Prop :=
  w.heap.Suits G (w.domain k).values v

/-- Objects hold what is local to their domains; literals are steady. -/
structure Stocked (G : Nat → Prop) (w : World) : Prop where
  lists : ∀ k < w.domains.size, (w.domain k).values.number < w.heap.lists.size
  storage : ∀ k o, w.Houses k o → ∀ v ∈ (w.object o).members, w.fits G k v
  literals : ∀ o < w.objects.size, ∀ v ∈ (w.object o).program.literals, w.heap.Lasts G v
  defaults : ∀ f ∈ w.efuns.functions, ∀ v ∈ f.defaults, w.heap.Lasts G v

namespace Stocked

variable {needs : ListId → Value → Prop}

section

variable (stocked : w.Stocked G)
  (firm : w.Firm w')
  (members : ∀ o, (w'.object o).members = (w.object o).members)
include stocked firm members

theorem carry (conveys : Heap.Conveys needs G w.heap G' w'.heap)
    (needed : ∀ k o, w.Houses k o → ∀ v ∈ (w.object o).members, needs (w.domain k).values v) :
    w'.Stocked G' where
  lists k valid := by
    rw [firm.values]
    exact (stocked.lists k (firm.domains ▸ valid)).trans_le conveys.lists
  storage k o houses v held := by
    rw [members] at held
    unfold fits
    rw [firm.values]
    exact conveys.suits _ v (needed k o (houses.of_firm firm) v held)
      (stocked.storage k o (houses.of_firm firm) v held)
  literals o valid v literal := by
    rw [firm.program] at literal
    exact conveys.lasts v (stocked.literals o (firm.objects ▸ valid) v literal)
  defaults f listed v default := by
    rw [firm.efuns] at listed
    exact conveys.lasts v (stocked.defaults f listed v default)

theorem keep (keeps : w.heap.Keeps w'.heap) : w'.Stocked G :=
  stocked.carry firm members keeps.conveys fun _ _ _ _ _ => trivial

end

theorem setMember (stocked : w.Stocked G) (orderly : w.Orderly S T) (houses : w.Houses k o)
    (fits : w.fits G k v) (slot : Nat) :
    Stocked G (w.modifyObject o fun i => { i with members := i.members.setIfInBounds slot v }) := by
  have firm : w.Firm (w.modifyObject o fun i =>
      { i with members := i.members.setIfInBounds slot v }) :=
    .modifyObject w o fun _ => ⟨rfl, rfl⟩
  refine { stocked with
    storage := fun j i dwells u held => ?_
    literals := fun i valid u literal => ?_ }
  · have lives := dwells.of_firm firm
    rw [object_modifyObject] at held
    split at held
    · rename_i same
      obtain rfl := same.1
      rcases mem_or_eq_of_mem_setIfInBounds held with before | rfl
      · exact stocked.storage j o lives u before
      · obtain rfl : j = k := orderly.ids lives.domain houses.domain
          (lives.home.symm.trans houses.home)
        exact fits
    · exact stocked.storage j i lives u held
  · rw [firm.program] at literal
    exact stocked.literals i (firm.objects ▸ valid) u literal

end Stocked

end World

/-- The windows of domain contexts, top first, hold what fits their domains; the top one ends at
`stop`. -/
def Tiled (fits : DomainKey → Value → Prop) (stack : Array Value) :
    List DomainContext → Nat → Prop
  | [], _ => True
  | c :: below, stop =>
    c.start ≤ stop ∧ (∀ i v, c.start ≤ i → i < stop → stack[i]? = some v → fits c.domain v)
      ∧ Tiled fits stack below c.start

namespace Tiled

variable {fits fits' : DomainKey → Value → Prop} {stack stack' : Array Value}
  {contexts below : List DomainContext} {c : DomainContext} {stop stop' : Nat}

theorem mono (tiled : Tiled fits stack contexts stop)
    (weaker : ∀ k v, fits k v → fits' k v) : Tiled fits' stack contexts stop := by
  induction contexts generalizing stop with
  | nil => trivial
  | cons c below ih =>
    obtain ⟨starts, window, lower⟩ := tiled
    exact ⟨starts, fun i v low high found => weaker _ _ (window i v low high found), ih lower⟩

theorem congr (tiled : Tiled fits stack contexts stop)
    (same : ∀ i < stop, stack'[i]? = stack[i]?) : Tiled fits stack' contexts stop := by
  induction contexts generalizing stop with
  | nil => trivial
  | cons c below ih =>
    obtain ⟨starts, window, lower⟩ := tiled
    refine ⟨starts, fun i v low high found => window i v low high (by rw [← same i high, found]), ?_⟩
    exact ih lower fun i before => same i (before.trans_le starts)

/-- Another window on top. -/
theorem renew (tiled : Tiled fits stack (c :: below) stop) (starts : c.start ≤ stop')
    (same : ∀ i < c.start, stack'[i]? = stack[i]?)
    (window : ∀ i v, c.start ≤ i → i < stop' → stack'[i]? = some v → fits c.domain v) :
    Tiled fits stack' (c :: below) stop' := ⟨starts, window, tiled.2.2.congr same⟩

end Tiled

/-! ### The tables of a world -/

/-- What a world says of who there is and who lives where. -/
structure Tables where
  domainIds : Arena DomainKey
  domains : Array (DomainId × ListId × List (ObjectId × ObjectKey))
  objectIds : Arena ObjectKey
  objects : Array (ObjectId × DomainId × Bool)

inductive Demand where
  | createDomain (name : String)
  | destroyDomain (id : DomainId)
  | newObject (program : Program) (domain : DomainKey)
  | destruct (id : ObjectId)

namespace World

variable {w w' w'' : World}

def tables (w : World) : Tables where
  domainIds := w.domainIds
  domains := w.domains.map fun d => (d.id, d.values, d.members)
  objectIds := w.objectIds
  objects := w.objects.map fun o => (o.id, o.domain, o.ended)

/-- The world after a demand. A domain that cannot be destroyed stays. -/
def meet (w : World) : Demand → World
  | .createDomain name => (w.createDomain name).2
  | .destroyDomain id => (w.destroyDomain id).toOption.getD w
  | .newObject program k => (w.newObject program k).2
  | .destruct id => (w.destruct id).2

def meet? (w : World) (demand : Option Demand) : World := demand.elim w w.meet

section DestroyDomain

variable {id : DomainId} {k : DomainKey}

theorem destroyDomain_of_missing (missing : w.findDomain? id = none) :
    w.destroyDomain id = .ok w := by
  simp [destroyDomain, missing]

theorem destroyDomain_of_empty (found : w.findDomain? id = some k)
    (empty : (w.domain k).members = []) : w.destroyDomain id = .ok { w with
      domainIds := (w.domainIds.release id.global).2
      heap := w.heap.freeAll (w.domain k).values } := by
  simp [destroyDomain, found, empty]

theorem destroyDomain_of_members (found : w.findDomain? id = some k)
    (inhabited : (w.domain k).members ≠ []) :
    w.destroyDomain id = .error (.domainNotEmpty id (w.domain k).members.length) := by
  simp [destroyDomain, found, inhabited]

theorem meet_of_destroyed (destroyed : w.destroyDomain id = .ok w') :
    w.meet (.destroyDomain id) = w' := by
  simp [meet, destroyed, Except.toOption]

theorem meet_of_refused (refused : w.destroyDomain id = .error fault) :
    w.meet (.destroyDomain id) = w := by
  simp [meet, refused, Except.toOption]

end DestroyDomain

def Still (w w' : World) : Prop := w'.tables = w.tables

namespace Still

theorem refl (w : World) : w.Still w := rfl

theorem trans (first : w.Still w') (second : w'.Still w'') : w.Still w'' := Eq.trans second first

theorem modifyDomain (id : (f (w.domain k)).id = (w.domain k).id)
    (values : (f (w.domain k)).values = (w.domain k).values)
    (members : (f (w.domain k)).members = (w.domain k).members) : w.Still (w.modifyDomain k f) := by
  have rows : (w.domains.modify k f).map (fun d => (d.id, d.values, d.members)) =
      w.domains.map fun d => (d.id, d.values, d.members) := by
    refine map_modify_of_same fun d found => ?_
    have here : w.domain k = d := by simp [World.domain, found]
    rw [← here, id, values, members]
  simp [Still, tables, World.modifyDomain, rows]

theorem modifyObject (w : World) (o : ObjectKey)
    (same : ∀ i, (f i).id = i.id ∧ (f i).domain = i.domain ∧ (f i).ended = i.ended) :
    w.Still (w.modifyObject o f) := by
  have rows : (w.objects.modify o f).map (fun i => (i.id, i.domain, i.ended)) =
      w.objects.map fun i => (i.id, i.domain, i.ended) :=
    map_modify_of_same fun i _ => by simp [same i]
  simp [Still, tables, World.modifyObject, rows]

theorem collect (w : World) (k : DomainKey) (roots : List Value) : w.Still (w.collect k roots).2 :=
  trans rfl (modifyDomain rfl rfl rfl)

theorem setMember (w : World) (id : ObjectId) (slot : Nat) (v : Value) :
    w.Still (w.setMember id slot v).2 := by
  unfold World.setMember
  split
  · exact refl w
  · exact modifyObject w _ fun _ => ⟨rfl, rfl, rfl⟩

variable (still : w.Still w')

include still

theorem domainIds : w'.domainIds = w.domainIds := congrArg Tables.domainIds still

theorem objectIds : w'.objectIds = w.objectIds := congrArg Tables.objectIds still

theorem size_domains : w'.domains.size = w.domains.size := by
  have same := congrArg (fun t : Tables => t.domains.size) still
  simpa [tables] using same

theorem size_objects : w'.objects.size = w.objects.size := by
  have same := congrArg (fun t : Tables => t.objects.size) still
  simpa [tables] using same

theorem domain (k : DomainKey) : (w'.domain k).id = (w.domain k).id ∧
    (w'.domain k).values = (w.domain k).values ∧ (w'.domain k).members = (w.domain k).members := by
  have same := congrArg (fun t : Tables => t.domains[k]?) still
  simp only [tables, Array.getElem?_map] at same
  unfold World.domain
  cases before : w.domains[k]? <;> cases after : w'.domains[k]? <;> simp_all

theorem object (o : ObjectKey) : (w'.object o).id = (w.object o).id ∧
    (w'.object o).domain = (w.object o).domain ∧ (w'.object o).ended = (w.object o).ended := by
  have same := congrArg (fun t : Tables => t.objects[o]?) still
  simp only [tables, Array.getElem?_map] at same
  unfold World.object
  cases before : w.objects[o]? <;> cases after : w'.objects[o]? <;> simp_all

theorem findDomain? (id : DomainId) : w'.findDomain? id = w.findDomain? id := by
  rw [World.findDomain?, still.domainIds, World.findDomain?]

end Still

end World

end Tenancy
