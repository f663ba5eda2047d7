import Tenancy.Proofs.Arena.Grants
import Tenancy.Proofs.Session
import Tenancy.Proofs.World.Tenants

/-!
The register of a world.

The register lists all domains and all objects that a world has ever had, with their identities, and
the objects whose destruction was answered with yes. The tables agree with it: a domain lists the
objects that are still there and that it is the home of, once each, and no others. Every demand that
is proper keeps the tables in agreement with the register. A demand is proper if there is room for
what it makes, an object is made in a domain that is registered, and an identity to be destructed
bears the process of the world or leads nowhere.
-/

namespace Tenancy

open List World

open Arena (Grant History)

/-- All domains and objects that there have been, and the objects that were destructed. The latest
stand first. -/
structure Register where
  domains : List (Grant DomainKey) := []
  objects : List (Grant ObjectKey) := []
  destructed : List ObjectKey := []

namespace Register

def domainHistory (r : Register) (w : World) : History DomainKey := ⟨w.domainIds, r.domains⟩

def objectHistory (r : Register) (w : World) : History ObjectKey := ⟨w.objectIds, r.objects⟩

/-- Enters a demand. An object counts as destructed when the answer is yes. -/
def enter (r : Register) (w : World) : Demand → Register
  | .createDomain _ => { r with domains := ((r.domainHistory w).allocate w.domains.size).grants }
  | .destroyDomain id =>
    match w.destroyDomain id with
    | .ok _ => { r with domains := ((r.domainHistory w).release id.global).grants }
    | .error _ => r
  | .newObject _ _ => { r with objects := ((r.objectHistory w).allocate w.objects.size).grants }
  | .destruct id =>
    { r with
      objects := ((r.objectHistory w).release id.global).grants
      destructed :=
        if (w.destruct id).1 then (w.findObject? id).toList ++ r.destructed else r.destructed }

def enter? (r : Register) (w : World) (demand : Option Demand) : Register :=
  demand.elim r (r.enter w)

end Register

namespace World

variable {process : UInt16} {w w' : World} {r : Register} {k : DomainKey} {o : ObjectKey}

def Registered (w : World) (k : DomainKey) : Prop := w.findDomain? (w.domain k).id = some k

instance : Decidable (w.Registered k) := inferInstanceAs (Decidable (_ = _))

def registered (w : World) : List DomainKey := (range w.domains.size).filter w.Registered

/-- A demand that hosts and native bodies may make. -/
def Proper (w : World) : Demand → Prop
  | .createDomain _ => w.domainCount < 0x100000000
  | .destroyDomain _ => True
  | .newObject _ k => w.objectCount < 0x100000000 ∧ w.Registered k
  | .destruct id => id.global.process = w.objectIds.process ∨ w.findObject? id = none

instance (demand : Demand) : Decidable (w.Proper demand) :=
  match demand with
  | .createDomain _ => inferInstanceAs (Decidable (_ < _))
  | .destroyDomain _ => inferInstanceAs (Decidable True)
  | .newObject _ _ => inferInstanceAs (Decidable (_ ∧ _))
  | .destruct _ => inferInstanceAs (Decidable (_ ∨ _))

def nextRow (w : World) : ObjectId × ObjectKey :=
  (⟨(w.objectIds.allocate w.objects.size).1⟩, w.objects.size)

theorem members_newObject (valid : k < w.domains.size) (program : Program) (j : DomainKey) :
    ((w.newObject program k).2.domain j).members =
      if k = j then (w.domain j).members ++ [w.nextRow] else (w.domain j).members := by
  rw [domain_newObject]
  by_cases same : k = j
  · subst same
    rw [if_pos ⟨rfl, valid⟩, if_pos rfl]
    rfl
  · rw [if_neg fun here => same here.1, if_neg same]

/-- The tables are as the register says. -/
structure Agrees (process : UInt16) (w : World) (r : Register) : Prop where
  domainHistory : (r.domainHistory w).Consistent process
  objectHistory : (r.objectHistory w).Consistent process
  domains : r.domains.map Grant.value = (range w.domains.size).reverse
  objects : r.objects.map Grant.value = (range w.objects.size).reverse
  domainId : ∀ g ∈ r.domains, (w.domain g.value).id = ⟨g.id⟩
  objectId : ∀ g ∈ r.objects, (w.object g.value).id = ⟨g.id⟩
  lasting : ∀ o, (w.object o).ended = false
  home : ∀ g ∈ r.objects, g.live → ∃ k, w.findDomain? (w.object g.value).domain = some k ∧
    (w.object g.value).domain = (w.domain k).id
  members : ∀ (k : DomainKey) (m : ObjectId × ObjectKey), m ∈ (w.domain k).members ↔
    ∃ g ∈ r.objects, g.live ∧ m = (⟨g.id⟩, g.value) ∧
      w.findDomain? (w.object g.value).domain = some k
  nodup : ∀ k, (w.domain k).members.Nodup
  destructed : ∀ g ∈ r.objects, r.destructed.count g.value = if g.live then 0 else 1
  past : ∀ o ∈ r.destructed, o < w.objects.size

namespace Agrees

variable {id : ObjectId}

/-! ### What the tables say -/

section Reading

variable (agrees : w.Agrees process r)

include agrees

theorem findObject?_eq (id : ObjectId) : w.findObject? id = w.objectIds.get? id.global := by
  unfold findObject?
  cases w.objectIds.get? id.global with
  | none => rfl
  | some key => simp [agrees.lasting key]

theorem domain_lt {g : Grant DomainKey} (listed : g ∈ r.domains) : g.value < w.domains.size := by
  have among := mem_map_of_mem (f := Grant.value) listed
  rw [agrees.domains] at among
  simpa using among

theorem object_lt {g : Grant ObjectKey} (listed : g ∈ r.objects) : g.value < w.objects.size := by
  have among := mem_map_of_mem (f := Grant.value) listed
  rw [agrees.objects] at among
  simpa using among

theorem exists_object (valid : o < w.objects.size) : ∃ g ∈ r.objects, g.value = o := by
  have among : o ∈ r.objects.map Grant.value := by
    rw [agrees.objects]
    simpa using valid
  exact mem_map.mp among

theorem eq_of_object (listed : g ∈ r.objects) (listed' : g' ∈ r.objects)
    (same : g.value = g'.value) : g = g' := by
  refine inj_on_of_nodup_map ?_ listed listed' same
  rw [agrees.objects]
  exact nodup_reverse.mpr nodup_range

theorem registered_of_found {id : DomainId} (found : w.findDomain? id = some k) :
    w.Registered k ∧ k < w.domains.size := by
  obtain ⟨g, current, -, -, rfl⟩ := agrees.domainHistory.get?_eq_some_iff.mp found
  obtain ⟨listed, live⟩ := mem_filter.mp current
  refine ⟨?_, agrees.domain_lt listed⟩
  unfold Registered
  rw [agrees.domainId g listed]
  exact agrees.domainHistory.get?_of_live listed live

theorem lt_of_registered (registered : w.Registered k) : k < w.domains.size :=
  (agrees.registered_of_found registered).2

theorem mem_registered : k ∈ w.registered ↔ w.Registered k := by
  unfold registered
  rw [mem_filter, mem_range, decide_eq_true_iff]
  exact and_iff_right_of_imp agrees.lt_of_registered

end Reading

/-! ### What keeps the tables in agreement -/

section

variable (agrees : w.Agrees process r)
include agrees

theorem withDomains {domains : List (Grant DomainKey)}
    (history : History.Consistent process ⟨w'.domainIds, domains⟩)
    (values : domains.map Grant.value = (range w'.domains.size).reverse)
    (ids : ∀ g ∈ domains, (w'.domain g.value).id = ⟨g.id⟩)
    (objectIds : w'.objectIds = w.objectIds) (size : w'.objects.size = w.objects.size)
    (object : ∀ o, (w'.object o).id = (w.object o).id ∧ (w'.object o).domain = (w.object o).domain ∧
      (w'.object o).ended = (w.object o).ended)
    (members : ∀ k, (w'.domain k).members = (w.domain k).members)
    (homes : ∀ id k, w.findDomain? id = some k → (w.domain k).members ≠ [] →
      w'.findDomain? id = some k ∧ (w'.domain k).id = (w.domain k).id) :
    w'.Agrees process { r with domains } := by
  -- The home of an object that is there has a member.
  have home : ∀ g ∈ r.objects, g.live → ∃ k, w.findDomain? (w.object g.value).domain = some k ∧
      (w.object g.value).domain = (w.domain k).id ∧
      w'.findDomain? (w.object g.value).domain = some k ∧ (w'.domain k).id = (w.domain k).id := by
    intro g listed live
    obtain ⟨k, found, same⟩ := agrees.home g listed live
    have mem := (agrees.members k _).mpr ⟨g, listed, live, rfl, found⟩
    exact ⟨k, found, same, homes _ k found (ne_nil_of_mem mem)⟩
  refine ⟨history, ?_, values, ?_, ids, ?_, ?_, ?_, ?_, ?_, agrees.destructed, ?_⟩
  · unfold Register.objectHistory
    rw [objectIds]
    exact agrees.objectHistory
  · rw [size, agrees.objects]
  · intro g listed
    rw [(object g.value).1, agrees.objectId g listed]
  · intro o
    rw [(object o).2.2, agrees.lasting o]
  · intro g listed live
    obtain ⟨k, -, same, found, id⟩ := home g listed live
    refine ⟨k, ?_, ?_⟩
    · rw [(object g.value).2.1, found]
    · rw [(object g.value).2.1, id, same]
  · intro k m
    rw [members, agrees.members]
    refine exists_congr fun g => and_congr_right fun listed => and_congr_right fun live =>
      and_congr_right fun _ => ?_
    obtain ⟨j, before, -, after, -⟩ := home g listed live
    rw [(object g.value).2.1, before, after]
  · intro k
    rw [members]
    exact agrees.nodup k
  · rw [size]
    exact agrees.past

theorem still (still : w.Still w') : w'.Agrees process r := by
  refine agrees.withDomains ?_ ?_ (fun g listed => ?_) still.objectIds still.size_objects still.object
    (fun k => (still.domain k).2.2) fun id k found _ => ⟨?_, (still.domain k).1⟩
  · rw [still.domainIds]
    exact agrees.domainHistory
  · rw [still.size_domains, agrees.domains]
  · rw [(still.domain g.value).1, agrees.domainId g listed]
  · rw [still.findDomain?, found]

theorem createDomain (room : w.domainCount < 0x100000000)
    (name : String) : (w.createDomain name).2.Agrees process (r.enter w (.createDomain name)) := by
  have room : (r.domainHistory w).inUse.length < 0x100000000 := by
    rw [← agrees.domainHistory.live_eq]
    exact room
  refine agrees.withDomains (agrees.domainHistory.allocateWith room fun _ => w.domains.size) ?_ ?_ rfl
    rfl (fun _ => ⟨rfl, rfl, rfl⟩) ?_ ?_
  · rw [size_createDomain, range_succ, reverse_append]
    exact congrArg (w.domains.size :: ·) agrees.domains
  · intro g listed
    rcases mem_cons.mp listed with rfl | old
    · rw [domain_createDomain, if_pos rfl]
      rfl
    · rw [domain_createDomain, if_neg (agrees.domain_lt old).ne]
      exact agrees.domainId g old
  · intro k
    rw [domain_createDomain]
    split
    · rename_i new
      rw [new, domain, Array.getElem?_eq_none le_rfl]
      rfl
    · rfl
  · intro id k found _
    have valid := (agrees.registered_of_found found).2
    refine ⟨agrees.domainHistory.get?_allocate room _ found, ?_⟩
    rw [domain_createDomain, if_neg valid.ne]

theorem destroyDomain (id : DomainId) :
    (w.meet (.destroyDomain id)).Agrees process (r.enter w (.destroyDomain id)) := by
  unfold meet Register.enter
  dsimp only
  cases found : w.findDomain? id with
  | none =>
    have missing : (r.domainHistory w).arena.get? id.global = none := found
    rw [destroyDomain_of_missing found, History.release_of_missing missing]
    exact agrees
  | some k =>
    have stored : (r.domainHistory w).arena.get? id.global = some k := found
    by_cases empty : (w.domain k).members = []
    · have history := agrees.domainHistory.release id.global
      rw [History.release_of_found stored] at history
      rw [destroyDomain_of_empty found empty, History.release_of_found stored]
      refine agrees.withDomains history ?_ ?_ rfl rfl (fun _ => ⟨rfl, rfl, rfl⟩) (fun _ => rfl) ?_
      · rw [map_map]
        refine Eq.trans (map_congr_left fun g _ => ?_) agrees.domains
        exact Grant.value_count _ g
      · intro g listed
        obtain ⟨g, granted, rfl⟩ := mem_map.mp listed
        rw [Grant.value_count, Grant.id_count]
        exact agrees.domainId g granted
      · intro other j leads inhabited
        have apart : other.global.index ≠ id.global.index := by
          intro same
          obtain rfl := History.eq_of_index leads found same
          exact inhabited empty
        exact ⟨(agrees.domainHistory.get?_release stored).mpr ⟨leads, apart⟩, rfl⟩
    · rw [destroyDomain_of_members found empty]
      exact agrees

theorem newObject (room : w.objectCount < 0x100000000) (registered : w.Registered k)
    (program : Program) :
    (w.newObject program k).2.Agrees process (r.enter w (.newObject program k)) := by
  have room : (r.objectHistory w).inUse.length < 0x100000000 := by
    rw [← agrees.objectHistory.live_eq]
    exact room
  have valid := agrees.lt_of_registered registered
  have old : ∀ g ∈ r.objects, (w.newObject program k).2.object g.value = w.object g.value := by
    intro g listed
    rw [object_newObject, if_neg (agrees.object_lt listed).ne]
  have new : (w.newObject program k).2.object w.objects.size = _ :=
    (object_newObject w program k w.objects.size).trans (if_pos rfl)
  constructor
  case domainHistory => exact agrees.domainHistory
  case objectHistory => exact agrees.objectHistory.allocateWith room fun _ => w.objects.size
  case domains => exact agrees.domains.trans (by simp)
  case objects =>
    rw [size_objects_newObject, range_succ, reverse_append]
    exact congrArg (w.objects.size :: ·) agrees.objects
  case domainId =>
    intro g listed
    rw [(same_newObject w program k g.value).id]
    exact agrees.domainId g listed
  case objectId =>
    intro g listed
    rcases mem_cons.mp listed with rfl | listed
    · rw [new]
      rfl
    · rw [old g listed]
      exact agrees.objectId g listed
  case lasting =>
    intro o
    rw [object_newObject]
    split
    · rfl
    · exact agrees.lasting o
  case home =>
    intro g listed live
    rcases mem_cons.mp listed with rfl | listed
    · refine ⟨k, ?_, ?_⟩
      · rw [new]
        exact registered
      · rw [new, (same_newObject w program k k).id]
    · obtain ⟨j, found, same⟩ := agrees.home g listed live
      refine ⟨j, ?_, ?_⟩
      · rw [old g listed]
        exact found
      · rw [old g listed, (same_newObject w program k j).id, same]
  case members =>
    intro j m
    have either : m ∈ ((w.newObject program k).2.domain j).members ↔
        m ∈ (w.domain j).members ∨ k = j ∧ m = w.nextRow := by
      rw [members_newObject valid]
      split <;> simp [*]
    rw [either, agrees.members]
    constructor
    · rintro (⟨g, listed, live, rfl, found⟩ | ⟨rfl, rfl⟩)
      · refine ⟨g, mem_cons_of_mem _ listed, live, rfl, ?_⟩
        rw [old g listed]
        exact found
      · refine ⟨_, mem_cons_self, rfl, rfl, ?_⟩
        rw [new]
        exact registered
    · rintro ⟨g, listed, live, rfl, found⟩
      rcases mem_cons.mp listed with rfl | listed
      · rw [new] at found
        exact .inr ⟨Option.some.inj (registered.symm.trans found), rfl⟩
      · rw [old g listed] at found
        exact .inl ⟨g, listed, live, rfl, found⟩
  case nodup =>
    intro j
    rw [members_newObject valid]
    split
    · have fresh : w.nextRow ∉ (w.domain j).members := by
        intro among
        obtain ⟨g, listed, -, same, -⟩ := (agrees.members j _).mp among
        exact (agrees.object_lt listed).ne (congrArg Prod.snd same).symm
      exact nodup_append.mpr ⟨agrees.nodup j, nodup_singleton _, by grind⟩
    · exact agrees.nodup j
  case destructed =>
    intro g listed
    rcases mem_cons.mp listed with rfl | listed
    · exact count_eq_zero.mpr fun among => Nat.lt_irrefl _ (agrees.past _ among)
    · exact agrees.destructed g listed
  case past =>
    intro o among
    rw [size_objects_newObject]
    exact Nat.lt_succ_of_lt (agrees.past o among)

theorem exists_live_object (found : w.findObject? id = some o) :
    ∃ g ∈ r.objects, g.live ∧ g.id.index = id.global.index ∧
      g.id.version = id.global.version ∧ g.value = o := by
  rw [agrees.findObject?_eq] at found
  obtain ⟨g, current, same⟩ := agrees.objectHistory.get?_eq_some_iff.mp found
  obtain ⟨listed, live⟩ := mem_filter.mp current
  exact ⟨g, listed, live, same⟩

theorem destruct_of_missing (missing : w.findObject? id = none) : w.destruct id = (false, w) := by
  rw [agrees.findObject?_eq] at missing
  simp [destruct, Arena.release, missing]

theorem destruct_of_found (found : w.findObject? id = some o) :
    ∃ k, w.findDomain? (w.object o).domain = some k ∧ w.destruct id = (true,
      { w with objectIds := (w.objectIds.release id.global).2 }.modifyDomain k fun d =>
        { d with members := d.members.filter (·.1 ≠ id) }) := by
  obtain ⟨g, listed, live, -, -, rfl⟩ := agrees.exists_live_object found
  obtain ⟨k, leads, -⟩ := agrees.home g listed live
  refine ⟨k, leads, ?_⟩
  have released : w.objectIds.release id.global =
      (some g.value, (w.objectIds.release id.global).2) := by
    rw [agrees.findObject?_eq] at found
    simp [Arena.release, found]
  unfold destruct
  rw [released]
  have lasting : ({ w with objectIds := (w.objectIds.release id.global).2 }.object g.value).ended =
      false := agrees.lasting g.value
  have same : { w with objectIds := (w.objectIds.release id.global).2 }.findDomain?
      ({ w with objectIds := (w.objectIds.release id.global).2 }.object g.value).domain = some k :=
    leads
  simp only [lasting, same]
  rfl

theorem mem_struck (listed0 : g0 ∈ r.objects) (live0 : g0.live)
    (leads : w.findDomain? (w.object g0.value).domain = some k) (j : DomainKey)
    (m : ObjectId × ObjectKey) : (m ∈ if k = j then
      (w.domain j).members.filter (·.1 ≠ ⟨g0.id⟩) else (w.domain j).members) ↔
      m ∈ (w.domain j).members ∧ m ≠ (⟨g0.id⟩, g0.value) := by
  by_cases here : k = j
  · rw [if_pos here, mem_filter, decide_eq_true_iff]
    refine and_congr_right fun mem => not_congr ⟨fun same => ?_, congrArg Prod.fst⟩
    obtain ⟨g, listed, live, rfl, -⟩ := (agrees.members j m).mp mem
    have slot : g.slot = g0.slot := by rw [Grant.slot, Grant.slot, ObjectId.mk.inj same]
    rw [agrees.objectHistory.eq_of_slot listed live listed0 live0 slot]
  · rw [if_neg here]
    refine (and_iff_left_of_imp fun mem same => here ?_).symm
    obtain ⟨g, -, -, rfl, found⟩ := (agrees.members j m).mp mem
    rw [(Prod.mk.inj same).2, leads] at found
    exact Option.some.inj found

theorem strikeOff {g0 : Grant ObjectKey} (listed0 : g0 ∈ r.objects)
    (live0 : g0.live) (leads : w.findDomain? (w.object g0.value).domain = some k)
    (history : History.Consistent process
      ⟨w'.objectIds, r.objects.map (Grant.count (· == g0.slot))⟩)
    (domainIds : w'.domainIds = w.domainIds) (objects : w'.objects = w.objects)
    (size : w'.domains.size = w.domains.size) (ids : ∀ j, (w'.domain j).id = (w.domain j).id)
    (members : ∀ j, (w'.domain j).members = if k = j then
      (w.domain j).members.filter (·.1 ≠ ⟨g0.id⟩) else (w.domain j).members) :
    w'.Agrees process { r with
      objects := r.objects.map (Grant.count (· == g0.slot))
      destructed := g0.value :: r.destructed } := by
  have object : ∀ o, w'.object o = w.object o := fun o => by rw [object, objects, object]
  have find : ∀ id, w'.findDomain? id = w.findDomain? id := fun id => by
    rw [findDomain?, domainIds, findDomain?]
  have stays : ∀ g ∈ r.objects, (g.count (· == g0.slot)).live ↔ g.live ∧ g ≠ g0 :=
    fun g listed => agrees.objectHistory.live_count_iff listed listed0 live0
  constructor
  case domainHistory =>
    unfold Register.domainHistory
    rw [domainIds]
    exact agrees.domainHistory
  case objectHistory => exact history
  case domains => rw [size, agrees.domains]
  case objects =>
    rw [map_map, objects]
    refine Eq.trans (map_congr_left fun g _ => ?_) agrees.objects
    exact Grant.value_count _ g
  case domainId =>
    intro g listed
    rw [ids, agrees.domainId g listed]
  case objectId =>
    intro g listed
    obtain ⟨g, granted, rfl⟩ := mem_map.mp listed
    rw [Grant.value_count, Grant.id_count, object, agrees.objectId g granted]
  case lasting =>
    intro o
    rw [object, agrees.lasting]
  case home =>
    intro g listed live
    obtain ⟨g, granted, rfl⟩ := mem_map.mp listed
    rw [Grant.value_count]
    obtain ⟨j, found, home⟩ := agrees.home g granted ((stays g granted).mp live).1
    refine ⟨j, ?_, ?_⟩
    · rw [find, object, found]
    · rw [object, ids, home]
  case members =>
    intro j m
    rw [members, agrees.mem_struck listed0 live0 leads, agrees.members]
    constructor
    · rintro ⟨⟨g, listed, live, rfl, found⟩, other⟩
      have ne : g ≠ g0 := fun same => other (by rw [same])
      refine ⟨_, mem_map_of_mem listed, (stays g listed).mpr ⟨live, ne⟩, ?_, ?_⟩
      · rw [Grant.id_count, Grant.value_count]
      · rw [Grant.value_count, object, find, found]
    · rintro ⟨g, listed, live, rfl, found⟩
      obtain ⟨g, granted, rfl⟩ := mem_map.mp listed
      obtain ⟨live, ne⟩ := (stays g granted).mp live
      rw [Grant.value_count, object, find] at found
      rw [Grant.id_count, Grant.value_count]
      refine ⟨⟨g, granted, live, rfl, found⟩, fun same => ne ?_⟩
      exact agrees.eq_of_object granted listed0 (Prod.mk.inj same).2
  case nodup =>
    intro j
    rw [members]
    split
    · exact (agrees.nodup j).filter _
    · exact agrees.nodup j
  case destructed =>
    intro g listed
    obtain ⟨g, granted, rfl⟩ := mem_map.mp listed
    rw [Grant.value_count, count_cons, agrees.destructed g granted]
    by_cases same : g = g0
    · have gone : ¬ (g.count (· == g0.slot)).live := fun live => ((stays g granted).mp live).2 same
      rw [same] at gone
      simp [same, live0, gone]
    · have other : (g0.value == g.value) = false := beq_eq_false_iff_ne.mpr fun shared =>
        same (agrees.eq_of_object granted listed0 shared.symm)
      rw [other, if_neg Bool.false_ne_true, Nat.add_zero]
      exact if_congr ((stays g granted).trans (and_iff_left same)).symm rfl rfl
  case past =>
    intro o among
    rw [objects]
    rcases mem_cons.mp among with rfl | among
    · exact agrees.object_lt listed0
    · exact agrees.past o among

theorem destruct (proper : id.global.process = process ∨ w.findObject? id = none) :
    (w.destruct id).2.Agrees process (r.enter w (.destruct id)) := by
  unfold Register.enter
  dsimp only
  cases found : w.findObject? id with
  | none =>
    have missing : (r.objectHistory w).arena.get? id.global = none :=
      (agrees.findObject?_eq id).symm.trans found
    rw [agrees.destruct_of_missing found, History.release_of_missing missing]
    exact agrees
  | some o =>
    have own : id.global.process = process := by simpa [found] using proper
    have stored : (r.objectHistory w).arena.get? id.global = some o :=
      (agrees.findObject?_eq id).symm.trans found
    obtain ⟨g0, listed, live, index, version, rfl⟩ := agrees.exists_live_object found
    have same : id = ⟨g0.id⟩ := congrArg ObjectId.mk (GlobalId.eq_of_parts
      (own.trans (agrees.objectHistory.issued g0 listed).symm) index.symm version.symm)
    subst same
    obtain ⟨k, leads, destructed⟩ := agrees.destruct_of_found found
    have valid := (agrees.registered_of_found leads).2
    have history := agrees.objectHistory.release g0.id
    rw [History.release_of_found stored] at history
    rw [destructed, History.release_of_found stored]
    refine agrees.strikeOff listed live leads history rfl rfl (size_domains_modifyDomain _ _ _) ?_ ?_
    · intro j
      rw [domain_modifyDomain]
      split <;> rfl
    · intro j
      rw [domain_modifyDomain]
      by_cases here : k = j
      · subst here
        rw [if_pos ⟨rfl, valid⟩, if_pos rfl]
        rfl
      · rw [if_neg fun both => here both.1, if_neg here]
        rfl

theorem meet? (proper : ∀ d ∈ demand, w.Proper d) :
    (w.meet? demand).Agrees process (r.enter? w demand) := by
  cases demand with
  | none => exact agrees
  | some demand =>
    have proper := proper demand rfl
    cases demand with
    | createDomain name => exact agrees.createDomain proper name
    | destroyDomain id => exact agrees.destroyDomain id
    | newObject program k => exact agrees.newObject proper.1 proper.2 program
    | destruct id => exact agrees.destruct (agrees.objectHistory.process ▸ proper)

end

theorem blank (blank : w.Blank P) : w.Agrees w.settings.process {} where
  domainHistory := by
    unfold Register.domainHistory
    rw [blank.domainIds]
    exact History.consistent_empty _
  objectHistory := by
    unfold Register.objectHistory
    rw [blank.objectIds]
    exact History.consistent_empty _
  domains := by simp [blank.domains]
  objects := by simp [blank.objects]
  domainId _ listed := by simp at listed
  objectId _ listed := by simp at listed
  lasting o := by
    rw [object, blank.objects]
    rfl
  home _ listed := by simp at listed
  members k m := by
    rw [domain, blank.domains]
    simp [default]
  nodup k := by
    rw [domain, blank.domains]
    exact nodup_nil
  destructed _ listed := by simp at listed
  past _ listed := by simp at listed

theorem endDomain (agrees : w.Agrees process r) (given : ¬ w.Registered k) (running : List ObjectKey) :
    w.Still (w.endDomain running k) := by
  have empty : (w.domain k).members = [] := by
    refine eq_nil_iff_forall_not_mem.mpr fun m mem => given ?_
    obtain ⟨g, -, -, -, found⟩ := (agrees.members k m).mp mem
    exact (agrees.registered_of_found found).1
  unfold World.endDomain
  dsimp only
  rw [empty]
  have freed : w.Still { w with heap := w.heap.freeAll (w.domain k).values } := rfl
  exact freed.trans (.modifyDomain rfl rfl empty.symm)

theorem forget (agrees : w.Agrees process r) (threads : List Thread) (held : List DomainKey) :
    w.Still (w.forget threads held) := by
  unfold World.forget endForgotten
  refine foldlRecOn (motive := w.Still) _ _ (.refl w) fun w' still k _ => ?_
  split
  · rename_i leftover
    have given : ¬ w'.Registered k := by
      intro registered
      simp [isLeftover, show w'.findDomain? (w'.domain k).id = some k from registered] at leftover
    exact still.trans ((agrees.still still).endDomain given _)
  · exact still

end Agrees

end World

end Tenancy
