import Mathlib.Algebra.Ring.Nat
import Tenancy.Proofs.Machine.Drive
import Tenancy.Proofs.Safepoint
import Tenancy.Proofs.World.Register

/-!
The population of a system.

Hosts create and destroy domains, make and destruct objects, attach threads and have them run; native
bodies make and destruct objects and destroy domains while they run. Whatever happens, as long as
every demand is proper, the tables of the world are in accord: an object is found exactly if its
home, and no other domain, lists it; the objects are as many as the registered domains have members;
every object is destructed at most once, and found until then; and a domain is destroyed exactly if it
has no members. An identity that bears another process is not proper: the object that it leads to is
gone, and its home still lists it.
-/

namespace Tenancy

/-! ### What a thread asks of the tables -/

section

open Tenancy.Action Motion

/-- What a command asks of the tables. A program that is not linked has no objects. -/
def Command.demand? (s : State) : Command → Option Demand
  | .newObject name =>
    (s.world.findProgram? name).map fun program => .newObject program s.thread.current.domain
  | .destruct target => some (.destruct target)
  | .destroyDomain id => some (.destroyDomain id)
  | _ => none

/-- What the next step asks of the tables. -/
def Machine.demand? (m : Machine) : Option Demand :=
  match m.focus, m.thread.frames with
  | .native (.act c _), _ :: _ => c.demand? m.toState
  | _, _ => none

/-- Actions that leave the tables still. -/
def Exec.stillness : Motion State where
  Ready _ := True
  Leads s s' := s.world.Still s'.world
  refl s := .refl s.world
  trans first second := first.trans second
  ready _ _ := trivial

namespace Exec

variable {α : Type}

theorem stillness_enacts : stillness.Enacts 0 where
  inDomain _ s _ := by
    show s.world.Still (left (onHeap _ s)).world
    rw [onHeap_left]
    rfl
  make share draft := by
    unfold make
    split
    · exact breach_moves _
    · exact fun s _ => rfl
  slot _ _ _ _ _ := rfl
  push _ _ _ := rfl
  member s object _ _ _ := .modifyObject s.world object fun _ => ⟨rfl, rfl, rfl⟩
  print _ _ _ _ := rfl
  collect s roots _ := .collect s.world _ roots

theorem reply_still (answered : reply frame c = some act) (s : State) :
    (s.world.meet? (c.demand? s)).Still (left (act s)).world := by
  cases c with
  | newObject name =>
    cases answered
    unfold newObject
    rw [get_bind_apply]
    show World.Still (s.world.meet? ((s.world.findProgram? name).map fun program =>
      .newObject program s.thread.current.domain)) _
    cases s.world.findProgram? name <;> rfl
  | destruct target =>
    cases answered
    rfl
  | destroyDomain id =>
    cases answered
    unfold caught
    rw [get_bind_apply]
    show World.Still ((s.world.destroyDomain id).toOption.getD s.world) _
    cases s.world.destroyDomain id <;> rfl
  | _ =>
    refine stillness_enacts.reply_moves ?_ answered s trivial
    trivial

end Exec

theorem Exec.stillness_drives : stillness.Drives where
  enacts := stillness_enacts
  anywhere _ := trivial
  heap _ _ := rfl
  domain s k _ same :=
    .modifyDomain (same (s.world.domain k)).1 (same (s.world.domain k)).2.1
      (same (s.world.domain k)).2.2
  thread _ _ _ := rfl
  frame _ _ _ _ := rfl

theorem Machine.step_still {m m' : Machine} (stepped : m.step = .next m') :
    (m.world.meet? m.demand?).Still m'.world := by
  by_cases modest : m.Modest
  · have none : m.demand? = none := by
      unfold demand?
      split
      · rename_i c next _ _ focus _
        have quiet := modest c next focus
        cases c with
        | newObject | destruct | destroyDomain => exact quiet.elim
        | _ => rfl
      · rfl
    rw [none]
    exact Exec.stillness_drives.step (absurd modest) stepped
  · obtain ⟨c, immodest⟩ := not_forall.mp modest
    obtain ⟨next, focus, asks⟩ : ∃ next, m.focus = .native (.act c next) ∧ ¬ c.Modest := by
      simpa using immodest
    rcases step_of_immodest focus asks stepped with
      ⟨none, same⟩ | ⟨frame, frames, act, running, answered, same⟩
    · have idle : m.demand? = Option.none := by simp only [demand?, focus, none]
      rw [idle, same]
      exact .refl _
    · have demand : m.demand? = c.demand? m.toState := by simp only [demand?, focus, running]
      rw [demand, same]
      exact Exec.reply_still answered m.toState

end

open List Heap

open Arena (Grant History)

namespace World

variable {process : UInt16} {w w' : World} {r : Register} {k : DomainKey} {o : ObjectKey}

/-! ### Tables in accord -/

/-- The object is listed by the domain that it is at home in, and by no other. -/
def Listed (w : World) (o : ObjectKey) : Prop :=
  ∃ k, w.findDomain? (w.object o).domain = some k ∧ w.Registered k ∧
    ∀ j, (∃ id, (id, o) ∈ (w.domain j).members) ↔ j = k

/-- The domain has been given up: nothing leads to it, and the payloads of its list are freed. -/
structure GivesUp (w : World) (k : DomainKey) (w' : World) : Prop where
  rest : w' = { w with domainIds := w'.domainIds, heap := w'.heap }
  gone : ∀ id, w'.findDomain? id ≠ some k
  others : ∀ id j, j ≠ k → (w'.findDomain? id = some j ↔ w.findDomain? id = some j)
  freed : ∀ i ∈ w.heap.members (w.domain k).values, w'.heap.payload? i = none
  kept : ∀ i ∉ w.heap.members (w.domain k).values, w'.heap.cells[i]? = w.heap.cells[i]?
  emptied : w'.heap.members (w.domain k).values = []
  lists : ∀ l ≠ (w.domain k).values, w'.heap.list l = w.heap.list l

/-- What the tables of a world say of each other and of what was asked of them. -/
structure Accords (w : World) (r : Register) : Prop where
  found : ∀ id o, w.findObject? id = some o → w.Listed o ∧
    (id.global.process = w.objectIds.process → id = (w.object o).id)
  listed : ∀ o, w.Listed o ↔ w.findObject? (w.object o).id = some o
  count : w.objectCount = (w.registered.map fun k => (w.domain k).members.length).sum
  /-- Only objects that are found are destructed. -/
  answer : ∀ id, (w.destruct id).1 = (w.findObject? id).isSome
  once : ∀ o < w.objects.size,
    r.destructed.count o = if w.findObject? (w.object o).id = some o then 0 else 1
  retired : ∀ g ∈ r.objects, g.value ∈ r.destructed → g.releases < 65535 →
    w.destruct (w.object g.value).id = (false, w)
  refused : ∀ id fault, w.destroyDomain id = .error fault ↔ ∃ k, w.findDomain? id = some k ∧
    (w.domain k).members ≠ [] ∧ fault = .domainNotEmpty id (w.domain k).members.length
  stays : ∀ id fault, w.destroyDomain id = .error fault → w.meet (.destroyDomain id) = w
  givenUp : ∀ id k, w.findDomain? id = some k → (w.domain k).members = [] →
    ∃ w', w.destroyDomain id = .ok w' ∧ w.GivesUp k w'
  ignored : ∀ id, w.findDomain? id = none → w.destroyDomain id = .ok w

namespace Agrees

variable (agrees : w.Agrees process r)

include agrees

theorem live_iff {g : Grant ObjectKey} (listed : g ∈ r.objects) :
    g.live ↔ w.findObject? ⟨g.id⟩ = some g.value := by
  constructor
  · intro live
    rw [agrees.findObject?_eq]
    exact agrees.objectHistory.get?_of_live listed live
  · intro found
    obtain ⟨g', listed', live, -, -, same⟩ := agrees.exists_live_object found
    obtain rfl := agrees.eq_of_object listed' listed same
    exact live

theorem listed_of_live {g : Grant ObjectKey} (listed : g ∈ r.objects) (live : g.live) :
    w.Listed g.value := by
  obtain ⟨k, leads, -⟩ := agrees.home g listed live
  refine ⟨k, leads, (agrees.registered_of_found leads).1, fun j => ⟨?_, ?_⟩⟩
  · rintro ⟨id, mem⟩
    obtain ⟨g', -, -, same, found⟩ := (agrees.members j _).mp mem
    rw [← (Prod.mk.inj same).2, leads] at found
    exact (Option.some.inj found).symm
  · rintro rfl
    exact ⟨_, (agrees.members _ _).mpr ⟨g, listed, live, rfl, leads⟩⟩

theorem live_of_listed (listed : w.Listed o) : ∃ g ∈ r.objects, g.live ∧ g.value = o := by
  obtain ⟨k, -, -, only⟩ := listed
  obtain ⟨id, mem⟩ := (only k).mpr rfl
  obtain ⟨g, listed, live, same, -⟩ := (agrees.members k _).mp mem
  exact ⟨g, listed, live, (Prod.mk.inj same).2.symm⟩

theorem members_perm : (w.registered.flatMap fun k => (w.domain k).members).Perm
    ((r.objectHistory w).current.map fun g => (⟨g.id⟩, g.value)) := by
  -- Neither side has anybody twice, so it is enough that they have the same members.
  have apart : w.registered.Pairwise fun j k =>
      List.Disjoint (w.domain j).members (w.domain k).members := by
    refine List.Pairwise.imp ?_ (nodup_range.filter _)
    intro j k ne m here there
    obtain ⟨g, listed, -, rfl, found⟩ := (agrees.members j m).mp here
    obtain ⟨g', listed', -, same, found'⟩ := (agrees.members k _).mp there
    rw [← (Prod.mk.inj same).2, found] at found'
    exact ne (Option.some.inj found')
  have ones : ((r.objectHistory w).current.map fun g =>
      ((⟨g.id⟩, g.value) : ObjectId × ObjectKey)).Nodup := by
    refine List.Nodup.of_map (fun m : ObjectId × ObjectKey => m.1.global.index) ?_
    rw [map_map]
    exact agrees.objectHistory.nodup_inUse
  have single := nodup_flatMap.mpr ⟨fun k _ => agrees.nodup k, apart⟩
  refine (perm_ext_iff_of_nodup single ones).mpr fun m => ?_
  rw [mem_flatMap, mem_map]
  constructor
  · rintro ⟨k, -, mem⟩
    obtain ⟨g, listed, live, rfl, -⟩ := (agrees.members k m).mp mem
    exact ⟨g, mem_filter.mpr ⟨listed, live⟩, rfl⟩
  · rintro ⟨g, current, rfl⟩
    obtain ⟨listed, live⟩ := mem_filter.mp current
    obtain ⟨k, leads, -⟩ := agrees.home g listed live
    refine ⟨k, agrees.mem_registered.mpr (agrees.registered_of_found leads).1, ?_⟩
    exact (agrees.members k _).mpr ⟨g, listed, live, rfl, leads⟩

theorem objectCount_eq :
    w.objectCount = (w.registered.map fun k => (w.domain k).members.length).sum := by
  have same := agrees.members_perm.length_eq
  rw [length_flatMap, length_map] at same
  rw [World.objectCount, same]
  exact agrees.objectHistory.live_eq.trans (length_map _)

theorem givesUp {id : DomainId} (found : w.findDomain? id = some k) :
    w.GivesUp k { w with
      domainIds := (w.domainIds.release id.global).2
      heap := w.heap.freeAll (w.domain k).values } := by
  have stored : (r.domainHistory w).arena.get? id.global = some k := found
  constructor
  case rest => rfl
  case gone =>
    -- Another identity could lead to the domain only from another slot, and a domain has one.
    intro other leads
    obtain ⟨before, apart⟩ := (agrees.domainHistory.get?_release stored).mp leads
    obtain ⟨g, current, index, -, value⟩ := agrees.domainHistory.get?_eq_some_iff.mp stored
    obtain ⟨g', current', index', -, value'⟩ := agrees.domainHistory.get?_eq_some_iff.mp before
    have once : (r.domains.map Grant.value).Nodup := agrees.domains ▸ nodup_reverse.mpr nodup_range
    have same : g' = g := inj_on_of_nodup_map once (mem_filter.mp current').1
      (mem_filter.mp current).1 (value'.trans value.symm)
    exact apart (by rw [← index', ← index, same])
  case others =>
    intro other j ne
    refine (agrees.domainHistory.get?_release stored).trans (and_iff_left_of_imp fun leads same => ?_)
    exact ne (History.eq_of_index leads found same)
  case freed =>
    intro i mem
    show (w.heap.freeAll (w.domain k).values).payload? i = none
    rw [payload?_eq, freeAll_eq, aspect?_freeEach]
    cases (w.heap.takeAll (w.domain k).values).2.aspect? i with
    | none => rfl
    | some a => simp [mem, Aspect.freed]
  case kept =>
    intro i other
    show (w.heap.freeAll (w.domain k).values).cells[i]? = _
    rw [freeAll_eq, getElem?_freeEach_of_not_mem other, getElem?_takeAll_of_not_mem other]
  case emptied => exact members_freeAll _ _
  case lists => exact fun l ne => list_freeAll_of_ne ne _

theorem accords : w.Accords r where
  found id o found := by
    obtain ⟨g, listed, live, index, version, rfl⟩ := agrees.exists_live_object found
    refine ⟨agrees.listed_of_live listed live, fun own => ?_⟩
    rw [agrees.objectId g listed]
    refine congrArg ObjectId.mk (GlobalId.eq_of_parts ?_ index.symm version.symm)
    rw [own, agrees.objectHistory.issued g listed]
    exact agrees.objectHistory.process
  listed o := by
    constructor
    · intro listed
      obtain ⟨g, among, live, rfl⟩ := agrees.live_of_listed listed
      rw [agrees.objectId g among]
      exact (agrees.live_iff among).mp live
    · intro found
      obtain ⟨g, listed, live, -, -, rfl⟩ := agrees.exists_live_object found
      exact agrees.listed_of_live listed live
  count := agrees.objectCount_eq
  answer id := by
    cases found : w.findObject? id with
    | none =>
      rw [agrees.destruct_of_missing found]
      rfl
    | some o =>
      obtain ⟨k, -, destructed⟩ := agrees.destruct_of_found found
      rw [destructed]
      rfl
  once o valid := by
    obtain ⟨g, listed, rfl⟩ := agrees.exists_object valid
    rw [agrees.destructed g listed, agrees.objectId g listed]
    exact if_congr (agrees.live_iff listed) rfl rfl
  retired g listed destructed few := by
    have gone : ¬ g.live := by
      intro live
      have none := agrees.destructed g listed
      rw [if_pos live] at none
      exact count_eq_zero.mp none destructed
    refine agrees.destruct_of_missing ?_
    rw [agrees.objectId g listed, agrees.findObject?_eq]
    exact agrees.objectHistory.get?_of_released listed gone few
  refused id fault := by
    cases found : w.findDomain? id with
    | none => simp [destroyDomain_of_missing found]
    | some k =>
      by_cases empty : (w.domain k).members = []
      · simp [destroyDomain_of_empty found empty, empty]
      · rw [destroyDomain_of_members found empty]
        constructor
        · intro same
          exact ⟨k, rfl, empty, (Except.error.inj same).symm⟩
        · rintro ⟨j, same, -, rfl⟩
          cases same
          rfl
  stays _ _ refused := meet_of_refused refused
  givenUp id k found empty := ⟨_, destroyDomain_of_empty found empty, agrees.givesUp found⟩
  ignored id missing := destroyDomain_of_missing missing

end Agrees

end World

/-! ### What happens in a system -/

/-- What a thread in a phase asks of the tables next. -/
def Phase.demand? : Phase → Option Demand
  | .idle _ => none
  | .running m => m.demand?

theorem Phase.Goes.still {phase phase' : Phase} (goes : phase.Goes phase') :
    (phase.state.world.meet? phase.demand?).Still phase'.state.world := by
  cases goes with
  | begin begins => exact Exec.stillness_drives.begins begins
  | step stepped => exact Machine.step_still stepped
  | @expire m m' expired =>
    obtain ⟨⟨_, _, _, _, focus⟩, f, rfl⟩ := Machine.expire?_cases expired
    simp only [Phase.demand?, Machine.demand?, focus]
    rfl
  | @finish m outcome s finished =>
    obtain ⟨focus, rfl⟩ := Machine.step_done_iff.mp finished
    simp only [Phase.demand?, Machine.demand?, focus]
    rfl

namespace World

variable {w w' : World}

theorem Still.destroyDomain (still : w.Still w') (id : DomainId) :
    (w.meet (.destroyDomain id)).Still (w'.meet (.destroyDomain id)) := by
  have same := still.findDomain? id
  cases found : w.findDomain? id with
  | none =>
    rw [found] at same
    rwa [meet_of_destroyed (destroyDomain_of_missing found),
      meet_of_destroyed (destroyDomain_of_missing same)]
  | some k =>
    rw [found] at same
    have members := (still.domain k).2.2
    by_cases empty : (w.domain k).members = []
    · rw [meet_of_destroyed (destroyDomain_of_empty found empty),
        meet_of_destroyed (destroyDomain_of_empty same (members.trans empty))]
      exact congrArg (fun t : Tables => { t with domainIds := (t.domainIds.release id.global).2 })
        still
    · have inhabited := members.trans_ne empty
      rwa [meet_of_refused (destroyDomain_of_members found empty),
        meet_of_refused (destroyDomain_of_members same inhabited)]

/-- A thread that ends leaves its home, gives up its lists and has its home destroyed. -/
theorem release_eq (s : State) : ∃ w,
    (w = s.world ∨ w = s.world.modifyDomain s.thread.home fun d => { d with holder := none }) ∧
    s.release = ((w.modifyHeap (·.freeAll s.thread.scratch)).meet
      (.destroyDomain (s.world.domain s.thread.home).id)).modifyHeap (·.freeAll s.thread.transfer) := by
  refine ⟨_, (ite_eq_or_eq ((s.world.domain s.thread.home).holder = some s.thread.key) _ _).symm, ?_⟩
  unfold State.release
  dsimp only
  split
  · rw [meet_of_destroyed ‹_›]
  · rw [meet_of_refused ‹_›]

theorem Still.release (s : State) :
    (s.world.meet (.destroyDomain (s.world.domain s.thread.home).id)).Still s.release := by
  obtain ⟨w, left, same⟩ := release_eq s
  have still : s.world.Still w := by
    rcases left with rfl | rfl
    · exact .refl _
    · exact .modifyDomain rfl rfl rfl
  have freed : s.world.Still (w.modifyHeap (·.freeAll s.thread.scratch)) := still
  rw [same]
  exact freed.destroyDomain (s.world.domain s.thread.home).id

end World

namespace System

variable {P : Function → Prop} {σ σ' : System} {demand : Option Demand}

/-- One thing that happens in a system, and what it asks of the tables. -/
inductive Happens (σ : System) : Option Demand → System → Prop where
  | demand (d : Demand) : Happens σ (some d) { σ with world := σ.world.meet d }
  | attach {t : Thread} {w : World} (attached : Thread.attach σ.world = .ok (t, w)) :
      Happens σ (some (.createDomain s!"home of {σ.world.newKey.1.text}"))
        (σ.put t.key w (some (.idle t)))
  | go {key : ThreadKey} {task : Task} {phase : Phase} (among : σ.tasks key = some task)
      (goes : (task.phase σ.world).Goes phase) :
      Happens σ (task.phase σ.world).demand? (σ.put key phase.state.world (some phase.task))
  | forget {threads : List Thread} {held : List DomainKey} :
      Happens σ none { σ with world := σ.world.forget threads held }
  | release {key : ThreadKey} {t : Thread} (among : σ.tasks key = some (.idle t))
      (unwound : State.unwound ⟨σ.world, t⟩ = true) :
      Happens σ (some (.destroyDomain (σ.world.domain t.home).id))
        (σ.put key (State.release ⟨σ.world, t⟩) none)
  /-- Whatever is done to payloads, the tables do not see it. -/
  | heap (heap : Heap) : Happens σ none { σ with world := { σ.world with heap } }
  | equip (registry : Registry) (efuns : EfunRegistry) :
      Happens σ none { σ with world := { σ.world with registry, efuns } }
  | nameObject (name : String) (id : ObjectId) :
      Happens σ none { σ with world := σ.world.nameObject name id }
  | setMember (id : ObjectId) (slot : Nat) (v : Value) :
      Happens σ none { σ with world := (σ.world.setMember id slot v).2 }
  | collect (k : DomainKey) (roots : List Value) :
      Happens σ none { σ with world := (σ.world.collect k roots).2 }

theorem Happens.agrees {process : UInt16} {r : Register} (happens : σ.Happens demand σ')
    (proper : ∀ d ∈ demand, σ.world.Proper d) (agrees : σ.world.Agrees process r) :
    σ'.world.Agrees process (r.enter? σ.world demand) := by
  have met := agrees.meet? proper
  cases happens with
  | demand d => exact met
  | attach attached =>
    obtain ⟨-, rfl⟩ := Thread.attach_eq attached
    exact met.still (.trans rfl (.modifyDomain rfl rfl rfl))
  | @go key task phase among goes =>
    have still := goes.still
    rw [Task.state_phase] at still
    exact met.still still
  | forget => exact met.still (agrees.forget _ _)
  | @release key t among unwound => exact met.still (.release ⟨σ.world, t⟩)
  | heap | equip | nameObject => exact met.still rfl
  | setMember id slot v => exact met.still (.setMember _ id slot v)
  | collect k roots => exact met.still (.collect _ k roots)

/-- The system has come about from a blank world by proper demands, and the register has them all. -/
inductive Recorded : System → Register → Prop where
  | blank {w : World} (blank : w.Blank fun _ => True) : Recorded ⟨w, fun _ => none⟩ {}
  | step {σ σ' : System} {r : Register} {demand : Option Demand} (before : Recorded σ r)
      (happens : σ.Happens demand σ') (proper : ∀ d ∈ demand, σ.world.Proper d) :
      Recorded σ' (r.enter? σ.world demand)

theorem Recorded.agrees {r : Register} (recorded : σ.Recorded r) :
    ∃ process, σ.world.Agrees process r := by
  induction recorded with
  | blank blank => exact ⟨_, .blank blank⟩
  | step _ happens proper ih =>
    obtain ⟨process, agrees⟩ := ih
    exact ⟨process, happens.agrees proper agrees⟩

/-- The tables of a system are in accord, whatever its hosts and its threads have done. -/
theorem tables_accord {r : Register} (recorded : σ.Recorded r) : σ.world.Accords r := by
  obtain ⟨process, agrees⟩ := recorded.agrees
  exact agrees.accords

theorem Happens.place (goes : phase.Goes phase') :
    (σ.place key phase).Happens phase.demand? (σ.place key phase') := by
  have same : phase.task.phase (σ.place key phase).world = phase := Phase.phase_task phase
  have happens := Happens.go (tasks_place σ key phase) (by rwa [same])
  rw [same] at happens
  exact place_place σ key phase phase' ▸ happens

end System

/-! ### Two hermits -/

def hermit : Program where
  name := "/hermit"
  ownVariables := []
  constants := []
  functions := [
    { name := "leave", number := 0,
      body := .native (.act .thisObject fun own => .act (.destruct own) fun _ => .done .nil) }]
  inherited := []

def hermitage : Except Breach State := do
  let (thread, world) ← Thread.attach stadium
  return ⟨((world.newObject hermit 0).2.newObject hermit 0).2, thread⟩

theorem hermitage_recorded (ready : hermitage = .ok s) :
    ∃ r, (System.place ⟨stadium, fun _ => none⟩ s.thread.key (.idle s)).Recorded r := by
  unfold hermitage at ready
  obtain ⟨thread, world, attached, ready⟩ := Thread.of_attach_bind ready
  cases ready
  have empty : System.Recorded ⟨stadium, fun _ => none⟩ {} :=
    .blank (stadium_blank.mono fun _ _ => trivial)
  have begun := empty.step (.attach attached) (by decide +kernel)
  obtain ⟨rfl, rfl⟩ := Thread.attach_eq attached
  have settled := begun.step (.demand (.newObject hermit 0)) (by decide +kernel)
  exact ⟨_, settled.step (.demand (.newObject hermit 0)) (by decide +kernel)⟩

/-- The first hermit leaves: it is called, learns who it is, and is gone. -/
structure Departure where
  rest : State
  called : Machine
  aware : Machine
  gone : Machine

def departure? : Option Departure := do
  let (rest, called, aware) ← stride? hermitage (fun s => s.call (s.world.object 0).id "leave" []) 0
  return { rest, called, aware, gone := ← aware.step.next? }

theorem departure?_eq_some (left : departure? = some d) :
    hermitage = .ok d.rest ∧ d.rest.call (d.rest.world.object 0).id "leave" [] = .ok d.called ∧
      d.called.step = .next d.aware ∧ d.aware.step = .next d.gone := by
  simp only [departure?, Option.bind_eq_bind, Option.bind_eq_some_iff] at left
  obtain ⟨⟨rest, m, aware⟩, went, gone, second, ⟨⟩⟩ := left
  obtain ⟨ready, ⟨first, called, ran⟩, stepped⟩ := stride?_eq_some went
  cases ran
  exact ⟨ready, called, stepped, Progress.next?_eq_some.mp second⟩

/-- One hermit has had itself destructed, and the other is there. -/
theorem System.hermit_leaves_tables_in_accord : ∃ (σ : System) (r : Register), σ.Recorded r ∧
    σ.world.Accords r ∧ σ.world.objectCount = 1 ∧ r.destructed.count 0 = 1 ∧
    r.destructed.count 1 = 0 := by
  have ran : departure?.any (fun d => (∀ e ∈ d.called.demand?, d.called.world.Proper e) ∧
      (∀ e ∈ d.aware.demand?, d.aware.world.Proper e) ∧ d.gone.world.objects.size = 2 ∧
      d.gone.world.findObject? (d.gone.world.object 0).id = none ∧
      d.gone.world.findObject? (d.gone.world.object 1).id = some 1 ∧
      d.gone.world.objectCount = 1) = true := by decide +kernel
  obtain ⟨d, left, checked⟩ := (Option.any_eq_true _ _).mp ran
  obtain ⟨asks, demands, size, gone, stays, count⟩ := of_decide_eq_true checked
  obtain ⟨ready, called, first, second⟩ := departure?_eq_some left
  obtain ⟨r, resting⟩ := hermitage_recorded ready
  have begun := resting.step (.place (.begin (.call called))) (by simp [Phase.demand?])
  have recorded := (begun.step (.place (.step first)) asks).step (.place (.step second)) demands
  have accords := tables_accord recorded
  have once : ∀ o < d.gone.world.objects.size, _ := accords.once
  refine ⟨_, _, recorded, accords, count, ?_, ?_⟩
  · refine (once 0 (by simp [size])).trans (if_neg ?_)
    exact fun found => Option.some_ne_none _ (found.symm.trans gone)
  · exact (once 1 (by simp [size])).trans (if_pos stays)

/-- The identity of the first hermit in another process. -/
def strangeHermit : ObjectId := ⟨.ofParts 2 0 1⟩

def Departure.strange (d : Departure) : World := (d.rest.world.destruct strangeHermit).2

/-- The world when the other hermit has been destructed, too. -/
def Departure.deserted (d : Departure) : World := (d.strange.destruct (d.strange.object 1).id).2

/-- Such an identity destructs the hermit, which its home lists all the same: when the other has gone
too, there is no object, and the home cannot be destroyed. -/
theorem System.hermit_listed_after_strange_destruct : ∃ (σ : System) (r : Register) (w w' : World),
    σ.Recorded r ∧ strangeHermit ≠ (σ.world.object 0).id ∧
    σ.world.destruct strangeHermit = (true, w) ∧ w.findObject? (w.object 0).id = none ∧
    ((w.object 0).id, 0) ∈ (w.domain 0).members ∧ w.Registered 0 ∧ w.objectCount = 1 ∧
    (w.registered.map fun k => (w.domain k).members.length).sum = 2 ∧
    w.destruct (w.object 1).id = (true, w') ∧ w'.objectCount = 0 ∧
    w'.destroyDomain (w'.domain 0).id = .error (.domainNotEmpty (w'.domain 0).id 1) := by
  have ran : departure?.any (fun d => strangeHermit ≠ (d.rest.world.object 0).id ∧
      (d.rest.world.destruct strangeHermit).1 ∧
      d.strange.findObject? (d.strange.object 0).id = none ∧
      ((d.strange.object 0).id, 0) ∈ (d.strange.domain 0).members ∧ d.strange.Registered 0 ∧
      d.strange.objectCount = 1 ∧
      (d.strange.registered.map fun k => (d.strange.domain k).members.length).sum = 2 ∧
      (d.strange.destruct (d.strange.object 1).id).1 ∧ d.deserted.objectCount = 0 ∧
      d.deserted.Registered 0 ∧ (d.deserted.domain 0).members.length = 1) = true := by
    decide +kernel
  obtain ⟨d, left, checked⟩ := (Option.any_eq_true _ _).mp ran
  obtain ⟨strange, known, missing, listed, registered, count, sum, other, none, still, members⟩ :=
    of_decide_eq_true checked
  obtain ⟨r, recorded⟩ := hermitage_recorded (departure?_eq_some left).1
  have inhabited : (d.deserted.domain 0).members ≠ [] := by
    rw [ne_nil_iff_length_pos, members]
    exact Nat.one_pos
  have refused := World.destroyDomain_of_members still inhabited
  rw [members] at refused
  exact ⟨_, r, d.strange, d.deserted, recorded, strange, Prod.ext known rfl, missing, listed,
    registered, count, sum, Prod.ext other rfl, none, refused⟩

end Tenancy
