import Tenancy.Arena
import Tenancy.Efun
import Tenancy.Heap.Collect
import Tenancy.Program.Registry
import Tenancy.Settings

/-!
The world: domains, objects, programs and efuns, with the heap that their values live on.

Domains and objects have identities that stop resolving when they are given up. What still runs or
waits keeps them by key: keys are never used again, and what they name stays. A domain that has been
given up ends when nobody holds it any more, and its objects end with it.
-/

namespace Tenancy

abbrev DomainKey := Nat

abbrev ObjectKey := Nat

/-- The values on the stack of a thread that has left a domain, by the depth that it left from. -/
structure ParkedWindow where
  thread : ThreadKey
  depth : Nat
  values : List Value

/-- Held by one thread at a time; owner of the values in it. -/
structure Domain where
  id : DomainId
  name : String
  values : ListId
  members : List (ObjectId × ObjectKey) := []
  parked : List ParkedWindow := []
  holder : Option ThreadKey := none
  threshold : Nat := 0
  collections : Nat := 0

instance : Inhabited Domain := ⟨⟨.null, "", ⟨0⟩, [], [], none, 0, 0⟩⟩

/-- An object: storage in the layout of its program. -/
structure Instance where
  id : ObjectId
  domain : DomainId
  program : Program
  members : Array Value
  /-- Gone with its domain. -/
  ended : Bool := false

instance : Inhabited Instance := ⟨⟨.null, .null, default, #[], false⟩⟩

structure World where
  settings : Settings := {}
  heap : Heap := {}
  domainIds : Arena DomainKey
  domains : Array Domain := #[]
  objectIds : Arena ObjectKey
  objects : Array Instance := #[]
  registry : Registry := .empty
  efuns : EfunRegistry := {}
  /-- Objects by the names that native code knows them by. -/
  directory : List (String × ObjectId) := []
  /-- What was printed, newest first. -/
  output : List String := []
  /-- What native code reported, newest first. -/
  journal : List View := []
  /-- How many threads have come. -/
  threads : Nat := 0

structure CollectReport extends CollectStats where
  next : Nat
deriving DecidableEq

/-- A window of the same thread and depth is replaced. -/
def Domain.park (d : Domain) (window : ParkedWindow) : Domain :=
  { d with
    parked :=
      window :: d.parked.filter fun p => !(p.thread = window.thread ∧ p.depth = window.depth) }

def Domain.unpark (d : Domain) (thread : ThreadKey) (depth : Nat) : Domain :=
  { d with parked := d.parked.filter fun p => !(p.thread = thread ∧ p.depth = depth) }

def Domain.describe (d : Domain) : String :=
  s!"Domain \x7b id: {d.id.describe}, name: {Text.quote d.name}, running: {d.holder.isSome} \x7d"

def Instance.describe (o : Instance) : String :=
  let fields := [
    s!"id: {o.id.describe}",
    s!"domain: {o.domain.describe}",
    "program: " ++ Text.quote o.program.name]
  "Object \x7b " ++ ", ".intercalate fields ++ " \x7d"

def Instance.componentMembers (o : Instance) (component : Nat) : List Value :=
  match o.program.slice? component with
  | some (offset, count) => (o.members.toList.drop offset).take count
  | none => []

namespace World

def init (settings : Settings) : World :=
  let (efuns, heap) := Efun.registerBuiltins {} {}
  { settings, heap, efuns
    domainIds := .empty settings.process
    objectIds := .empty settings.process }

def domain (w : World) (k : DomainKey) : Domain := w.domains[k]?.getD default

def object (w : World) (k : ObjectKey) : Instance := w.objects[k]?.getD default

def modifyDomain (w : World) (k : DomainKey) (f : Domain → Domain) : World :=
  { w with domains := w.domains.modify k f }

def modifyObject (w : World) (k : ObjectKey) (f : Instance → Instance) : World :=
  { w with objects := w.objects.modify k f }

def modifyHeap (w : World) (f : Heap → Heap) : World := { w with heap := f w.heap }

def newKey (w : World) : ThreadKey × World :=
  (⟨w.threads + 1⟩, { w with threads := w.threads + 1 })

def newList (w : World) : ListId × World :=
  let (list, heap) := w.heap.newList
  (list, { w with heap })

def createDomain (w : World) (name : String) : DomainKey × World :=
  let key := w.domains.size
  let (values, w) := w.newList
  let (id, domainIds) := w.domainIds.allocate key
  (key, { w with
    domainIds
    domains := w.domains.push
      { id := ⟨id⟩, name, values, threshold := w.settings.firstThreshold } })

def findDomain? (w : World) (id : DomainId) : Option DomainKey := w.domainIds.get? id.global

/-- Gives up an empty domain and frees its values. An identity that does not resolve is ignored. -/
def destroyDomain (w : World) (id : DomainId) : Except Fault World :=
  match w.findDomain? id with
  | none => .ok w
  | some key =>
    let d := w.domain key
    if d.members.isEmpty then
      .ok { w with
        domainIds := (w.domainIds.release id.global).2
        heap := w.heap.freeAll d.values }
    else .error (.domainNotEmpty id d.members.length)

def newObject (w : World) (program : Program) (domain : DomainKey) : ObjectKey × World :=
  let key := w.objects.size
  let (id, objectIds) := w.objectIds.allocate key
  let o : Instance :=
    { id := ⟨id⟩
      domain := (w.domain domain).id
      program
      members := Array.replicate program.size .nil }
  let w := { w with objectIds, objects := w.objects.push o }
  (key, w.modifyDomain domain fun d => { d with members := d.members ++ [(o.id, key)] })

def findObject? (w : World) (id : ObjectId) : Option ObjectKey :=
  (w.objectIds.get? id.global).filter fun key => !(w.object key).ended

/-- Retires an object. The answer says whether the identity named one that had not ended. -/
def destruct (w : World) (id : ObjectId) : Bool × World :=
  match w.objectIds.release id.global with
  | (none, _) => (false, w)
  | (some key, objectIds) =>
    let w := { w with objectIds }
    if (w.object key).ended then (false, w)
    else
      match w.findDomain? (w.object key).domain with
      | none => (true, w)
      | some domain =>
        (true, w.modifyDomain domain fun d => { d with members := d.members.filter (·.1 ≠ id) })

/-- Ends a domain: its values are freed and its objects end, save those in `running`. -/
def endDomain (w : World) (running : List ObjectKey) (k : DomainKey) : World :=
  let d := w.domain k
  let (staying, ending) := d.members.partition fun m => running.contains m.2
  let w := { w with heap := w.heap.freeAll d.values }
  let w := w.modifyDomain k fun d => { d with members := staying, parked := [] }
  ending.foldl (fun w m => w.modifyObject m.2 fun o => { o with ended := true }) w

def isLeftover (w : World) (k : DomainKey) : Bool :=
  let d := w.domain k
  w.findDomain? d.id != some k && (!d.members.isEmpty || (w.heap.list d.values).size != 0)

/-- Ends the domains that have been given up and are not in `held`. -/
def endForgotten (w : World) (held : List DomainKey) (running : List ObjectKey) : World :=
  (List.range w.domains.size).foldl
    (fun w k => if w.isLeftover k && !held.contains k then w.endDomain running k else w) w

def nameObject (w : World) (name : String) (id : ObjectId) : World :=
  { w with directory := (name, id) :: w.directory }

def member? (w : World) (id : ObjectId) (slot : Nat) : Option Value :=
  (w.findObject? id).bind fun key => (w.object key).members[slot]?

/-- Writes a slot of the storage of an object. The answer says whether there is such a slot, or
nothing if there is no such object. -/
def setMember (w : World) (id : ObjectId) (slot : Nat) (v : Value) : Option Bool × World :=
  match w.findObject? id with
  | none => (none, w)
  | some key =>
    (some (slot < (w.object key).members.size),
      w.modifyObject key fun o => { o with members := o.members.setIfInBounds slot v })

def declare (w : World) (d : Declaration) : Except LinkError World := do
  return { w with registry := ← w.registry.declare d }

def link (w : World) : Except LinkError (List String × World) :=
  match Registry.linkAll w.registry with
  | .ok names registry => .ok (names, { w with registry })
  | .error e _ => .error e

def addEfun (w : World) (package : String) (body : Native Value) (prototype : String) :
    Except PrototypeError (Function × World) := do
  let (f, efuns, heap) ← w.efuns.add package body prototype w.heap
  return (f, { w with efuns, heap })

def findProgram? (w : World) (name : String) : Option Program := w.registry.find? name

/-- What a collection of a domain keeps, besides the roots given to it. -/
def standingRoots (w : World) (d : Domain) : List Value :=
  d.parked.flatMap ParkedWindow.values
    ++ d.members.flatMap fun m => (w.object m.2).members.toList

def holdings (w : World) (key : ObjectKey) : List Value :=
  (w.object key).members.toList ++ (w.object key).program.literals

def domainHoldings (w : World) (d : Domain) : List Value :=
  d.parked.flatMap ParkedWindow.values ++ d.members.flatMap fun m => w.holdings m.2

/-- What the world refers to: the literals of programs and efuns, and what the domains hold. -/
def references (w : World) : List Value :=
  w.registry.literals ++ w.efuns.functions.flatMap Function.defaults
    ++ w.domains.toList.flatMap w.domainHoldings

/-- Frees the values of a domain that neither roots, parked windows nor objects reach. -/
def collect (w : World) (k : DomainKey) (roots : List Value) : CollectReport × World :=
  let d := w.domain k
  let (stats, heap) := w.heap.collect d.values (roots ++ w.standingRoots d)
  let next := w.settings.nextThreshold stats.live
  let w := { w with heap }
  (⟨stats, next⟩, w.modifyDomain k fun d =>
    { d with threshold := next, collections := d.collections + 1 })

def needsCollection (w : World) (k : DomainKey) : Bool :=
  let d := w.domain k
  d.threshold ≤ (w.heap.list d.values).allocated

def collectIfDue (w : World) (k : DomainKey) (roots : List Value) : Option CollectReport × World :=
  if w.needsCollection k then
    let (report, w) := w.collect k roots
    (some report, w)
  else (none, w)

def hold (w : World) (k : DomainKey) (thread : ThreadKey) : World :=
  w.modifyDomain k fun d => { d with holder := some thread }

def leave (w : World) (k : DomainKey) (thread : ThreadKey) : Except Breach World :=
  let d := w.domain k
  if d.holder = some thread then .ok (w.modifyDomain k fun d => { d with holder := none })
  else .error (.notHeld d.id thread)

/-- Ends all objects and domains and forgets all programs and efuns. -/
def shutdown (w : World) : World :=
  let (keys, domainIds) := w.domainIds.drain
  let w := { w with domainIds, objectIds := w.objectIds.drain.2, registry := .empty, efuns := {} }
  keys.foldl
    (fun w k =>
      let w := w.modifyDomain k fun d => { d with members := [] }
      w.modifyHeap (·.freeAll (w.domain k).values))
    w

def domainCount (w : World) : Nat := w.domainIds.live

def objectCount (w : World) : Nat := w.objectIds.live

def describe (w : World) : String :=
  let fields := [
    s!"settings: {w.settings.describe}",
    s!"domains: {w.domainCount}",
    s!"objects: {w.objectCount}"]
  "Runtime \x7b " ++ ", ".intercalate fields ++ " \x7d"

end World

end Tenancy
