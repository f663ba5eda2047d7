import Tenancy.Proofs.Isolation

/-!
Collections change nothing that can be told from outside.

Two worlds that differ in their thresholds only are collected at different times. A host that makes
the same provisions and the same calls in both, with arguments that it has made or been handed, gets
the same answers: the same results and faults, the same output, and objects that hold the same.
Payloads that have been freed keep their numbers, so payloads that correspond have one number.
-/

namespace Tenancy

open Machine Provision Thread Option

def World.retuned (w : World) (first least most : Nat) : World :=
  { w with
    settings :=
      { w.settings with firstThreshold := first, minThreshold := least, maxThreshold := most } }

def Outcome.handed : Outcome → List Value
  | .returned v => [v]
  | _ => []

/-- Two states after the same provisions and calls, from new worlds that differ in their thresholds,
with the values that the host has made or been handed. Arguments have the property `Passes`. -/
inductive Abreast (Passes : Heap → Value → Prop) : State → State → List Value → Prop where
  | begin {w : World} {s1 s2 : State} {first least most : Nat} (fresh : w.Fresh)
      (attached1 : attach w = .ok (s1.thread, s1.world))
      (attached2 : attach (w.retuned first least most) = .ok (s2.thread, s2.world)) :
      Abreast Passes s1 s2 []
  | provide {s1 s2 : State} {held : List Value} {p : Provision} (before : Abreast Passes s1 s2 held)
      (allowed : p.Allowed s1) (known : ∀ v ∈ p.values, v.ref? = none ∨ v ∈ held) :
      Abreast Passes (p.apply s1).2 (p.apply s2).2 (held ++ (p.apply s1).1.toList)
  | call {s1 s2 s1' s2' : State} {held args : List Value} {patient : Bool} {fuel : Nat}
      {target : ObjectId} {name : String} {outcome1 outcome2 : Outcome}
      (before : Abreast Passes s1 s2 held) (known : ∀ v ∈ args, v.ref? = none ∨ v ∈ held)
      (passes : ∀ v ∈ args, Passes s1.world.heap v)
      (ran1 : runFrom patient fuel (s1.call target name args) = .finished outcome1 s1')
      (ran2 : runFrom patient fuel (s2.call target name args) = .finished outcome2 s2') :
      Abreast Passes s1' s2' (held ++ outcome1.handed)

/-- States that cannot be told apart by what they have printed, by what objects hold, and by values
in `held`. -/
structure State.Indistinct (held : List Value) (s1 s2 : State) : Prop where
  output : s2.world.output = s1.world.output
  objects : s2.world.objects = s1.world.objects
  /-- Payloads are the same, all the way down. -/
  contents : ∀ v, v ∈ held ∨ (∃ o ∈ s1.world.objects, v ∈ o.members) → ∀ id,
    s1.world.heap.Accessible v id → s2.world.heap.aspect? id = s1.world.heap.aspect? id

inductive RunResult.Agree (held : List Value) : RunResult → RunResult → Prop where
  | finished {s1 s2 : State} (outcome : Outcome)
      (indistinct : s1.Indistinct (held ++ outcome.handed) s2) :
      Agree held (.finished outcome s1) (.finished outcome s2)
  | blocked {m1 m2 : Machine} : Agree held (.blocked m1) (.blocked m2)
  | broken (b : Breach) : Agree held (.broken b) (.broken b)
  | exhausted {m1 m2 : Machine} : Agree held (.exhausted m1) (.exhausted m2)

variable {s1 s2 : State} {held : List Value}

/-- The states go together, and the host has nothing from inside the domains. -/
structure State.Kept (held : List Value) (G : Nat → Prop) (s1 s2 : State) : Prop where
  pair : s1.Pair ⟨1⟩ ⟨2⟩ G s2
  sealed : s1.world.heap.Sealed ⟨1⟩ G
  outside : ∀ v ∈ held, s1.world.heap.Outside ⟨1⟩ v ∧ v.Avoids G

namespace State.Kept

variable {G : Nat → Prop} {v : Value}

section

variable (kept : s1.Kept held G s2)
include kept

theorem known (known : v.ref? = none ∨ v ∈ held) : s1.world.heap.Outside ⟨1⟩ v ∧ v.Avoids G := by
  rcases known with scalar | mem
  · refine ⟨?_, Value.avoids_of_ref? scalar⟩
    rintro r rfl
    simp [Value.ref?] at scalar
  · exact kept.outside v mem

theorem indistinct : s1.Indistinct held s2 := by
  have twin := kept.pair.twin
  refine ⟨(congrArg World.output twin.alike :), twin.alike.objects, fun v given id accessible => ?_⟩
  have avoids : v.Avoids G := by
    rcases given with mem | ⟨found, listed, mem⟩
    · exact (kept.outside v mem).2
    · obtain ⟨o, valid, rfl⟩ := Array.mem_iff_getElem.mp listed
      obtain ⟨k, houses, -⟩ := twin.orderly.listed o valid
      exact (twin.stocked.storage k o houses v (by simpa [World.object, valid] using mem)).avoids
  exact twin.heap.agree id (twin.heap.kept_of_accessible avoids accessible)

theorem provide {p : Provision} (allowed : p.Allowed s1)
    (known : ∀ v ∈ p.values, v.ref? = none ∨ v ∈ held) :
    (p.apply s1).2.Kept (held ++ (p.apply s1).1.toList) G (p.apply s2).2 := by
  have outside := fun v listed => kept.known (known v listed)
  obtain ⟨-, pair⟩ := kept.pair.provide allowed fun v listed => (outside v listed).2
  obtain ⟨respects, made⟩ := kept.pair.provide_outside (fun v listed => (outside v listed).2)
    fun v listed => (outside v listed).1
  refine ⟨pair, respects.sealed kept.sealed, fun v listed => ?_⟩
  rcases List.mem_append.mp listed with old | new
  · exact ⟨(kept.outside v old).1.keep respects.toKeeps, (kept.outside v old).2⟩
  · exact made v (mem_toList.mp new)

theorem finish {s1' s2' : State} {outcome : Outcome}
    (passage : Heap.Passage ⟨1⟩ G s1.world.heap G' s1'.world.heap)
    (hands : ∀ v, outcome = .returned v → s1.world.heap.Sealed ⟨1⟩ G →
      s1'.world.heap.Outside ⟨1⟩ v ∧ v.Avoids G')
    (pair : s1'.Pair ⟨1⟩ ⟨2⟩ G' s2') : s1'.Kept (held ++ outcome.handed) G' s2' := by
  refine ⟨pair, passage.sealed kept.sealed, fun v listed => ?_⟩
  rcases List.mem_append.mp listed with old | new
  · exact passage.outside v kept.sealed (kept.outside v old).1 (kept.outside v old).2
  · cases outcome with
    | returned u =>
      obtain rfl := List.mem_singleton.mp new
      exact hands v rfl kept.sealed
    | faulted | failed | switched | stayed | restored => simp [Outcome.handed] at new

end

end State.Kept

theorem World.Fresh.sealed {w : World} (fresh : w.Fresh) (S : ListId) :
    w.heap.Sealed S fun _ => False := by
  rintro id v - - held r rfl
  refine ⟨fresh.closed id r held, ?_⟩
  rintro ⟨l, owned, -⟩
  obtain ⟨b, bound, -⟩ := map_eq_some_iff.mp owned
  have valid := fresh.blank.heap.sound.consistent.list_valid bound
  simp [fresh.blank.lists] at valid

theorem Abreast.kept (abreast : Abreast Heap.Clean s1 s2 held) : ∃ G, s1.Kept held G s2 := by
  induction abreast with
  | @begin w s1 s2 first least most fresh attached1 attached2 =>
    have retuned : (w.retuned first least most).Fresh :=
      ⟨{ fresh.blank with }, fresh.defaults, fresh.closed⟩
    have pair := fresh.pair retuned rfl rfl attached1 attached2
    refine ⟨_, pair, ?_, by simp⟩
    obtain ⟨-, world⟩ := attach_settled fresh.blank attached1
    rw [world]
    exact fresh.sealed ⟨1⟩
  | provide _ allowed known ih =>
    obtain ⟨G, kept⟩ := ih
    exact ⟨G, kept.provide allowed known⟩
  | @call s1 s2 s1' s2' held args patient fuel target name outcome1 outcome2 _ known passes ran1 ran2
      ih =>
    obtain ⟨G, kept⟩ := ih
    have concludes := call_concludes kept.pair patient fuel target name fun v listed =>
      ⟨passes v listed, (kept.known (known v listed)).2⟩
    rw [ran1, ran2] at concludes
    cases concludes with
    | finished outcome passage hands pair => exact ⟨_, kept.finish passage hands pair⟩

/-- Whenever collections happen, the host gets the same. -/
theorem Abreast.collection_transparent (abreast : Abreast Heap.Clean s1 s2 held) :
    s1.Indistinct held s2 ∧ ∀ (patient : Bool) (fuel : Nat) (target : ObjectId) (name : String)
      (args : List Value), (∀ v ∈ args, v.ref? = none ∨ v ∈ held) →
      (∀ v ∈ args, s1.world.heap.Clean v) →
      RunResult.Agree held (runFrom patient fuel (s1.call target name args))
        (runFrom patient fuel (s2.call target name args)) := by
  obtain ⟨G, kept⟩ := abreast.kept
  refine ⟨kept.indistinct, fun patient fuel target name args known clean => ?_⟩
  have concludes := call_concludes kept.pair patient fuel target name fun v listed =>
    ⟨clean v listed, (kept.known (known v listed)).2⟩
  generalize runFrom patient fuel (s1.call target name args) = r1 at concludes
  generalize runFrom patient fuel (s2.call target name args) = r2 at concludes
  cases concludes with
  | finished outcome passage hands pair =>
    exact .finished outcome (kept.finish passage hands pair).indistinct
  | blocked => exact .blocked
  | broken b => exact .broken b
  | exhausted => exact .exhausted

theorem Provision.made_array (s : State) (share : Share) (items : List Value) :
    (apply s (.payload share (.array items))).1 = some (.ref ⟨.array, s.world.heap.cells.size⟩) := by
  cases share <;> rfl

theorem Provision.cells_made_array (s : State) (share : Share) (items : List Value) :
    (apply s (.payload share (.array items))).2.world.heap.cells.size =
      s.world.heap.cells.size + 1 := by
  cases share with
  | here => exact (Heap.extended_place _ _ _).cells
  | loose | exempt _ => exact (Heap.extended_create _ _ _ _).cells

theorem shelf_literals : shelf.literals = [] := rfl

theorem library_abreast {Passes : Heap → Value → Prop} {inner outer : Share}
    (ready1 : library (.bare first) shelf inner outer = .ok s1)
    (ready2 : library (.bare second) shelf inner outer = .ok s2) :
    Abreast Passes s1 s2 [.ref ⟨.array, 0⟩, .ref ⟨.array, 1⟩] := by
  unfold library at ready1 ready2
  cases attached1 : attach (.bare first) with
  | error b => simp [attached1, bind, Except.bind] at ready1
  | ok pair1 =>
  cases attached2 : attach (.bare second) with
  | error b => simp [attached2, bind, Except.bind] at ready2
  | ok pair2 =>
  obtain ⟨thread1, world1⟩ := pair1
  obtain ⟨thread2, world2⟩ := pair2
  simp only [attached1, attached2, bind, Except.bind, pure, Except.pure, Except.ok.injEq]
    at ready1 ready2
  subst ready1 ready2
  have fresh := World.fresh_bare first
  obtain ⟨-, world⟩ := attach_settled fresh.blank attached1
  have size : world1.domains.size = 1 := by rw [world]; exact fresh.domains_settled _ _
  have empty : world1.heap.cells = #[] := by rw [world]; rfl
  have begin : Abreast Passes ⟨world1, thread1⟩ ⟨world2, thread2⟩ [] :=
    @Abreast.begin Passes _ _ _ second second second fresh attached1 attached2
  have founded := begin.provide (p := .domain "library") (by simp [Provision.Allowed, size])
    (by simp [values])
  have furnished := founded.provide (p := .object shelf 1) ⟨?_, shelf_plain, by simp [shelf_literals]⟩
    (by simp [values, shelf_literals])
  · have opened := furnished.provide (p := .payload inner (.array [.nil])) trivial
      (by simp [values, Draft.values, Value.ref?])
    have cells : ((object shelf 1).apply
        ((domain "library").apply ⟨world1, thread1⟩).2).2.world.heap.cells.size = 0 := by
      show world1.heap.cells.size = 0
      simp [empty]
    have lent := opened.provide (p := .payload outer (.array [.ref ⟨.array, 0⟩])) trivial
      (by simp [values, Draft.values, made_array, cells])
    simp only [made_array, cells_made_array, cells] at lent
    exact lent
  · show 1 < (world1.createDomain "library").2.domains.size
    rw [World.size_createDomain, size]
    decide

def Heap.Unshared (h : Heap) (v : Value) : Prop :=
  ∀ id, h.Accessible v id → ∃ a, h.aspect? id = some a ∧ a.shared = false

theorem Heap.ClosedBelow.unshared {h : Heap} {r : Ref} (closed : h.ClosedBelow n) (below : r.id < n)
    (own : ∀ id < n, (h.aspect? id).any (·.shared) = false) : h.Unshared (.ref r) := by
  intro id accessible
  obtain ⟨a, seen, -⟩ := closed.exists_aspect below accessible
  exact ⟨a, seen, by simpa [seen] using own id (closed.lt below accessible)⟩

/-- A call of the shelf, the first object there is, with the outer array. -/
def State.askShelf (s : State) (name : String) : RunResult :=
  runFrom true 24 (s.call ⟨.ofParts 1 0 1⟩ name [.ref ⟨.array, 1⟩])

/-- Something is put on the shelf, where collections come early and where they come late: the states
before, and the states after. -/
def stocked? (inner outer : Share) : Option ((State × State) × (State × State)) :=
  match library (.bare 1) shelf inner outer, library (.bare 1000) shelf inner outer with
  | .ok s1, .ok s2 =>
    match s1.askShelf "put", s2.askShelf "put" with
    | .finished (.returned .nil) s1', .finished (.returned .nil) s2' => some ((s1, s2), (s1', s2'))
    | _, _ => none
  | _, _ => none

theorem stocked?_abreast {Passes : Heap → Value → Prop} {inner outer : Share}
    (stocked : stocked? inner outer = some ((s1, s2), (s1', s2')))
    (passes : Passes s1.world.heap (.ref ⟨.array, 1⟩)) :
    Abreast Passes s1' s2' [.ref ⟨.array, 0⟩, .ref ⟨.array, 1⟩, .nil] := by
  unfold stocked? at stocked
  split at stocked
  · rename_i ready1 ready2
    split at stocked
    · rename_i ran1 ran2
      obtain ⟨before, after⟩ := Prod.mk.inj (some.inj stocked)
      obtain ⟨rfl, rfl⟩ := Prod.mk.inj before
      obtain ⟨rfl, rfl⟩ := Prod.mk.inj after
      exact (library_abreast ready1 ready2).call (by simp) (by simpa using passes) ran1 ran2
    · simp at stocked
  · simp at stocked

def RunResult.returned? : RunResult → Option Value
  | .finished (.returned v) _ => some v
  | _ => none

theorem RunResult.Agree.returned?_eq {r1 r2 : RunResult} (agree : Agree held r1 r2) :
    r2.returned? = r1.returned? := by
  cases agree with
  | finished outcome => cases outcome <;> rfl
  | blocked | broken | exhausted => rfl

/-- When the host owns both arrays, the domain has copies of them. These are collected early or late,
and nothing is taken from the shelf either way. -/
theorem Abreast.collection_transparent_shelf : ∃ s1 s2 : State,
    Abreast Heap.Clean s1 s2 [.ref ⟨.array, 0⟩, .ref ⟨.array, 1⟩, .nil] ∧
    s1.world.heap.live 6 = false ∧ s2.world.heap.live 6 = true ∧
    (s1.askShelf "take").returned? = some .nil ∧
    RunResult.Agree [.ref ⟨.array, 0⟩, .ref ⟨.array, 1⟩, .nil] (s1.askShelf "take")
      (s2.askShelf "take") := by
  have ran : (stocked? .here .here).any (fun q => (q.1.1.world.heap.ClosedBelow 2 ∧
      ∀ id < 2, q.1.1.world.heap.unowned id = false) ∧ (q.2.1.world.heap.ClosedBelow 2 ∧
      ∀ id < 2, q.2.1.world.heap.unowned id = false) ∧ q.2.1.world.heap.live 6 = false ∧
      q.2.2.world.heap.live 6 = true ∧ (q.2.1.askShelf "take").returned? = some .nil) = true := by
    decide +kernel
  obtain ⟨⟨⟨s1, s2⟩, s1', s2'⟩, stocked, passed⟩ := (any_eq_true _ _).mp ran
  obtain ⟨⟨closed, owned⟩, ⟨still, stillOwned⟩, freed, kept, taken⟩ := of_decide_eq_true passed
  have abreast := stocked?_abreast stocked (closed.clean (by decide) owned)
  refine ⟨s1', s2', abreast, freed, kept, taken, abreast.collection_transparent.2 true 24 _ _ _ ?_ ?_⟩
  · simp
  · simpa using still.clean (by decide) stillOwned

/-- When the outer array is constant, the domain has no copies. What it puts into the inner array is
then collected, unless collections come late. -/
theorem Abreast.not_transparent_of_constant_array : ∃ s1 s2 : State, ∃ held args : List Value,
    Abreast Heap.Unshared s1 s2 held ∧ (∀ v ∈ args, v.ref? = none ∨ v ∈ held) ∧
    (∀ v ∈ args, s1.world.heap.Unshared v) ∧ ∃ target name,
      ¬ RunResult.Agree held (runFrom true 24 (s1.call target name args))
        (runFrom true 24 (s2.call target name args)) := by
  have ran : (stocked? .here (.exempt .constant)).any (fun q => (q.1.1.world.heap.ClosedBelow 2 ∧
      ∀ id < 2, (q.1.1.world.heap.aspect? id).any (·.shared) = false) ∧
      (q.2.1.world.heap.ClosedBelow 3 ∧
      ∀ id < 3, (q.2.1.world.heap.aspect? id).any (·.shared) = false) ∧
      (q.2.1.askShelf "take").returned? = none ∧
      (q.2.2.askShelf "take").returned?.isSome = true) = true := by decide +kernel
  obtain ⟨⟨⟨s1, s2⟩, s1', s2'⟩, stocked, passed⟩ := (any_eq_true _ _).mp ran
  obtain ⟨⟨closed, own⟩, ⟨still, stillOwn⟩, lost, found⟩ := of_decide_eq_true passed
  refine ⟨s1', s2', _, [.ref ⟨.array, 1⟩], stocked?_abreast stocked (closed.unshared (by decide) own),
    by simp, by simpa using still.unshared (by decide) stillOwn, ⟨.ofParts 1 0 1⟩, "take",
    fun agree => ?_⟩
  have same : (s2'.askShelf "take").returned? = (s1'.askShelf "take").returned? := agree.returned?_eq
  rw [same, lost] at found
  simp at found

end Tenancy
