import Tenancy.Proofs.Host

/-!
Domains are isolated.

While programs are byte code with deeply constant literals, and the host passes arguments whose
constant containers hold constants only, all references in a domain are to constants or to payloads
of its own list: those in the slots of frames that run there, in the variables of its objects and in
the containers that it owns. A state is compared with itself: what a state and its twin have in
common is then all there is.
-/

namespace Tenancy

open List Heap Opcode

variable {S T : ListId} {G : Nat → Prop} {contexts : List DomainContext} {h : Heap} {s : State}
  {pending : List Pending}

theorem Heap.Suits.anywhere (suits : h.Suits G l v) :
    h.Suits (fun _ => False) l v := ⟨suits.isLocal, fun _ _ => id⟩

theorem Heap.Lasts.anywhere (lasts : h.Lasts G v) :
    h.Lasts (fun _ => False) v := ⟨lasts.steady, fun _ _ => id⟩

theorem State.Twin.diagonal (twin : State.Twin S T G contexts s s) :
    State.Twin S T (fun _ => False) contexts s s :=
  { twin with
    heap := twin.heap.diagonal
    stocked :=
      { lists := twin.stocked.lists
        storage := fun k o houses v held => (twin.stocked.storage k o houses v held).anywhere
        literals := fun o valid v literal => (twin.stocked.literals o valid v literal).anywhere
        defaults := fun f listed v default => (twin.stocked.defaults f listed v default).anywhere }
    tiled := twin.tiled.mono fun _ _ fits => fits.anywhere }

theorem Stance.diagonal (stance : Stance T G contexts s pending focus) :
    Stance T (fun _ => False) contexts s pending focus := by
  cases focus with
  | code | fault | rollingBack | unwinding | reentering | done => exact stance
  | native body =>
    obtain ⟨same, crewed, top, known, tame, fits⟩ := stance
    exact ⟨same, crewed, top, known, tame, fun v listed => (fits v listed).anywhere⟩
  | result v => exact ⟨stance.1, stance.2.1, stance.2.2.anywhere⟩
  | visiting domain target args errand =>
    obtain ⟨same, crewed, called, valid, suits⟩ := stance
    exact ⟨same, crewed, called, valid, fun v listed => (suits v listed).anywhere⟩
  | returning v => exact ⟨stance.1, stance.2.1, stance.2.2.anywhere⟩

theorem Stance.staffed (stance : Stance T G contexts s pending focus) :
    ∃ before, Staffed s.world.Runs before s.thread.frames contexts s.thread.stack.size := by
  cases focus with
  | code | native | result | visiting | rollingBack | returning | done =>
    obtain ⟨rfl, crewed, -⟩ := stance
    exact ⟨_, crewed⟩
  | fault =>
    obtain ⟨rfl, -, dropped, crewed⟩ := stance
    exact ⟨_, crewed⟩
  | unwinding | reentering => exact stance.2.1

/-- The value is at home in a domain: a scalar, a reference to a constant that nobody owns, or one to
a payload of the domain's own list. -/
def World.Own (w : World) (k : DomainKey) (v : Value) : Prop :=
  ∀ r, v = .ref r → w.heap.constant r.id = true ∧ w.heap.owner? r.id = none ∨
    w.heap.owner? r.id = some (w.domain k).values

structure State.Isolated (s : State) : Prop where
  /-- The domains, the host and what is on its way have lists of their own. -/
  lists : (s.thread.scratch :: s.thread.transfer :: s.world.domains.toList.map Domain.values).Nodup
  /-- Objects live in one domain. -/
  homes : ∀ o j k, s.world.Houses j o → s.world.Houses k o → j = k
  /-- The arguments and locals of a frame are at home in the domain that it runs in. -/
  slots : ∀ f ∈ s.thread.frames, ∃ k, s.world.Houses k f.object ∧ ∀ i v, f.argsBase ≤ i →
    i < f.localsBase + f.localCount → s.thread.stack[i]? = some v → s.world.Own k v
  members : ∀ k o, s.world.Houses k o → ∀ v ∈ (s.world.object o).members, s.world.Own k v
  contents : ∀ k < s.world.domains.size, ∀ id v,
    s.world.heap.owner? id = some (s.world.domain k).values → s.world.heap.Holds id v →
    s.world.Own k v

theorem Staffed.slots (staffed : Staffed runs pending frames contexts size)
    (tiled : Tiled fits stack contexts size) :
    ∀ f ∈ frames, ∃ c ∈ contexts, runs c.domain f ∧ ∀ i v, f.argsBase ≤ i →
      i < f.localsBase + f.localCount → stack[i]? = some v → fits c.domain v := by
  induction staffed with
  | host => simp
  | frame below belongs begins locals ends ih =>
    have starts := below.start_le _ (.head _)
    intro f listed
    rcases mem_cons.mp listed with rfl | lower
    · exact ⟨_, .head _, belongs, fun i v low high => tiled.2.1 i v (by omega) (by omega)⟩
    · exact ih ⟨starts, fun i v low high => tiled.2.1 i v low (by omega), tiled.2.2⟩ f lower
  | store _ ih => exact ih tiled
  | crossing begins _ ih =>
    intro f listed
    obtain ⟨c, mem, rest⟩ := ih (begins ▸ tiled.2.2) f listed
    exact ⟨c, .tail _ mem, rest⟩

theorem World.Orderly.nodup_lists {w : World} (orderly : w.Orderly S T) :
    (S :: T :: w.domains.toList.map Domain.values).Nodup := by
  have found : ∀ l ∈ w.domains.toList.map Domain.values, ∃ k < w.domains.size,
      (w.domain k).values = l := by
    intro l listed
    obtain ⟨d, mem, rfl⟩ := mem_map.mp listed
    obtain ⟨k, within, rfl⟩ := Array.mem_iff_getElem.mp (Array.mem_toList_iff.mp mem)
    exact ⟨k, within, by simp [World.domain, within]⟩
  refine nodup_cons.mpr ⟨?_, nodup_cons.mpr ⟨?_, ?_⟩⟩
  · intro listed
    rcases mem_cons.mp listed with same | among
    · exact orderly.apart same.symm
    · obtain ⟨k, within, same⟩ := found S among
      exact orderly.scratch k within same
  · intro listed
    obtain ⟨k, within, same⟩ := found T listed
    exact orderly.transfer k within same
  · rw [nodup_iff_pairwise_ne, pairwise_iff_getElem]
    intro j k first second less same
    simp only [length_map, Array.length_toList] at first second
    have equal : (w.domain j).values = (w.domain k).values := by
      simpa [World.domain, first, second] using same
    exact absurd (orderly.lists j first k second equal) less.ne

theorem State.Twin.isolated (twin : State.Twin S T G contexts s s)
    (staffed : Staffed s.world.Runs pending s.thread.frames contexts s.thread.stack.size) :
    s.Isolated := by
  have sane := twin.heap.first.consistent
  have own : ∀ {k v}, s.world.heap.Local (s.world.domain k).values v → s.world.Own k v := by
    rintro k v isLocal r rfl
    rcases isLocal with steady | ⟨r', same, owned⟩
    · exact .inl ⟨steady.constant, sane.owner?_of_constant steady.constant⟩
    · cases same
      exact .inr owned
  constructor
  case lists =>
    rw [twin.scratch, twin.transfer]
    exact twin.orderly.nodup_lists
  case homes =>
    intro o j k first second
    exact twin.orderly.ids first.domain second.domain (first.home.symm.trans second.home)
  case slots =>
    intro f listed
    obtain ⟨c, -, runs, slots⟩ := staffed.slots twin.tiled f listed
    exact ⟨c.domain, runs.houses, fun i v low high found => own (slots i v low high found).isLocal⟩
  case members =>
    intro k o houses v held
    exact own (twin.stocked.storage k o houses v held).isLocal
  case contents =>
    intro k valid id v owned held
    have kept : ¬ G id := fun spent => twin.heap.apart id spent
      ⟨_, owned, twin.orderly.scratch k valid⟩ ⟨_, owned, twin.orderly.scratch k valid⟩
    exact own (twin.heap.inside id _ v kept owned (twin.orderly.scratch k valid) held)

/-- A host that sets up byte code, makes domains, objects and payloads, and passes on arguments of a
property. -/
def Hosting.byteCode (Passes : Heap → Value → Prop) : Hosting where
  Begins s := ∃ w : World, w.Fresh ∧ Thread.attach w = .ok (s.thread, s.world)
  Acts s s' := ∃ p : Provision, p.Allowed s ∧ s' = (p.apply s).2
  Admits s args := ∀ v ∈ args, Passes s.world.heap v

/-- The phase is its own twin. -/
def Phase.Apart : Phase → Prop
  | .idle s => s.Pair ⟨1⟩ ⟨2⟩ (fun _ => False) s
  | .running m => (∃ contexts, m.Twin ⟨1⟩ ⟨2⟩ (fun _ => False) contexts m) ∧ m.Shaped Function.Tame

theorem Machine.Follows.diagonal (follows : Machine.Follows S T G h (.ok m) (.ok m)) :
    ∃ contexts, m.Twin S T (fun _ => False) contexts m := by
  cases follows with
  | ok _ _ twin => exact ⟨_, twin.state.diagonal, rfl, rfl, twin.stance.diagonal⟩

theorem Session.apart {phase : Phase} (session : Session (.byteCode Clean) phase) :
    phase.Apart := by
  have lawful : ∀ f : Function, f.Tame → f.Disciplined := fun _ => Function.Tame.disciplined
  induction session with
  | begin begins =>
    obtain ⟨w, fresh, attached⟩ := begins
    exact fresh.pair fresh rfl rfl attached attached
  | act _ acts pair =>
    obtain ⟨p, allowed, rfl⟩ := acts
    exact (pair.provide allowed fun _ _ _ _ => id).2
  | @call s m target name args _ admits called pair =>
    have follows := Machine.call_follows pair target name fun v listed =>
      ⟨admits v listed, fun _ _ => id⟩
    rw [called] at follows
    exact ⟨follows.diagonal, Machine.call_shaped lawful pair.idle called⟩
  | step _ stepped ih =>
    obtain ⟨⟨contexts, twin⟩, shaped⟩ := ih
    have marches := Machine.step_marches twin shaped
    rw [stepped] at marches
    cases marches with
    | next follows => exact ⟨follows.diagonal, shaped.step lawful stepped⟩
  | expire _ expired ih =>
    obtain ⟨⟨contexts, twin⟩, shaped⟩ := ih
    rcases Machine.expire_follows twin with ⟨none, -⟩ | ⟨n1, n2, first, second, follows⟩
    · rw [none] at expired
      cases expired
    · cases expired.symm.trans first
      cases expired.symm.trans second
      exact ⟨follows.diagonal, shaped.expire expired⟩
  | finish _ finished ih =>
    obtain ⟨⟨contexts, twin⟩, shaped⟩ := ih
    obtain ⟨focus, rfl⟩ := Machine.step_done_iff.mp finished
    exact twin.pair shaped focus

/-- In all states of a session domains hold what is constant and what is their own. -/
theorem Session.domains_isolated {phase : Phase} (session : Session (.byteCode Clean) phase) :
    phase.state.Isolated := by
  have apart := session.apart
  cases phase with
  | idle s => exact apart.twin.isolated apart.crewed
  | running m =>
    obtain ⟨⟨contexts, twin⟩, -⟩ := apart
    obtain ⟨before, staffed⟩ := twin.stance.staffed
    exact twin.state.isolated staffed

/-- Code that begins with the first item of its argument in the second local. -/
def withItem (rest : List Instruction) : Body :=
  .code (#[{ code := ldi.toByte, first := .local 0 },
    { code := idxGet.toByte, first := .local 1, second := .argument 0, third := .local 0 }]
      ++ rest.toArray)

/-- An object that is given an array with an array in it. It keeps the inner array, puts a new array
into that, or takes out what was put there. -/
def shelf : Program where
  name := "/shelf"
  ownVariables := [⟨"kept", .any⟩]
  constants := []
  functions := [
    { name := "keep", number := 0, locals := 2,
      body := withItem [{ code := mov.toByte, first := .member 0, second := .local 1 }] },
    { name := "put", number := 1, locals := 3,
      body := withItem [
        { code := mkEmptyArray.toByte, first := .local 2 },
        { code := idxSet.toByte, first := .local 1, second := .local 0,
          third := .local 2 }] },
    { name := "take", number := 2, locals := 3,
      body := withItem [
        { code := idxGet.toByte, first := .local 2, second := .local 1, third := .local 0 },
        { code := ret.toByte, first := .local 2 }] }]
  inherited := []

theorem shelf_plain : shelf.All Function.Plain := by
  intro q component f listed body native
  obtain rfl : q = shelf := mem_singleton.mp component
  simp only [shelf, mem_cons, not_mem_nil, or_false] at listed
  rcases listed with rfl | rfl | rfl <;> simp [withItem] at native

/-- A domain with an object. The host has an array in an array. -/
def library (w : World) (program : Program) (inner outer : Share) : Except Breach State := do
  let (thread, world) ← Thread.attach w
  let founded := (Provision.apply ⟨world, thread⟩ (.domain "library")).2
  let furnished := (Provision.apply founded (.object program 1)).2
  let opened := (Provision.apply furnished (.payload inner (.array [.nil]))).2
  return (Provision.apply opened (.payload outer (.array [.ref ⟨.array, 0⟩]))).2

def World.bare (threshold : Nat) : World where
  settings := { firstThreshold := threshold, minThreshold := threshold, maxThreshold := threshold }
  domainIds := .empty 1
  objectIds := .empty 1

theorem World.fresh_bare (threshold : Nat) : (bare threshold).Fresh :=
  ⟨⟨.refl, rfl, rfl, rfl, rfl, rfl, by simp [bare], by simp [bare]⟩, by simp [bare],
    fun id r held => absurd (within_of_holds held) (Nat.not_lt_zero id)⟩

theorem library_session {inner outer : Share} (fresh : w.Fresh) (plain : program.All Function.Plain)
    (literals : program.literals = []) (ready : library w program inner outer = .ok s) :
    Session (.byteCode Passes) (.idle s) := by
  unfold library at ready
  obtain ⟨thread, world, attached, ready⟩ := Thread.of_attach_bind ready
  cases ready
  have size : world.domains.size = 1 := by
    obtain ⟨-, rfl⟩ := Thread.attach_settled fresh.blank attached
    exact fresh.domains_settled _ _
  have begin : Session (.byteCode Passes) (.idle ⟨world, thread⟩) := .begin ⟨_, fresh, attached⟩
  have founded := begin.act ⟨.domain "library", by simp [Provision.Allowed, size], rfl⟩
  have furnished := founded.act ⟨.object program 1, ⟨?_, plain, by simp [literals]⟩, rfl⟩
  · have opened := furnished.act ⟨.payload inner (.array [.nil]), trivial, rfl⟩
    exact opened.act ⟨.payload outer (.array [.ref ⟨.array, 0⟩]), trivial, rfl⟩
  · show 1 < (world.createDomain "library").2.domains.size
    rw [World.size_createDomain, size]
    decide

/-- The shelf is given the outer array: the state before and after. -/
def lent? (inner outer : Share) : Option (State × State) :=
  match library (.bare 8) shelf inner outer with
  | .error _ => none
  | .ok s =>
    match Machine.runFrom true 16 (s.call (s.world.object 0).id "keep" [.ref ⟨.array, 1⟩]) with
    | .finished _ s' => some (s, s')
    | _ => none

theorem lent?_session {inner outer : Share} (lent : lent? inner outer = some (s, s'))
    (passes : Passes s.world.heap (.ref ⟨.array, 1⟩)) : Session (.byteCode Passes) (.idle s') := by
  unfold lent? at lent
  split at lent
  · simp at lent
  rename_i ready
  split at lent
  · rename_i ran
    obtain ⟨rfl, rfl⟩ := Prod.mk.inj (Option.some.inj lent)
    exact .runFrom_finished (library_session (World.fresh_bare 8) shelf_plain rfl ready)
      (fun v listed => mem_singleton.mp listed ▸ passes) ran
  · simp at lent

/-- The value leads to payloads that are not shared, and to constant ones that hold nothing owned. -/
def Heap.Unowning (h : Heap) (v : Value) : Prop :=
  ∀ id, h.Accessible v id → ∃ a, h.aspect? id = some a ∧ a.shared = false ∧
    (a.constant = true → ∀ r, h.Holds id (.ref r) → h.owner? r.id = none)

/-- There are `n` payloads, and the first `n` lead to no others. -/
def Heap.ClosedBelow (h : Heap) (n : Nat) : Prop :=
  n ≤ h.cells.size ∧ ∀ id < n, ∀ v ∈ Marking.childrenOf h id, ∀ r ∈ v.ref?, r.id < n

instance (h : Heap) (n : Nat) : Decidable (h.ClosedBelow n) := inferInstanceAs (Decidable (_ ∧ _))

namespace Heap.ClosedBelow

variable {h : Heap} {n id : Nat} {r : Ref}

section

variable (closed : h.ClosedBelow n) (below : r.id < n)
include closed below

theorem lt (accessible : h.Accessible (.ref r) id) : id < n := by
  induction accessible with
  | here same =>
    cases same
    exact below
  | within _ held ih => exact closed.2 _ ih _ (mem_childrenOf.mpr held) _ rfl

theorem exists_aspect (accessible : h.Accessible (.ref r) id) :
    ∃ a, h.aspect? id = some a ∧ h.unowned id = a.unowned := by
  have within := (closed.lt below accessible).trans_le closed.1
  obtain ⟨a, seen⟩ := Option.isSome_iff_exists.mp (aspect?_isSome.mpr within)
  exact ⟨a, seen, by rw [unowned_eq, seen]; rfl⟩

theorem clean (owned : ∀ id < n, h.unowned id = false) : h.Clean (.ref r) := by
  intro id accessible
  obtain ⟨a, seen, unowned⟩ := closed.exists_aspect below accessible
  have free : a.unowned = false := unowned.symm.trans (owned id (closed.lt below accessible))
  refine ⟨a, seen, fun isUnowned => ?_, fun constant => ?_⟩
  · simp [free] at isUnowned
  · simp [Aspect.unowned, constant] at free

end

end Heap.ClosedBelow

/-- From arrays that are the host's own the shelf keeps a copy. -/
theorem Session.domains_isolated_library : ∃ s : State,
    Session (.byteCode Clean) (.idle s) ∧ (s.world.object 0).members = #[.ref ⟨.array, 5⟩] ∧
    s.world.heap.owner? 5 = some (s.world.domain 1).values ∧ s.Isolated := by
  have ran : (lent? .here .here).any (fun lent => lent.1.world.heap.ClosedBelow 2 ∧
      (∀ id < 2, lent.1.world.heap.unowned id = false) ∧
      (lent.2.world.object 0).members = #[.ref ⟨.array, 5⟩] ∧
      lent.2.world.heap.owner? 5 = some (lent.2.world.domain 1).values) = true := by decide +kernel
  obtain ⟨⟨s, s'⟩, lent, passed⟩ := (Option.any_eq_true _ _).mp ran
  obtain ⟨closed, owned, kept, own⟩ := of_decide_eq_true passed
  have session := lent?_session lent (closed.clean (by decide) owned)
  exact ⟨s', session, kept, own, session.domains_isolated⟩

/-- From a constant array the shelf keeps what nobody owns. -/
theorem Session.not_isolated_of_constant_array : ∃ s : State,
    Session (.byteCode Unowning) (.idle s) ∧ ¬ s.Isolated := by
  have ran : (lent? .loose (.exempt .constant)).any (fun lent => lent.1.world.heap.ClosedBelow 2 ∧
      (∀ id < 2, (lent.1.world.heap.aspect? id).any (·.shared) = false ∧
        lent.1.world.heap.owner? id = none) ∧
      (lent.2.world.object 0).members = #[.ref ⟨.array, 0⟩] ∧
      lent.2.world.heap.constant 0 = false ∧ lent.2.world.heap.owner? 0 = none ∧
      1 < lent.2.world.domains.size ∧ 0 < lent.2.world.objects.size ∧
      (lent.2.world.object 0).domain = (lent.2.world.domain 1).id) = true := by decide +kernel
  obtain ⟨⟨s, s'⟩, lent, passed⟩ := (Option.any_eq_true _ _).mp ran
  obtain ⟨closed, owned, kept, changeable, loose, domain, object, home⟩ := of_decide_eq_true passed
  have unowning : s.world.heap.Unowning (.ref ⟨.array, 1⟩) := by
    intro id accessible
    obtain ⟨a, seen, -⟩ := closed.exists_aspect (by decide) accessible
    refine ⟨a, seen, ?_, fun _ r held => ?_⟩
    · simpa [seen] using (owned id (closed.lt (by decide) accessible)).1
    · exact (owned r.id (closed.lt (by decide) (.within accessible held))).2
  refine ⟨s', lent?_session lent unowning, fun isolated => ?_⟩
  have own := isolated.members 1 0 ⟨domain, object, home⟩ (.ref ⟨.array, 0⟩) (by simp [kept])
  rcases own _ rfl with ⟨constant, -⟩ | owner
  · simp [changeable] at constant
  · simp [loose] at owner

end Tenancy
