import Tenancy.Proofs.Machine.Breaches
import Tenancy.Proofs.Machine.Pile
import Tenancy.Proofs.Machine.Roaming

/-!
Threads that share a world.

A system is a world with the threads that are attached to it, each at rest or in a run. Its threads
take their steps in any order, threads come and go, and hosts do with the world what they like, save
that they keep off what threads are carrying from one domain to another. In every state of a system
each thread is where its focus says, and no two threads have a list in common.
-/

namespace Tenancy

open List State Option

variable {w w' : World} {P : Function → Prop} {t : Thread}

/-! ### Systems -/

inductive Task where
  | idle (thread : Thread)
  | running (thread : Thread) (focus : Focus) (pending : List Pending)

def Task.thread : Task → Thread
  | .idle t | .running t _ _ => t

def Task.phase (w : World) : Task → Phase
  | .idle t => .idle ⟨w, t⟩
  | .running t focus pending => .running ⟨⟨w, t⟩, focus, pending⟩

def Phase.task : Phase → Task
  | .idle s => .idle s.thread
  | .running m => .running m.thread m.focus m.pending

inductive Phase.Goes : Phase → Phase → Prop where
  | begin {s : State} {m : Machine} (begins : s.Begins m) : Goes (.idle s) (.running m)
  | step {m m' : Machine} (stepped : m.step = .next m') : Goes (.running m) (.running m')
  | expire {m m' : Machine} (expired : m.expire? = some m') : Goes (.running m) (.running m')
  | finish {m : Machine} {outcome : Outcome} {s : State} (finished : m.step = .done outcome s) :
      Goes (.running m) (.idle s)

structure System where
  world : World
  tasks : ThreadKey → Option Task

namespace System

def put (σ : System) (key : ThreadKey) (world : World) (task : Option Task) : System :=
  ⟨world, Function.update σ.tasks key task⟩

inductive Moves (P : Function → Prop) (σ : System) : System → Prop where
  | attach {t : Thread} {w : World} (attached : Thread.attach σ.world = .ok (t, w)) :
      Moves P σ (σ.put t.key w (some (.idle t)))
  | go {key : ThreadKey} {task : Task} {phase : Phase} (among : σ.tasks key = some task)
      (goes : (task.phase σ.world).Goes phase) :
      Moves P σ (σ.put key phase.state.world (some phase.task))
  | deed {w : World} (deed : σ.world.Deed P w)
      (carried : ∀ key task, σ.tasks key = some task →
        w.heap.list task.thread.transfer = σ.world.heap.list task.thread.transfer) :
      Moves P σ { σ with world := w }
  | forget {threads : List Thread} {held : List DomainKey}
      (all : ∀ key task, σ.tasks key = some task → task.thread ∈ threads) :
      Moves P σ { σ with world := σ.world.forget threads held }
  | release {key : ThreadKey} {t : Thread} (among : σ.tasks key = some (.idle t))
      (unwound : unwound ⟨σ.world, t⟩ = true) :
      Moves P σ (σ.put key (release ⟨σ.world, t⟩) none)

/-- The system can come about, from a world that has been set up and not been used. -/
def Reachable (P : Function → Prop) (σ : System) : Prop :=
  ∃ w : World, w.Blank P ∧ Relation.ReflTransGen (Moves P) ⟨w, fun _ => none⟩ σ

/-- A host that unwinds a thread cuts no window of a frame that stays. -/
def Heeds (σ σ' : System) : Prop := ∀ key t t' mark next pending, σ.tasks key = some (.idle t) →
  σ'.tasks key = some (.running t' (.unwinding mark next) pending) → t.height.Fits mark

/-- The system can come about in the care of such hosts. -/
def Tended (P : Function → Prop) (σ : System) : Prop := ∃ w : World, w.Blank P ∧
  Relation.ReflTransGen (fun σ σ' => Moves P σ σ' ∧ Heeds σ σ') ⟨w, fun _ => none⟩ σ

theorem Tended.reachable {σ : System} (tended : σ.Tended P) : σ.Reachable P := by
  obtain ⟨w, blank, path⟩ := tended
  exact ⟨w, blank, Relation.ReflTransGen.mono (fun _ _ => And.left) _ _ path⟩

theorem Tended.moves {σ σ' : System} (tended : σ.Tended P) (moves : σ.Moves P σ')
    (heeds : σ.Heeds σ') : σ'.Tended P := by
  obtain ⟨w, blank, path⟩ := tended
  exact ⟨w, blank, path.tail ⟨moves, heeds⟩⟩

end System

/-! ### Keys -/

/-- A key that nothing in the world refers to. -/
def World.Unknown (w : World) (key : ThreadKey) : Prop :=
  ∀ k, (w.domain k).holder ≠ some key ∧ w.windowsOf key k = []

/-- Keys that have not been given away are unknown. -/
def World.Keyed (w : World) : Prop := ∀ key : ThreadKey, w.threads < key.number → w.Unknown key

theorem World.Keyed.of (keyed : w.Keyed) (more : w.threads ≤ w'.threads)
    (holder : ∀ key : ThreadKey, w'.threads < key.number →
      ∀ k, (w'.domain k).holder = some key ↔ (w.domain k).holder = some key)
    (windows : ∀ key : ThreadKey, w'.threads < key.number → ∀ k, w'.windowsOf key k = w.windowsOf key k) :
    w'.Keyed := by
  intro key new k
  obtain ⟨free, none⟩ := keyed key (more.trans_lt new) k
  exact ⟨fun held => free ((holder key new k).mp held), (windows key new k).trans none⟩

theorem World.Keyed.lets (keyed : w.Keyed) (more : w.threads ≤ w'.threads)
    (lets : ∀ u : Thread, w'.threads < u.key.number → w.Lets u w') : w'.Keyed := by
  have spared : ∀ key : ThreadKey, w'.threads < key.number → w.Lets
      { key, domains := [], scratch := ⟨0⟩, transfer := ⟨0⟩, home := 0 } w' := fun _ new => lets _ new
  exact keyed.of more (fun key new => (spared key new).holder) fun key new => (spared key new).windows

theorem World.Keyed.does (keyed : w.Keyed) (does : w.Does P t w') (known : t.key.number ≤ w.threads) :
    w'.Keyed := by
  have other : ∀ key : ThreadKey, w'.threads < key.number → key ≠ t.key := by
    rintro key new rfl
    rw [does.threads] at new
    omega
  exact keyed.of does.threads.ge (fun key new => does.holder key (other key new))
    fun key new => does.windows key (other key new)

/-! ### Threads that come and go -/

/-- The world that a new thread finds: it has a key for it, a home and two lists. -/
def World.furnished (w : World) (name : String) : World :=
  ((w.newKey.2.createDomain name).2.newList.2).newList.2

theorem Thread.attach_furnished (attached : Thread.attach w = .ok (t, w')) :
    ∃ name, w' = (w.furnished name).hold w.domains.size t.key ∧ t =
      { key := ⟨w.threads + 1⟩, domains := [⟨w.domains.size, 0, 0⟩],
        scratch := ⟨w.heap.lists.size + 1⟩, transfer := ⟨w.heap.lists.size + 2⟩,
        home := w.domains.size } := by
  obtain ⟨rfl, rfl⟩ := Thread.attach_eq attached
  refine ⟨s!"home of {w.newKey.1.text}", rfl, ?_⟩
  simp [World.newKey, World.createDomain, World.newList, Heap.newList]

namespace World

variable {P : Function → Prop} {t u : Thread} {w w' : World}

theorem spares_furnished (u : Thread) (w : World) (name : String) : w.Spares u (w.furnished name) := by
  have keyed : w.Spares u w.newKey.2 :=
    .ofSame rfl rfl le_rfl (.of_eq rfl) (fun _ => .refl _) fun _ => rfl
  exact (keyed.trans (.createDomain u _ name)).trans ((Spares.newList u _).trans (.newList u _))

theorem Spares.attach (attached : Thread.attach w = .ok (t, w')) (other : u.key ≠ t.key) :
    w.Spares u w' := by
  obtain ⟨name, rfl, -⟩ := Thread.attach_furnished attached
  refine (spares_furnished u w name).trans (.modifyDomain (fun _ => rfl) ?_ rfl)
  have free : ((w.furnished name).domain w.domains.size).holder = none := by
    show ((w.newKey.2.createDomain name).2.domain w.domains.size).holder = none
    rw [domain_createDomain]
    exact if_pos rfl ▸ rfl
  simp [free, Ne.symm other]

theorem Sound.attach (sound : w.Sound P) (attached : Thread.attach w = .ok (t, w')) : w'.Sound P := by
  obtain ⟨name, rfl, -⟩ := Thread.attach_furnished attached
  have keyed : w.newKey.2.Sound P := { sound with }
  exact ((keyed.createDomain name).newList.newList).modifyDomain _ fun _ => rfl

theorem Keyed.attach (keyed : w.Keyed) (attached : Thread.attach w = .ok (t, w')) : w'.Keyed := by
  have threads : w'.threads = t.key.number ∧ t.key.number = w.threads + 1 := by
    obtain ⟨name, rfl, rfl⟩ := Thread.attach_furnished attached
    exact ⟨rfl, rfl⟩
  refine keyed.lets (by omega) fun u new => (Spares.attach attached fun same => ?_).toLets
  rw [same] at new
  omega

theorem attach_resting (sound : w.Sound P) (keyed : w.Keyed)
    (attached : Thread.attach w = .ok (t, w')) : Resting P ⟨w', t⟩ := by
  have soundNew := sound.attach attached
  obtain ⟨name, rfl, rfl⟩ := Thread.attach_furnished attached
  have unknown := keyed ⟨w.threads + 1⟩ (Nat.lt_succ_self _)
  have spares := spares_furnished
    { key := ⟨w.threads + 1⟩, domains := [], scratch := ⟨0⟩, transfer := ⟨0⟩, home := 0 } w name
  have lists : (w.furnished name).heap.lists.size = w.heap.lists.size + 3 := by
    simp [furnished, newKey, createDomain, newList, Heap.newList]
  have free : (w.furnished name).HeldBy ⟨w.threads + 1⟩ none := by
    intro k
    rw [spares.holder k]
    simp [(unknown k).1]
  have valid : w.domains.size < (w.furnished name).domains.size := by
    simp [furnished, newKey, createDomain, newList]
  have nothing : ∀ k, ((w.furnished name).hold w.domains.size ⟨w.threads + 1⟩).windowsOf
      ⟨w.threads + 1⟩ k = [] := by
    intro k
    rw [windowsOf_hold, spares.windows k]
    exact (unknown k).2
  refine ⟨⟨⟨soundNew, ?_, ?_⟩, ?_, ?_, ?_, Nat.zero_le _, ?_, by simp, .refl (by simp), .refl _ _⟩,
    ?_, ?_⟩
  · show w.heap.lists.size + 1 < (w.furnished name).heap.lists.size
    omega
  · show w.heap.lists.size + 2 < (w.furnished name).heap.lists.size
    omega
  · simp
  · -- The list of the home is older than those of the thread.
    intro k within same
    have housed : (w.newKey.2.createDomain name).2.Sound P :=
      Sound.createDomain (w := w.newKey.2) { sound with } name
    have older := housed.lists k (by simpa [hold, furnished, newList] using within)
    have values : (((w.furnished name).hold w.domains.size ⟨w.threads + 1⟩).domain k).values =
        ((w.newKey.2.createDomain name).2.domain k).values := by
      rw [hold, domain_modifyDomain]
      split <;> rfl
    rw [← values, same] at older
    simp [newKey, createDomain, newList, Heap.newList] at older
  · show w.domains.size < ((w.furnished name).hold w.domains.size _).domains.size
    simpa [hold] using valid
  · exact Nat.le_max_left _ _
  · exact free.hold valid
  · intro k i
    rw [windowsAt, nothing]
    simp

/-! ### What hosts do -/

theorem Deed.lets (deed : w.Deed P w') (sound : w.Sound P) (u : Thread) : w.Lets u w' := by
  have more := ((deed.kept sound).2.1.size_le sound.heap).2
  cases deed with
  | heap | equip | nameObject => exact .ofSame rfl rfl more (.of_eq rfl) fun _ => .refl _
  | createDomain name => exact (Spares.createDomain u w name).toLets
  | newObject all k =>
    exact .ofSame rfl (size_domains_newObject _ _ _) more (.newObject _ _ _) fun j =>
      same_newObject _ _ k j
  | setMember id slot v =>
    have retains := Retains.setMember w id slot v
    unfold World.setMember at *
    split
    · exact (Spares.refl u w).toLets
    · rename_i found
      rw [found] at retains
      exact .ofSame rfl rfl le_rfl retains fun _ => .refl _
  | destruct id =>
    exact .ofSame (settings_destruct _ _) (size_domains_destruct _ _) more (.destruct _ _) fun j =>
      same_destruct _ _ j
  | destroyDomain destroyed =>
    rcases destroyDomain_cases destroyed with rfl | ⟨k, -, rfl⟩
    · exact (Spares.refl u _).toLets
    · exact .ofSame rfl rfl more (.of_eq rfl) fun _ => .refl _
  | collect k roots =>
    exact .ofSame rfl (size_domains_modifyDomain _ _ _) more (.of_eq rfl) fun j =>
      same_collect _ _ roots j

theorem Deed.threads (deed : w.Deed P w') : w'.threads = w.threads := by
  cases deed with
  | destruct id => exact threads_destruct w id
  | setMember id slot v =>
    unfold World.setMember
    split <;> rfl
  | destroyDomain destroyed =>
    rcases destroyDomain_cases destroyed with rfl | ⟨k, -, rfl⟩
    · rfl
    · rfl
  | _ => rfl

/-- Forgetting clears domains that no thread holds and ends objects, one at a time. -/
theorem forget_induct {motive : World → Prop} {threads : List Thread} (start : motive w)
    (clear : ∀ w' k staying, motive w' → k < w.domains.size → k ∉ threads.flatMap Thread.held →
      motive (({ w' with heap := w'.heap.freeAll (w'.domain k).values } : World).modifyDomain k
        fun d => { d with members := staying, parked := [] }))
    (strike : ∀ w' o, motive w' → motive (w'.modifyObject o fun o => { o with ended := true })) :
    motive (w.forget threads held) := by
  unfold World.forget World.endForgotten
  refine foldlRecOn _ _ start fun w' before k listed => ?_
  split
  · rename_i ends
    simp only [Bool.and_eq_true, Bool.not_eq_true', contains_eq_mem, mem_append,
      decide_eq_false_iff_not, not_or] at ends
    exact foldlRecOn _ _ (clear w' k _ before (mem_range.mp listed) ends.2.2) fun w' before m _ =>
      strike w' m.2 before
  · exact before

theorem Spares.forget {threads : List Thread}
    (absent : ∀ k ∉ threads.flatMap Thread.held, w.windowsOf u.key k = []) :
    w.Spares u (w.forget threads held) := by
  refine forget_induct (.refl u w) (fun w' k _ spares valid free => ?_) fun w' o spares => ?_
  · have freed : w'.Spares u { w' with heap := w'.heap.freeAll (w'.domain k).values } :=
      .ofSame rfl rfl (by simp) (.of_eq rfl) (fun _ => .refl _) fun outlying =>
        Heap.list_freeAll_of_ne (outlying k (valid.trans_le spares.size)).symm _
    have none := (spares.windows k).trans (absent k free)
    exact spares.trans (freed.trans (.modifyDomain (fun _ => rfl) Iff.rfl none.symm))
  · have retains : w'.Retains (w'.modifyObject o fun o => { o with ended := true }) :=
      .modifyObject _ _ fun _ => rfl
    exact spares.trans (.ofSame rfl rfl le_rfl retains (fun _ => .refl _) fun _ => rfl)

theorem Sound.forget (sound : w.Sound P) (threads : List Thread) (held : List DomainKey) :
    (w.forget threads held).Sound P :=
  forget_induct sound
    (fun _ k _ sound _ _ => (sound.withHeap (.single (.freeAll _ _))).modifyDomain k fun _ => rfl)
    fun _ o sound => sound.modifyObject o (fun _ => rfl) fun _ => rfl

theorem threads_forget (w : World) (threads : List Thread) (held : List DomainKey) :
    (w.forget threads held).threads = w.threads :=
  forget_induct (motive := fun w' => w'.threads = w.threads) rfl (fun _ _ _ same _ _ => same)
    fun _ _ same => same

end World

namespace State

variable {P : Function → Prop} {s : State} {u : Thread}

theorem destroyDomain_does {w w' : World} (sound : w.Sound P) {id : DomainId}
    (destroyed : w.destroyDomain id = .ok w') : w.Does P u w' := by
  rcases World.destroyDomain_cases destroyed with rfl | ⟨k, found, rfl⟩
  · exact .refl _ _
  · have frees : w.Does P u { w with heap := w.heap.freeAll (w.domain k).values } :=
      .withHeap sound (.single (.freeAll _ _)) fun l outlying _ _ =>
        Heap.list_freeAll_of_ne (outlying k (sound.findDomain? found)).symm _
    exact { frees with
      sound := fun _ => sound.destroyDomain destroyed
      objects := .of_eq rfl }

/-- A thread that ends leaves its home and gives up its lists. -/
theorem release_does (sound : s.world.Sound P) : s.world.Does P s.thread s.release := by
  unfold release
  dsimp only
  have leaves : s.world.Does P s.thread
      (if (s.world.domain s.thread.home).holder = some s.thread.key then
        s.world.modifyDomain s.thread.home fun d => { d with holder := none }
      else s.world) := by
    split
    · rename_i held
      exact .modifyDomain (fun _ => rfl) (fun key other => by simp [held, Ne.symm other]) fun _ _ => rfl
    · exact .refl _ _
  generalize (if (s.world.domain s.thread.home).holder = some s.thread.key then
        s.world.modifyDomain s.thread.home fun d => { d with holder := none }
      else s.world) = w at leaves ⊢
  have frees : w.Does P s.thread (w.modifyHeap (·.freeAll s.thread.scratch)) :=
    .withHeap (leaves.sound sound) (.single (.freeAll _ _)) fun _ _ notScratch _ =>
      Heap.list_freeAll_of_ne notScratch _
  have before := leaves.trans frees
  have last : ∀ {w' : World}, s.world.Does P s.thread w' →
      s.world.Does P s.thread (w'.modifyHeap (·.freeAll s.thread.transfer)) := fun does =>
    does.trans (.withHeap (does.sound sound) (.single (.freeAll _ _)) fun _ _ _ notTransfer =>
      Heap.list_freeAll_of_ne notTransfer _)
  split
  · exact last (before.trans (destroyDomain_does (before.sound sound) ‹_›))
  · exact last before

end State

/-! ### Order in a system -/

/-- The thread, but for what is on its stacks. -/
def Thread.Alike (t t' : Thread) : Prop :=
  t' = { t with stack := t'.stack, frames := t'.frames, domains := t'.domains }

/-- Neither thread has the way of the other among its lists. -/
structure Thread.Apart (t u : Thread) : Prop where
  scratch : t.transfer ≠ u.scratch
  transfer : t.transfer ≠ u.transfer
  way : u.transfer ≠ t.scratch

theorem Thread.Apart.symm {u : Thread} (apart : t.Apart u) : u.Apart t :=
  ⟨apart.way, apart.transfer.symm, apart.scratch⟩

theorem World.Does.alike (does : w.Does P t' w') (alike : t.Alike t') : w.Does P t w' := by
  rw [alike] at does
  exact { does with }

theorem Machine.Roams.does {s : State} {m : Machine} (roams : m.Roams P s) :
    s.world.Does P s.thread m.world :=
  roams.regular.does.alike roams.regular.upon.thread

namespace Phase

variable {P : Function → Prop} {phase : Phase}

/-- The thread rests, or is where its focus says. If natives pass faults on, its run has a footing. -/
def Orderly (P : Function → Prop) : Phase → Prop
  | .idle s => s.Resting P
  | .running m => m.Roams P m.toState ∧
      ((∀ f, P f → f.Honest) → ∃ origin, m.Rests P m.world origin)

theorem Orderly.sound (orderly : phase.Orderly P) : phase.state.Sound P := by
  cases phase with
  | idle => exact orderly.regular.sound
  | running => exact orderly.1.regular.sound

theorem Orderly.placed (orderly : phase.Orderly P) : phase.state.Inside ∨ phase.state.Between := by
  cases phase with
  | idle => exact .inl orderly.inside
  | running => exact orderly.1.inside.symm.imp_right orderly.1.between

/-- What a thread does next keeps to its order, and is what a thread may do. -/
theorem Orderly.goes {phase' : Phase} (orderly : phase.Orderly P) (goes : phase.Goes phase') :
    phase'.Orderly P ∧ phase.state.world.Does P phase.state.thread phase'.state.world ∧
      phase.state.thread.Alike phase'.state.thread := by
  cases goes with
  | begin begins =>
    have roams := (Resting.ventures orderly begins).toRoams
    refine ⟨⟨roams.anew, fun lawful => ?_⟩, roams.does, roams.regular.upon.thread⟩
    obtain ⟨origin, rests⟩ := Resting.begins lawful orderly begins
    exact ⟨origin, rests.anew⟩
  | step stepped =>
    have roams := orderly.1.step stepped
    refine ⟨⟨roams.anew, fun lawful => ?_⟩, roams.does, roams.regular.upon.thread⟩
    obtain ⟨origin, rests⟩ := orderly.2 lawful
    exact ⟨origin, (rests.step lawful stepped).anew⟩
  | expire expired =>
    have roams := orderly.1.expire expired
    refine ⟨⟨roams.anew, fun lawful => ?_⟩, roams.does, roams.regular.upon.thread⟩
    obtain ⟨origin, rests⟩ := orderly.2 lawful
    exact ⟨origin, (rests.expire expired).anew⟩
  | finish finished =>
    obtain ⟨focus, rfl⟩ := Machine.step_done_iff.mp finished
    exact ⟨orderly.1.regular.resting (orderly.1.inside.resolve_left (by rw [focus]; exact id)),
      .refl _ _, rfl⟩

end Phase

theorem Task.state_phase (task : Task) (w : World) : (task.phase w).state = ⟨w, task.thread⟩ := by
  cases task <;> rfl

theorem Phase.phase_task (phase : Phase) : phase.task.phase phase.state.world = phase := by
  cases phase <;> rfl

theorem Phase.thread_task (phase : Phase) : phase.task.thread = phase.state.thread := by
  cases phase <;> rfl

theorem Task.spared {task : Task} (orderly : (task.phase w).Orderly P) (spares : w.Spares task.thread w')
    (sound : w'.Sound P) : (task.phase w').Orderly P := by
  cases task with
  | idle t => exact Resting.lets orderly spares.toLets sound
  | running t focus pending =>
    refine ⟨orderly.1.spared spares sound, fun lawful => ?_⟩
    obtain ⟨origin, rests⟩ := orderly.2 lawful
    exact ⟨origin, rests.spared spares sound⟩

namespace System

variable {P : Function → Prop} {σ σ' : System} {key : ThreadKey} {w : World} {task : Task} {t : Thread}
  {phase : Phase} {patient : Bool} {fuel : Nat} {m m' : Machine}

/-- Each thread keeps to its order, has a key of its own and is apart from the others. -/
structure Orderly (P : Function → Prop) (σ : System) : Prop where
  sound : σ.world.Sound P
  keyed : σ.world.Keyed
  key : ∀ key task, σ.tasks key = some task → task.thread.key = key
  known : ∀ key task, σ.tasks key = some task → key.number ≤ σ.world.threads
  phase : ∀ key task, σ.tasks key = some task → (task.phase σ.world).Orderly P
  apart : ∀ key key' task task', key ≠ key' → σ.tasks key = some task → σ.tasks key' = some task' →
    task.thread.Apart task'.thread

theorem tasks_put (σ : System) (key key' : ThreadKey) (w : World) (task : Option Task) :
    (σ.put key w task).tasks key' = if key' = key then task else σ.tasks key' := by
  unfold put
  dsimp only
  rw [Function.update_apply]

theorem Orderly.spared (orderly : σ.Orderly P) (sound : σ'.world.Sound P) (keyed : σ'.world.Keyed)
    (threads : σ.world.threads ≤ σ'.world.threads)
    (stays : ∀ key task, σ'.tasks key = some task → σ.tasks key = some task)
    (spares : ∀ key task, σ'.tasks key = some task → σ.world.Spares task.thread σ'.world) :
    σ'.Orderly P where
  sound := sound
  keyed := keyed
  key key task among := orderly.key key task (stays key task among)
  known key task among := (orderly.known key task (stays key task among)).trans threads
  phase key task among :=
    Task.spared (orderly.phase key task (stays key task among)) (spares key task among) sound
  apart key key' task task' ne among among' :=
    orderly.apart key key' task task' ne (stays key task among) (stays key' task' among')

theorem Orderly.put (orderly : σ.Orderly P) (sound : w.Sound P) (keyed : w.Keyed)
    (threads : σ.world.threads ≤ w.threads) (own : task.thread.key = key)
    (known : key.number ≤ w.threads) (phase : (task.phase w).Orderly P)
    (others : ∀ key' task', key' ≠ key → σ.tasks key' = some task' →
      σ.world.Spares task'.thread w ∧ task'.thread.Apart task.thread) :
    (σ.put key w (some task)).Orderly P where
  sound := sound
  keyed := keyed
  key key' task' among := by
    rw [tasks_put] at among
    split at among
    · rename_i same
      cases among
      exact own.trans same.symm
    · exact orderly.key key' task' among
  known key' task' among := by
    rw [tasks_put] at among
    split at among
    · rename_i same
      exact same ▸ known
    · exact (orderly.known key' task' among).trans threads
  phase key' task' among := by
    rw [tasks_put] at among
    split at among
    · cases among
      exact phase
    · rename_i other
      exact Task.spared (orderly.phase key' task' among) (others key' task' other among).1 sound
  apart key1 key2 task1 task2 ne among1 among2 := by
    rw [tasks_put] at among1 among2
    split at among1
    · rename_i same
      rw [if_neg fun same' => ne (same.trans same'.symm)] at among2
      cases among1
      exact (others key2 task2 (fun same' => ne (same.trans same'.symm)) among2).2.symm
    · rename_i other
      split at among2
      · cases among2
        exact (others key1 task1 other among1).2
      · exact orderly.apart key1 key2 task1 task2 ne among1 among2

theorem Orderly.attach (orderly : σ.Orderly P) (attached : Thread.attach σ.world = .ok (t, w)) :
    (σ.put t.key w (some (.idle t))).Orderly P := by
  have resting := World.attach_resting orderly.sound orderly.keyed attached
  have fresh : t.key.number = σ.world.threads + 1 ∧ w.threads = σ.world.threads + 1 ∧
      t.scratch.number = σ.world.heap.lists.size + 1 ∧
      t.transfer.number = σ.world.heap.lists.size + 2 := by
    obtain ⟨name, rfl, rfl⟩ := Thread.attach_furnished attached
    exact ⟨rfl, rfl, rfl, rfl⟩
  obtain ⟨number, threads, scratch, transfer⟩ := fresh
  refine orderly.put (orderly.sound.attach attached) (orderly.keyed.attach attached) (by omega) rfl
    (by omega) resting fun key task other among => ?_
  have own := orderly.key key task among
  have sound := (orderly.phase key task among).sound
  rw [Task.state_phase] at sound
  have newer : ∀ l : ListId, l.number < σ.world.heap.lists.size → l ≠ t.scratch ∧ l ≠ t.transfer := by
    intro l old
    constructor
    · rintro rfl
      omega
    · rintro rfl
      omega
  exact ⟨.attach attached (own ▸ other), (newer _ sound.transfer).1, (newer _ sound.transfer).2,
    (newer _ sound.scratch).2.symm⟩

section

variable (orderly : σ.Orderly P) (among : σ.tasks key = some task)
include orderly among

theorem Orderly.go_spares (goes : (task.phase σ.world).Goes phase) (other : key' ≠ key)
    (among' : σ.tasks key' = some task') : σ.world.Spares task'.thread phase.state.world := by
  obtain ⟨-, does, -⟩ := (orderly.phase key task among).goes goes
  rw [Task.state_phase] at does
  have apart := orderly.apart key' key task' task other among' among
  have own := orderly.key key task among
  have own' := orderly.key key' task' among'
  exact .ofDoes does (fun same => other (own' ▸ same.trans own)) apart.scratch apart.transfer

theorem Orderly.go (goes : (task.phase σ.world).Goes phase) :
    (σ.put key phase.state.world (some phase.task)).Orderly P := by
  obtain ⟨next, does, alike⟩ := (orderly.phase key task among).goes goes
  rw [Task.state_phase] at does alike
  have own := orderly.key key task among
  have known := orderly.known key task among
  refine orderly.put (does.sound orderly.sound)
    (orderly.keyed.does does (own ▸ known)) does.threads.ge ?_
    (does.threads ▸ known) ?_ fun key' task' other among' => ?_
  · rw [Phase.thread_task, alike]
    exact own
  · rw [Phase.phase_task]
    exact next
  · have apart := orderly.apart key' key task' task other among' among
    refine ⟨orderly.go_spares among goes other among', ?_⟩
    rw [Phase.thread_task, alike]
    exact { apart with }

end

section

variable (orderly : σ.Orderly P)
include orderly

theorem Orderly.deed (deed : σ.world.Deed P w) (carried : ∀ key task, σ.tasks key = some task →
    w.heap.list task.thread.transfer = σ.world.heap.list task.thread.transfer) :
    Orderly P { σ with world := w } := by
  have lets := deed.lets orderly.sound
  have threads := deed.threads
  exact orderly.spared (deed.kept orderly.sound).1
    (orderly.keyed.lets threads.ge fun u _ => lets u) threads.ge
    (fun _ _ => id) fun key task among => ⟨lets task.thread, fun _ _ => carried key task among⟩

theorem Orderly.windowsOf_eq_nil (among : σ.tasks key = some task) (absent : k ∉ task.thread.held) :
    σ.world.windowsOf task.thread.key k = [] := by
  have placed := (orderly.phase key task among).placed
  rw [Task.state_phase] at placed
  have parks : ∃ contexts, contexts <:+ task.thread.domains ∧
      σ.world.Parks task.thread.key contexts := by
    rcases placed with inside | between
    · obtain ⟨below, domains⟩ := inside.cons
      exact ⟨below, ⟨[_], domains.symm⟩, (inside.seats domains).2⟩
    · exact ⟨_, suffix_rfl, between.parks⟩
  obtain ⟨contexts, suffix, parks⟩ := parks
  rw [eq_nil_iff_forall_not_mem]
  intro p parked
  obtain ⟨c, listed, here⟩ := mem_map.mp (parks.mem_domains parked)
  exact absent (mem_cons_of_mem _ (mem_map.mpr ⟨c, suffix.subset listed, here⟩))

theorem Orderly.forget_spares (held : List DomainKey)
    (all : ∀ key task, σ.tasks key = some task → task.thread ∈ threads)
    (among : σ.tasks key = some task) : σ.world.Spares task.thread (σ.world.forget threads held) :=
  .forget fun _ absent => orderly.windowsOf_eq_nil among fun held =>
    absent (mem_flatMap.mpr ⟨_, all key task among, held⟩)

theorem Orderly.forget (all : ∀ key task, σ.tasks key = some task → task.thread ∈ threads) :
    Orderly P { σ with world := σ.world.forget threads held } := by
  have same := World.threads_forget σ.world threads held
  refine orderly.spared (orderly.sound.forget threads held) ?_ same.ge
    (fun _ _ => id) fun key task among => orderly.forget_spares held all among
  -- No window of an unknown key is parked anywhere.
  exact orderly.keyed.lets same.ge fun u new =>
    (World.Spares.forget fun k _ => (orderly.keyed u.key (same ▸ new) k).2).toLets

theorem Orderly.release_spares (among : σ.tasks key = some (.idle t)) (other : key' ≠ key)
    (among' : σ.tasks key' = some task) : σ.world.Spares task.thread (release ⟨σ.world, t⟩) := by
  have apart := orderly.apart key' key task _ other among' among
  have own : t.key = key := orderly.key key _ among
  have own' := orderly.key key' task among'
  exact .ofDoes (release_does (s := ⟨σ.world, t⟩) orderly.sound)
    (fun same => other (own' ▸ same.trans own)) apart.scratch apart.transfer

theorem Orderly.release (among : σ.tasks key = some (.idle t)) :
    (σ.put key (release ⟨σ.world, t⟩) none).Orderly P := by
  have does := release_does (s := ⟨σ.world, t⟩) orderly.sound
  have own : t.key = key := orderly.key key _ among
  have known := orderly.known key _ among
  have stays : ∀ key' task, (σ.put key (State.release ⟨σ.world, t⟩) none).tasks key' = some task →
      key' ≠ key ∧ σ.tasks key' = some task := by
    intro key' task among'
    rw [tasks_put] at among'
    split at among'
    · simp at among'
    · exact ⟨‹_›, among'⟩
  exact orderly.spared (does.sound orderly.sound) (orderly.keyed.does does (own ▸ known))
    does.threads.ge (fun key' task among' => (stays key' task among').2)
    fun key' task among' => orderly.release_spares among (stays key' task among').1
      (stays key' task among').2

end

/-- Whatever happens in a system keeps it in order. -/
theorem Orderly.moves (orderly : σ.Orderly P) (moves : σ.Moves P σ') : σ'.Orderly P := by
  cases moves with
  | attach attached => exact orderly.attach attached
  | go among goes => exact orderly.go among goes
  | deed deed carried => exact orderly.deed deed carried
  | forget all => exact orderly.forget all
  | release among => exact orderly.release among

theorem orderly_blank (blank : w.Blank P) : Orderly P ⟨w, fun _ => none⟩ where
  sound := blank.sound
  keyed key _ k := by
    have missing : w.domain k = default := World.domain_of_missing (by simp [blank.domains])
    refine ⟨?_, ?_⟩
    · rw [missing]
      simp [default]
    · exact World.windowsOf_of_missing (by simp [blank.domains])
  key := by simp
  known := by simp
  phase := by simp
  apart := by simp

theorem Reachable.orderly (reachable : σ.Reachable P) : σ.Orderly P := by
  obtain ⟨w, blank, path⟩ := reachable
  induction path with
  | refl => exact orderly_blank blank
  | tail _ moves ih => exact ih.moves moves

theorem Reachable.moves (reachable : σ.Reachable P) (moves : σ.Moves P σ') : σ'.Reachable P := by
  obtain ⟨w, blank, path⟩ := reachable
  exact ⟨w, blank, path.tail moves⟩

/-! ### Runs in a system -/

def place (σ : System) (key : ThreadKey) (phase : Phase) : System :=
  σ.put key phase.state.world (some phase.task)

def Busy (σ : System) (key : ThreadKey) : Prop :=
  ∃ t focus pending, σ.tasks key = some (.running t focus pending)

/-- What happens while a thread is in a run, and what it does itself. -/
def During (P : Function → Prop) (key : ThreadKey) : System → System → Prop :=
  Relation.ReflTransGen fun σ σ' => σ.Moves P σ' ∧ σ'.Busy key

theorem During.reachable (during : During P key σ σ') (reachable : σ.Reachable P) : σ'.Reachable P := by
  induction during with
  | refl => exact reachable
  | tail _ moves ih => exact ih.moves moves.1

theorem tasks_place (σ : System) (key : ThreadKey) (phase : Phase) :
    (σ.place key phase).tasks key = some phase.task := by
  rw [place, tasks_put, if_pos rfl]

theorem heeds_place
    (fits : ∀ s m mark next, phase = .idle s → phase' = .running m → m.focus = .unwinding mark next →
      s.thread.height.Fits mark) : (σ.place key phase).Heeds (σ.place key phase') := by
  intro key' t t' mark next pending idle running
  rw [place, tasks_put] at idle running
  split at idle
  · rename_i same
    rw [if_pos same] at running
    cases phase with
    | running => simp [Phase.task] at idle
    | idle s =>
      obtain rfl := Task.idle.inj (some.inj idle)
      cases phase' with
      | idle => simp [Phase.task] at running
      | running m =>
        obtain ⟨-, focus, -⟩ := Task.running.inj (some.inj running)
        exact fits s m mark next rfl rfl focus
  · rename_i other
    rw [if_neg other, idle] at running
    simp at running

theorem Tended.deed {w' : World} (tended : (σ.place key (.idle ⟨w, t⟩)).Tended P) (deed : w.Deed P w')
    (same : ∀ l, w'.heap.list l = w.heap.list l) : (σ.place key (.idle ⟨w', t⟩)).Tended P := by
  refine tended.moves (.deed deed fun _ _ _ => same _) fun key t t' mark next pending idle running => ?_
  cases idle.symm.trans running

theorem place_place (σ : System) (key : ThreadKey) (phase phase' : Phase) :
    (σ.place key phase).place key phase' = σ.place key phase' := by
  simp [place, put]

theorem Moves.place (goes : phase.Goes phase') :
    (σ.place key phase).Moves P (σ.place key phase') := by
  rw [← place_place σ key phase phase']
  refine .go (tasks_place σ key phase) ?_
  show (phase.task.phase phase.state.world).Goes phase'
  rw [Phase.phase_task]
  exact goes

section

variable (orderly : σ.Orderly P) (moves : σ.Moves P σ')
include orderly moves

/-- What happens in a system is done by a thread that stays in it, or spares it. -/
theorem Orderly.own_or_spared (among : σ.tasks key = some task) (among' : σ'.tasks key = some task') :
    (∃ phase, (task.phase σ.world).Goes phase ∧ task' = phase.task ∧
      σ'.world = phase.state.world) ∨ task' = task ∧ σ.world.Spares task.thread σ'.world := by
  have stays : σ'.tasks key = σ.tasks key → task' = task := fun same =>
    some.inj (among'.symm.trans (same.trans among))
  cases moves with
  | @attach t w attached =>
    have other : key ≠ t.key := by
      rintro rfl
      have known := orderly.known _ task among
      obtain ⟨name, -, rfl⟩ := Thread.attach_furnished attached
      exact absurd known (Nat.not_succ_le_self _)
    have own := orderly.key key task among
    exact .inr ⟨stays (by rw [tasks_put, if_neg other]), .attach attached (own ▸ other)⟩
  | @go key' _ phase runs goes =>
    by_cases same : key = key'
    · subst same
      obtain rfl := some.inj (among.symm.trans runs)
      rw [tasks_put, if_pos rfl] at among'
      exact .inl ⟨phase, goes, (some.inj among').symm, rfl⟩
    · exact .inr ⟨stays (by rw [tasks_put, if_neg same]), orderly.go_spares runs goes same among⟩
  | deed deed carried =>
    exact .inr ⟨stays rfl, deed.lets orderly.sound task.thread, fun _ _ => carried key task among⟩
  | forget all => exact .inr ⟨stays rfl, orderly.forget_spares _ all among⟩
  | @release key' t idle =>
    have other : key ≠ key' := by
      rintro rfl
      rw [tasks_put, if_pos rfl] at among'
      simp at among'
    exact .inr ⟨stays (by rw [tasks_put, if_neg other]), orderly.release_spares idle other among⟩

/-- A run goes on, or is spared by what happens. -/
theorem Orderly.run_moves (among : σ.tasks key = some (.running t focus pending))
    (among' : σ'.tasks key = some (.running t' focus' pending')) :
    Machine.step ⟨⟨σ.world, t⟩, focus, pending⟩ = .next ⟨⟨σ'.world, t'⟩, focus', pending'⟩ ∨
    Machine.expire? ⟨⟨σ.world, t⟩, focus, pending⟩ = some ⟨⟨σ'.world, t'⟩, focus', pending'⟩ ∨
    (t' = t ∧ focus' = focus ∧ pending' = pending) ∧ σ.world.Spares t σ'.world := by
  rcases orderly.own_or_spared moves among among' with ⟨phase, goes, task, world⟩ | ⟨task, spares⟩
  · cases phase with
    | idle => simp [Phase.task] at task
    | running m =>
      obtain ⟨rfl, rfl, rfl⟩ := Task.running.inj task
      rw [world]
      change Phase.Goes (.running _) (.running m) at goes
      cases goes with
      | step stepped => exact .inl stepped
      | expire expired => exact .inr (.inl expired)
  · exact .inr (.inr ⟨Task.running.inj task, spares⟩)

end

theorem busy_place (σ : System) (key : ThreadKey) (m : Machine) : (σ.place key (.running m)).Busy key :=
  ⟨_, _, _, tasks_place σ key (.running m)⟩

theorem run_keeps {Q : Machine → Prop}
    (keeps : ∀ m m', Q m → Phase.Goes (.running m) (.running m') → Q m')
    (ran : m.run patient fuel = .exhausted m') (start : Q m) : Q m' := by
  induction fuel generalizing m with
  | zero =>
    obtain rfl := RunResult.exhausted.inj ran
    exact start
  | succ fuel ih =>
    unfold Machine.run at ran
    split at ran
    · rename_i next stepped
      exact ih ran (keeps m next start (.step stepped))
    · simp at ran
    · simp at ran
    · rename_i m'' blocked
      obtain rfl := Machine.eq_of_blocked blocked
      split at ran
      · rename_i next expired
        exact ih ran (keeps m'' next start (.expire expired))
      · simp at ran

/-- A thread may run while all others rest. -/
theorem During.run (ran : m.run patient fuel = .exhausted m') :
    During P key (σ.place key (.running m)) (σ.place key (.running m')) :=
  run_keeps (Q := fun n => During P key (σ.place key (.running m)) (σ.place key (.running n)))
    (fun _ n' during goes => during.tail ⟨.place goes, busy_place σ key n'⟩) ran .refl

theorem Tended.run (tended : (σ.place key (.running m)).Tended P)
    (ran : m.run patient fuel = .exhausted m') : (σ.place key (.running m')).Tended P :=
  run_keeps (Q := fun n => (σ.place key (.running n)).Tended P)
    (fun _ _ before goes => before.moves (.place goes) (heeds_place (by simp))) ran tended

end System

end Tenancy
