import Tenancy.Proofs.Occupancy

/-!
Switches that fail.

A thread that sets out for the domain of an object copies the arguments, parks its window and leaves
the domain that it is in. It may wait for long, and meanwhile the other threads go on. If it gives up,
or does not find the object, it comes back, takes up its window and frees the copies. Then whatever the
others have left alone is as it was. Only a copy that fails on the way leaves something behind: what
had been copied before is still there.
-/

namespace Tenancy

variable {s : State} {focus : Focus}

open Tenancy.Action List Option State

/-! ### What is seen of a world -/

/-- Something to look at in a world. -/
inductive Sight where
  | holder (domain : DomainKey)
  | parked (domain : DomainKey)
  | members (list : ListId)

def Sight.Same (w w' : World) : Sight → Prop
  | .holder k => (w'.domain k).holder = (w.domain k).holder
  | .parked k => (w'.domain k).parked = (w.domain k).parked
  | .members l => w'.heap.members l = w.heap.members l

theorem Sight.Same.refl (w : World) (x : Sight) : x.Same w w := by
  cases x <;> rfl

theorem Sight.Same.trans {x : Sight} (first : x.Same w w') (second : x.Same w' w'') :
    x.Same w w'' := by
  cases x <;> exact Eq.trans second first

/-! ### From a domain to the way, and back in vain -/

namespace Thread

variable (t : Thread)

/-- The window that a thread has parked in the domain of its top context. -/
def isParked (p : ParkedWindow) : Bool := p.thread = t.key ∧ p.depth = t.domains.length - 1

/-- The domain when the thread has parked its window and left. -/
def leaves (d : Domain) : Domain :=
  { d.park ⟨t.key, t.domains.length - 1, t.window⟩ with holder := none }

/-- The domain when the thread has come back and taken up its window. -/
def returns (d : Domain) : Domain :=
  { d.unpark t.key (t.domains.length - 1) with holder := some t.key }

variable {t}

theorem parked_leaves (d : Domain) : (t.leaves d).parked =
    ⟨t.key, t.domains.length - 1, t.window⟩ :: d.parked.filter (!t.isParked ·) := rfl

theorem parked_returns (d : Domain) : (t.returns d).parked = d.parked.filter (!t.isParked ·) := rfl

theorem filter_isParked {windows : List ParkedWindow} (none : ∀ p ∈ windows, t.isParked p = false) :
    (⟨t.key, t.domains.length - 1, t.window⟩ :: windows.filter (!t.isParked ·)).filter
      (!t.isParked ·) = windows := by
  have kept : windows.filter (!t.isParked ·) = windows :=
    filter_eq_self.mpr fun p listed => by rw [none p listed]; rfl
  rw [kept, filter_cons_of_neg (by simp [isParked]), kept]

end Thread

theorem State.Inside.isParked_eq_false (inside : s.Inside)
    (parked : p ∈ (s.world.domain k).parked) : s.thread.isParked p = false := by
  by_contra mine
  simp only [Thread.isParked, Bool.not_eq_false, decide_eq_true_eq] at mine
  have own : p ∈ s.world.windowsOf s.thread.key k := mem_filter.mpr ⟨parked, by simp [mine.1]⟩
  have lower := inside.top.2.depth_lt own
  rw [length_tail] at lower
  omega

namespace World

variable {w w1 w2 w' : World} {t : Thread}

/-- The domain of the top context has changed, and the list of what is on its way. -/
structure Alters (t : Thread) (f : Domain → Domain) (w w' : World) : Prop where
  domain : ∀ k, w'.domain k = if t.current.domain = k then f (w.domain k) else w.domain k
  members : ∀ l ≠ t.transfer, w'.heap.members l = w.heap.members l

theorem Alters.leave {heap : Heap} (valid : t.current.domain < w.domains.size)
    (lists : ∀ l ≠ t.transfer, heap.list l = w.heap.list l)
    (departs : Departs ⟨{ w with heap }, t⟩ w1) : Alters t t.leaves w w1 := by
  obtain rfl := leave_eq departs
  refine ⟨fun k => ?_, fun l other => congrArg ValueList.occupants (lists l other)⟩
  rw [domain_modifyDomain, domain_modifyDomain]
  by_cases here : t.current.domain = k
  · subst here
    simp only [valid, size_domains_modifyDomain, and_self, if_true]
    rfl
  · simp only [here, false_and, if_false]
    rfl

theorem Alters.rolledBack {m : Machine} (valid : m.thread.current.domain < m.world.domains.size)
    (next : Focus) : Alters m.thread m.thread.returns m.world (m.rolledBack next).world := by
  refine ⟨fun k => ?_, fun l other => congrArg ValueList.occupants (Heap.list_freeAll_of_ne other _)⟩
  show ((m.world.hold m.thread.current.domain m.thread.key).modifyDomain m.thread.current.domain
    (·.unpark m.thread.key (m.thread.domains.length - 1))).domain k = _
  rw [hold, domain_modifyDomain, domain_modifyDomain]
  by_cases here : m.thread.current.domain = k
  · subst here
    simp only [valid, size_domains_modifyDomain, and_self, if_true]
    rfl
  · simp only [here, false_and, if_false]

variable {s : State}

section

variable (inside : s.Inside)
  (left : Alters s.thread s.thread.leaves s.world w1)
  (back : Alters s.thread s.thread.returns w2 w')
include inside left back

theorem Alters.same {x : Sight} (same : x.Same w1 w2)
    (other : x ≠ .members s.thread.transfer) : x.Same s.world w' := by
  cases x with
  | holder k =>
    have during : (w2.domain k).holder = (w1.domain k).holder := same
    rw [Sight.Same, back.domain]
    split
    · rename_i here
      subst here
      exact ((inside.top.1 _).mpr rfl).symm
    · rename_i elsewhere
      rw [during, left.domain, if_neg elsewhere]
  | parked k =>
    have during : (w2.domain k).parked = (w1.domain k).parked := same
    rw [left.domain] at during
    rw [Sight.Same, back.domain]
    split
    · rename_i here
      rw [if_pos here] at during
      rw [Thread.parked_returns, during, Thread.parked_leaves]
      exact Thread.filter_isParked fun p => inside.isParked_eq_false
    · rename_i elsewhere
      rw [during, if_neg elsewhere]
  | members l =>
    have during : w2.heap.members l = w1.heap.members l := same
    have notTransfer : l ≠ s.thread.transfer := fun same => other (same ▸ rfl)
    rw [Sight.Same, back.members l notTransfer, during, left.members l notTransfer]

theorem Alters.windowsOf (windows : ∀ k, w2.windowsOf s.thread.key k = w1.windowsOf s.thread.key k)
    (k : DomainKey) : w'.windowsOf s.thread.key k = s.world.windowsOf s.thread.key k := by
  have during := windows k
  unfold World.windowsOf at during ⊢
  rw [left.domain] at during
  rw [back.domain]
  split
  · rename_i here
    rw [if_pos here, Thread.parked_leaves] at during
    rw [Thread.parked_returns, filter_comm, during, filter_comm,
      Thread.filter_isParked fun p => inside.isParked_eq_false]
  · rename_i elsewhere
    rw [if_neg elsewhere] at during
    exact during

end

end World

/-! ### How a switch begins -/

theorem Focus.Fails.not_enters (fails : focus.Fails errand) : ¬ focus.Enters := by
  obtain rfl | ⟨f, rfl⟩ := fails
  · cases errand <;> exact id
  · exact id

namespace Machine

variable {m m' : Machine} {target : ObjectId} {args : List Value} {errand : Errand}

/-! ### How a switch goes on -/

theorem invoke_not_enters (invoked : m.invoke c args = .ok m') : ¬ m'.focus.Enters := by
  unfold invoke at invoked
  dsimp only at invoked
  split at invoked
  · cases invoked
    exact id
  split at invoked
  · simp at invoked
  split at invoked
  · unfold beginNative at invoked
    split at invoked
    · cases invoked
      exact id
    · cases invoked
      exact id
    · simp at invoked
  all_goals
    cases invoked
    exact id

theorem callObject_not_enters
    (called : m.callObject object name args = .ok m') : ¬ m'.focus.Enters := by
  unfold callObject at called
  split at called
  · cases called
    exact id
  unfold callComponent at called
  split at called
  · cases called
    exact id
  split at called
  · cases called
    exact id
  · exact invoke_not_enters called

/-- The thread is in the domain that it has set out for. -/
structure Arrives (m : Machine) (errand : Errand) (m' : Machine) : Prop where
  domains : m'.thread.domains.length = m.thread.domains.length + 1
  settled : ¬ m'.focus.Enters
  switched : errand = .stay → ∃ o moved, m'.focus = .done (.switched o moved)

/-- The thread is on the way that it began in `w1`. Others keep to what is in `S`, and its own windows
are where they were. -/
structure Afoot (S : Sight → Prop) (t : Thread) (errand : Errand) (w1 : World) (m : Machine) : Prop where
  thread : m.thread = t
  focus : (∃ domain target moved, m.focus = .visiting domain target moved errand) ∨
    ∃ next, m.focus = .rollingBack next ∧ next.Fails errand
  windows : ∀ k, m.world.windowsOf t.key k = w1.windowsOf t.key k
  seen : ∀ x, S x → x ≠ .members t.transfer → x.Same w1 m.world

variable {S : Sight → Prop} {t : Thread} {w1 w : World}

section

variable (afoot : m.Afoot S t errand w1)
include afoot

theorem Afoot.enters : m.focus.Enters := by
  obtain ⟨domain, target, moved, focus⟩ | ⟨next, focus, -⟩ := afoot.focus
  · rw [focus]
    trivial
  · rw [focus]
    trivial

theorem Afoot.spared (spares : m.world.Spares t w)
    (keeps : ∀ x, S x → x.Same m.world w) : Afoot S t errand w1 { m with world := w } where
  thread := afoot.thread
  focus := afoot.focus
  windows k := (spares.windows k).trans (afoot.windows k)
  seen x inS other := (afoot.seen x inS other).trans (keeps x inS)

theorem Afoot.turn {next : Focus} (fails : next.Fails errand)
    (same : ∀ x : Sight, x.Same m.world w) :
    Afoot S t errand w1 { m with world := w, focus := .rollingBack next } where
  thread := afoot.thread
  focus := .inr ⟨next, rfl, fails⟩
  windows k := by
    have parked : (w.domain k).parked = (m.world.domain k).parked := same (.parked k)
    rw [← afoot.windows k]
    show w.windowsOf t.key k = m.world.windowsOf t.key k
    rw [World.windowsOf, parked, World.windowsOf]
  seen x inS other := (afoot.seen x inS other).trans (same x)

end

theorem same_of_turnBack (free : (w1.domain k).holder = none)
    (left : (w1.hold k key).leave k key = .ok w) (x : Sight) : x.Same w1 w := by
  obtain rfl := World.leave_eq left
  cases x with
  | holder j =>
    rw [Sight.Same, World.domain_modifyDomain, World.hold, World.domain_modifyDomain]
    by_cases here : k = j
    · subst here
      split
      · exact free.symm
      · split
        · rename_i gone there
          exact (gone (by simpa using there)).elim
        · rfl
    · simp [here]
  | parked j =>
    rw [Sight.Same, World.domain_modifyDomain, World.hold, World.domain_modifyDomain]
    split <;> split <;> rfl
  | members l => rfl

/-- One step on the way: it goes on, it leads to the domain, or it leads back. -/
theorem Afoot.goes (afoot : m.Afoot S t errand w1) (roams : m.Roams P s0)
    (goes : Phase.Goes (.running m) (.running m')) : m'.Afoot S t errand w1 ∨ m.Arrives errand m' ∨
      ∃ next, next.Fails errand ∧ m' = m.rolledBack next := by
  have between := roams.between afoot.enters
  have sane := roams.sane
  cases goes with
  | expire expired =>
    obtain ⟨-, f, rfl⟩ := expire?_cases expired
    exact .inl (afoot.turn (.inr ⟨f, rfl⟩) (Sight.Same.refl _))
  | step stepped =>
    unfold Machine.step at stepped
    obtain ⟨domain, target, moved, focus⟩ | ⟨next, focus, fails⟩ := afoot.focus
    · rw [focus] at sane stepped
      rcases whenFree_next stepped with ⟨-, turned⟩ | ⟨free, arrived⟩
      · cases turned
        exact .inl (afoot.turn (.inr ⟨_, rfl⟩) (Sight.Same.refl _))
      unfold arrive at arrived
      dsimp only at arrived
      split at arrived
      · obtain ⟨world, gone, -⟩ := between.turnBack sane.1
        simp only [pure, bind, Except.bind, Except.pure, gone] at arrived
        cases arrived
        exact .inl (afoot.turn (.inl rfl) (same_of_turnBack free gone))
      · right
        left
        cases errand with
        | stay =>
          cases arrived
          exact ⟨rfl, id, fun _ => ⟨_, _, rfl⟩⟩
        | call name =>
          obtain ⟨entered, inside, -⟩ := entered_regular roams.regular between sane.1 sane.2 free
          have ready : (Exec.motion P 0).Ready (m.entered domain) :=
            ⟨entered.sound.world, inside.valid, Nat.zero_le _⟩
          have called := (callObject_takes (m.entered domain) _ _ _).called
            (m := ⟨m.entered domain, m.focus, .crossing :: m.pending⟩) ready arrived
          exact ⟨congrArg length called.domains, callObject_not_enters arrived, by simp⟩
    · rw [focus] at stepped
      exact .inr (.inr ⟨next, fails, (comesBack_next stepped).2.symm⟩)

end Machine

/-! ### Switches in a system -/

namespace System

variable {P : Function → Prop} {S : Sight → Prop} {σ σ' : System} {key : ThreadKey} {task : Task}
  {target : ObjectId} {args : List Value} {errand : Errand} {m : Machine} {t : Thread} {focus : Focus}
  {w1 : World}

/-- The thread, which is in a domain, sets out for that of an object. The host has it do so, or it is
in a run and calls. -/
structure Departs (σ : System) (task : Task) (target : ObjectId) (args : List Value)
    (errand : Errand) (m : Machine) : Prop where
  stays : ¬ (task.phase σ.world).Enters
  goes : (task.phase σ.world).Goes (.running m)
  visits : ∃ focus pending,
    Machine.visit ⟨⟨σ.world, task.thread⟩, focus, pending⟩ target args errand = .ok m

/-- What happens while a thread waits to enter a domain: it goes on itself, or something else happens,
which leaves alone what is in `S`. -/
inductive Passes (P : Function → Prop) (S : Sight → Prop) (key : ThreadKey) (σ : System) :
    System → Prop where
  | own {t : Thread} {focus : Focus} {pending : List Pending} {m : Machine}
      (waits : σ.tasks key = some (.running t focus pending)) (enters : focus.Enters)
      (goes : Phase.Goes (.running ⟨⟨σ.world, t⟩, focus, pending⟩) (.running m)) :
      Passes P S key σ (σ.place key (.running m))
  | others {σ' : System} {t : Thread} {focus : Focus} {pending : List Pending}
      (waits : σ.tasks key = some (.running t focus pending)) (enters : focus.Enters)
      (moves : σ.Moves P σ') (stays : σ'.tasks key = some (.running t focus pending))
      (keeps : ∀ x, S x → x.Same σ.world σ'.world) : Passes P S key σ σ'

/-- From when a thread has set out until it is in a domain again, or for some time on the way. -/
def Underway (P : Function → Prop) (S : Sight → Prop) (key : ThreadKey) : System → System → Prop :=
  Relation.ReflTransGen (Passes P S key)

theorem Passes.moves (passes : Passes P S key σ σ') : σ.Moves P σ' := by
  cases passes with
  | own waits _ goes => exact .go waits goes
  | others _ _ moves => exact moves

theorem Underway.eq_of_settled (underway : Underway P S key σ σ')
    (runs : σ.tasks key = some (.running t focus pending)) (settled : ¬ focus.Enters) : σ' = σ := by
  induction underway with
  | refl => rfl
  | tail _ passes ih =>
    subst ih
    cases passes with
    | own waits enters | others waits enters =>
      obtain ⟨-, rfl, -⟩ := Task.running.inj (some.inj (runs.symm.trans waits))
      exact (settled enters).elim

/-- Where a thread is that has set out in `w1`. -/
inductive Whereabouts (S : Sight → Prop) (t : Thread) (errand : Errand) (w1 : World) (m : Machine) :
    Prop where
  | afoot (afoot : m.Afoot S t errand w1)
  | there (m2 : Machine) (afoot : m2.Afoot S t errand w1) (arrives : m2.Arrives errand m)
  | back (m2 : Machine) (afoot : m2.Afoot S t errand w1) (between : m2.toState.Between)
      (next : Focus) (fails : next.Fails errand) (returns : m = m2.rolledBack next)

theorem Whereabouts.afoot_of_enters (whereabouts : Whereabouts S t errand w1 m) (enters : m.focus.Enters) :
    m.Afoot S t errand w1 := by
  cases whereabouts with
  | afoot afoot => exact afoot
  | there _ _ arrives => exact (arrives.settled enters).elim
  | back _ _ _ _ fails returns =>
    subst returns
    exact (fails.not_enters enters).elim

theorem Whereabouts.of_goes (afoot : m.Afoot S t errand w1) (roams : m.Roams P s0)
    (goes : Phase.Goes (.running m) (.running m')) : Whereabouts S t errand w1 m' := by
  obtain afoot' | arrives | ⟨next, fails, returns⟩ := afoot.goes roams goes
  · exact .afoot afoot'
  · exact .there m afoot arrives
  · exact .back m afoot (roams.between afoot.enters) next fails returns

theorem Underway.whereabouts (orderly : σ.Orderly P)
    (runs : σ.tasks key = some (.running m.thread m.focus m.pending)) (here : σ.world = m.world)
    (afoot : m.Afoot S t errand w1) (underway : Underway P S key σ σ') :
    σ'.Orderly P ∧ ∃ m' : Machine, σ'.tasks key = some (.running m'.thread m'.focus m'.pending) ∧
      σ'.world = m'.world ∧ Whereabouts S t errand w1 m' := by
  induction underway with
  | refl => exact ⟨orderly, m, runs, here, .afoot afoot⟩
  | @tail σ2 σ3 _ passes ih =>
    obtain ⟨orderly, ⟨⟨w2, t2⟩, focus2, pending2⟩, runs, rfl, whereabouts⟩ := ih
    refine ⟨orderly.moves passes.moves, ?_⟩
    obtain ⟨roams, -⟩ := orderly.phase key _ runs
    cases passes with
    | own waits enters goes =>
      obtain ⟨rfl, rfl, rfl⟩ := Task.running.inj (some.inj (runs.symm.trans waits))
      exact ⟨_, tasks_place _ _ _, rfl, .of_goes (whereabouts.afoot_of_enters enters) roams goes⟩
    | others waits enters moves stays keeps =>
      obtain ⟨rfl, rfl, rfl⟩ := Task.running.inj (some.inj (runs.symm.trans waits))
      have afoot := whereabouts.afoot_of_enters enters
      refine ⟨⟨⟨σ3.world, t2⟩, focus2, pending2⟩, stays, rfl, ?_⟩
      rcases orderly.run_moves moves runs stays with stepped | expired | ⟨-, spares⟩
      · exact .of_goes afoot roams (.step stepped)
      · exact .of_goes afoot roams (.expire expired)
      · exact .afoot (afoot.spared (afoot.thread ▸ spares) keeps)

/-- What a thread and a world look like after a switch that has failed. -/
structure Unmoved (S : Sight → Prop) (t : Thread) (args : List Value) (w : World) (t' : Thread)
    (focus : Focus) (w' : World) : Prop where
  thread : t' = t
  /-- The thread holds the domain that it held, and no other. -/
  held : w.HeldBy t.key (some t.current.domain) ∧ w'.HeldBy t.key (some t.current.domain)
  windows : ∀ k, w'.windowsOf t.key k = w.windowsOf t.key k
  /-- The list of what is on its way belongs to no domain. -/
  outlying : w.Outlying t.transfer
  /-- What the others have left alone is as it was. -/
  seen : ∀ x, S x → x ≠ .members t.transfer → x.Same w w'
  /-- Nothing is on its way, unless copying the arguments has failed: then what had been copied is. -/
  transfer : w'.heap.members t.transfer = [] ∨ ∃ f heap, focus = .fault f ∧
    Heap.copyAll t.transfer args w.heap = .error f heap ∧
    w'.heap.members t.transfer = heap.members t.transfer

theorem Unmoved.ofHeap (inside : s.Inside) (outlying : s.world.Outlying s.thread.transfer)
    (lists : ∀ l ≠ s.thread.transfer, heap.list l = s.world.heap.list l)
    (transfer : heap.members s.thread.transfer = [] ∨ ∃ f heap', focus = .fault f ∧
      Heap.copyAll s.thread.transfer args s.world.heap = .error f heap' ∧
      heap.members s.thread.transfer = heap'.members s.thread.transfer) :
    Unmoved S s.thread args s.world s.thread focus { s.world with heap } where
  thread := rfl
  held := ⟨inside.top.1, inside.top.1⟩
  windows _ := rfl
  outlying := outlying
  seen x _ other := by
    cases x with
    | holder | parked => rfl
    | members l => exact congrArg ValueList.occupants (lists l fun same => other (same ▸ rfl))
  transfer := transfer

theorem Unmoved.ofBack {s : State} {next : Focus} (inside : s.Inside)
    (outlying : s.world.Outlying s.thread.transfer)
    (left : World.Alters s.thread s.thread.leaves s.world w1) (afoot : m.Afoot S s.thread errand w1)
    (between : m.toState.Between) (held : (m.rolledBack next).toState.Inside) :
    Unmoved S s.thread args s.world (m.rolledBack next).thread focus (m.rolledBack next).world := by
  have thread := afoot.thread
  have back : World.Alters s.thread s.thread.returns m.world (m.rolledBack next).world := by
    obtain ⟨below, domains⟩ := Thread.eq_current_cons between.nonempty
    have parks := between.parks
    rw [domains] at parks
    rw [← thread]
    exact .rolledBack parks.valid next
  refine ⟨thread, ⟨inside.top.1, thread ▸ held.top.1⟩, left.windowsOf inside back afoot.windows, outlying,
    fun x inS other => left.same inside back (afoot.seen x inS other) other, .inl ?_⟩
  rw [← thread]
  exact Heap.members_freeAll _ _

/-- A switch that fails leaves no trace, save what had been copied when copying fails. -/
theorem failed_switch_leaves_no_trace {t' : Thread} {focus : Focus} {pending : List Pending}
    (reachable : σ.Reachable P) (among : σ.tasks key = some task)
    (clear : Clear ⟨σ.world, task.thread⟩) (departs : σ.Departs task target args errand m)
    (underway : Underway P S key (σ.place key (.running m)) σ')
    (runs : σ'.tasks key = some (.running t' focus pending)) (fails : focus.Fails errand)
    (home : errand = .stay ∨ t'.domains.length ≤ task.thread.domains.length) :
    Unmoved S task.thread args σ.world t' focus σ'.world := by
  have orderly := reachable.orderly
  obtain rfl := orderly.key key task among
  have phase := orderly.phase _ task among
  have inside := phase.inside departs.stays
  obtain ⟨w0, origin, regular⟩ := phase.regular
  rw [Task.state_phase] at inside regular
  have begun : (σ.place task.thread.key (.running m)).Orderly P := orderly.go among departs.goes
  have running := tasks_place σ task.thread.key (.running m)
  have serves := Heap.copyAll_moves args σ.world.heap ⟨regular.sound.world.heap, regular.sound.transfer⟩
  obtain ⟨_, _, visited⟩ := departs.visits
  cases Machine.visit_cases visited with
  | stays failed same =>
    obtain rfl := same
    obtain rfl := underway.eq_of_settled running failed.not_enters
    obtain ⟨rfl, rfl, -⟩ := Task.running.inj (some.inj (running.symm.trans runs))
    exact .ofHeap inside regular.outlying (fun _ _ => rfl) (.inl clear)
  | fails copied same =>
    rw [copied] at serves
    obtain rfl := same
    obtain rfl := underway.eq_of_settled running id
    obtain ⟨rfl, rfl, -⟩ := Task.running.inj (some.inj (running.symm.trans runs))
    exact .ofHeap inside regular.outlying serves.lists (.inr ⟨_, _, rfl, copied, rfl⟩)
  | @leaves _ _ _ _ world _ _ copied left same =>
    rw [copied] at serves
    have here : m.world = world := by rw [same]
    have alters := World.Alters.leave inside.valid serves.lists left
    have afoot : m.Afoot S task.thread errand world :=
      ⟨by rw [same], .inl ⟨_, _, _, by rw [same]⟩, fun _ => here ▸ rfl, fun x _ _ => here ▸ .refl _ x⟩
    obtain ⟨orderly', ⟨⟨w', _⟩, _, _⟩, runs', rfl, whereabouts⟩ :=
      underway.whereabouts begun running rfl afoot
    obtain ⟨rfl, rfl, rfl⟩ := Task.running.inj (some.inj (runs.symm.trans runs'))
    cases whereabouts with
    | afoot afoot => exact (fails.not_enters afoot.enters).elim
    | there m2 afoot arrives =>
      -- The thread has told the host that it is there, or has a context more.
      exfalso
      rcases home with rfl | lower
      · obtain ⟨o, moved, switched⟩ := arrives.switched rfl
        obtain rfl | ⟨f, rfl⟩ := fails
        · simp [Machine.stay] at switched
        · simp at switched
      · have higher := arrives.domains
        rw [afoot.thread] at higher
        dsimp only at higher
        omega
    | back m2 afoot between next _ returns =>
      obtain ⟨roams, -⟩ := orderly'.phase _ _ runs
      have inside' : (m2.rolledBack next).toState.Inside :=
        returns ▸ roams.inside.resolve_left fails.not_enters
      have unmoved : Unmoved S task.thread args σ.world (m2.rolledBack next).thread focus
          (m2.rolledBack next).world := .ofBack inside regular.outlying alters afoot between inside'
      rw [← returns] at unmoved
      exact unmoved

end System

/-! ### A guest in the stadium -/

/-- A string, and an array of a string that has been freed. -/
def withGifts (h : Heap) (list : ListId) : Heap :=
  let h := (h.place list (.string "gone")).2.freeAll list
  let h := (h.create (.string "gift") false false).2
  (h.create (.array [.ref ⟨.string, 2⟩]) false false).2

/-- A thread before the race, and what it may take to the runners. -/
def guest? : Option State :=
  race.toOption.map fun s =>
    ⟨{ s.world with heap := withGifts s.world.heap (s.world.domain 1).values }, s.thread⟩

def State.alone (s : State) : System := System.place ⟨stadium, fun _ => none⟩ s.thread.key (.idle s)

theorem State.tasks_alone (s : State) : s.alone.tasks s.thread.key = some (.idle s.thread) :=
  System.tasks_place _ _ _

theorem guest?_reachable (found : guest? = some s) (wide : 1 < s.world.domains.size) :
    s.alone.Reachable Function.Honest := by
  obtain ⟨s0, ready, rfl⟩ := map_eq_some_iff.mp found
  have reachable := raceIn_reachable stadium_honest (Except.toOption_eq_some.mp ready)
  have orderly := reachable.orderly
  have placed := Heap.place_changes (orderly.sound.lists 1 wide) (.string "gone")
  refine reachable.moves (.deed
    (.heap (((placed.tail (.freeAll _ _)).tail (.create ..)).tail (.create ..))) fun key task among => ?_)
  obtain ⟨w0, origin, regular⟩ := (orderly.phase key task among).regular
  have outlying := regular.outlying
  rw [Task.state_phase] at outlying
  exact (Heap.list_freeAll_of_ne (outlying 1 wide).symm _).trans
    (Heap.list_place_of_ne (outlying 1 wide).symm _)

theorem Sight.same_destruct (w : World) (id : ObjectId) (x : Sight) : x.Same w (w.destruct id).2 := by
  cases x with
  | holder k => exact (World.same_destruct w id k).holder
  | parked k => exact (World.same_destruct w id k).parked
  | members l => rw [Same, World.heap_destruct]

def State.greet (s : State) (gifts : List Value) : Except Breach Machine :=
  s.visit (s.world.object 0).id gifts

/-- The guest is on the way with the string when the runner goes. They do not meet, and the guest is
back. -/
def missed? : Option (State × Machine × Machine × Machine) := do
  let s ← guest?
  let m ← (s.greet [.ref ⟨.string, 3⟩]).toOption
  let m2 ← (Machine.step { m with world := (m.world.destruct (s.world.object 0).id).2 }).next?
  return (s, m, m2, ← m2.step.next?)

theorem missed?_eq_some (missed : missed? = some (s, m, m2, m3)) :
    guest? = some s ∧ s.greet [.ref ⟨.string, 3⟩] = .ok m ∧
      Machine.step { m with world := (m.world.destruct (s.world.object 0).id).2 } = .next m2 ∧
      m2.step = .next m3 := by
  simp only [missed?, bind_eq_bind, bind_eq_some_iff] at missed
  obtain ⟨s, isGuest, m, greets, m2, stepped, m3, stepped2, ⟨⟩⟩ := missed
  exact ⟨isGuest, Except.toOption_eq_some.mp greets, Progress.next?_eq_some.mp stepped,
    Progress.next?_eq_some.mp stepped2⟩

inductive Focus.Kind where
  | away | stayed | fault (f : Fault) | other
deriving DecidableEq

def Focus.kind : Focus → Focus.Kind
  | .visiting _ _ _ _ | .rollingBack _ => .away
  | .done .stayed => .stayed
  | .fault f => .fault f
  | _ => .other

theorem Focus.enters_of_kind (away : focus.kind = .away) : focus.Enters := by
  unfold kind at away
  split at away <;> trivial

theorem Focus.eq_of_kind_stayed (stayed : focus.kind = .stayed) : focus = .done .stayed := by
  unfold kind at stayed
  split at stayed <;> first | rfl | cases stayed

theorem Focus.eq_of_kind_fault (fault : focus.kind = .fault f) : focus = .fault f := by
  unfold kind at fault
  split at fault <;> cases fault
  rfl

namespace System

variable {P : Function → Prop} {S : Sight → Prop} {σ : System} {key : ThreadKey} {m m' : Machine}

theorem Passes.destruct (enters : m.focus.Enters) (id : ObjectId) :
    Passes P S key (σ.place key (.running m))
      (σ.place key (.running { m with world := (m.world.destruct id).2 })) := by
  have waits := tasks_place σ key (.running m)
  exact .others waits enters (.deed (.destruct id) fun _ _ _ =>
    congrArg (Heap.list · _) (World.heap_destruct m.world id)) waits fun x _ => x.same_destruct _ _

theorem Passes.step (enters : m.focus.Enters) (stepped : m.step = .next m') :
    Passes P S key (σ.place key (.running m)) (σ.place key (.running m')) := by
  rw [← place_place σ key (.running m) (.running m')]
  exact .own (tasks_place σ key (.running m)) enters (.step stepped)

end System

theorem guest_departs (greets : s.greet gifts = .ok m) :
    s.alone.Departs (.idle s.thread) (s.world.object 0).id gifts .stay m :=
  ⟨id, .begin (.visit greets), _, _, greets⟩

theorem missed?_any : missed?.any (fun (s, m, m2, m3) => 1 < s.world.domains.size ∧
    s.world.heap.members s.thread.transfer = [] ∧ m.focus.kind = .away ∧
    m.world.heap.members s.thread.transfer ≠ [] ∧ m2.focus.kind = .away ∧
    m3.focus.kind = .stayed) = true := by decide +kernel

/-- The guest has taken a copy of the string on the way, and is back without a trace. -/
theorem System.missed_runner_leaves_no_trace : ∃ (σ σ' : System) (key : ThreadKey) (t : Thread)
    (target : ObjectId) (args : List Value) (m : Machine) (pending : List Pending),
    σ.Reachable Function.Honest ∧ σ.tasks key = some (.idle t) ∧ Clear ⟨σ.world, t⟩ ∧
    σ.Departs (.idle t) target args .stay m ∧ m.world.heap.members t.transfer ≠ [] ∧
    Underway Function.Honest (fun _ => True) key (σ.place key (.running m)) σ' ∧
    σ'.tasks key = some (.running t (.done .stayed) pending) ∧
    Unmoved (fun _ => True) t args σ.world t (.done .stayed) σ'.world := by
  obtain ⟨⟨s, m, m2, m3⟩, missed, passed⟩ := (any_eq_true _ _).mp missed?_any
  obtain ⟨wide, clear, away, copied, away2, stayed⟩ := of_decide_eq_true passed
  obtain ⟨isGuest, greets, stepped, stepped2⟩ := missed?_eq_some missed
  have reachable := guest?_reachable isGuest wide
  have departs := guest_departs greets
  have onWay := Focus.enters_of_kind away
  have underway : Underway Function.Honest (fun _ => True) s.thread.key
      (s.alone.place s.thread.key (.running m)) (s.alone.place s.thread.key (.running m3)) :=
    ((Relation.ReflTransGen.single (.destruct onWay (s.world.object 0).id)).tail
      (.step onWay stepped)).tail (.step (Focus.enters_of_kind away2) stepped2)
  have runs := tasks_place s.alone s.thread.key (.running m3)
  have stays := Focus.eq_of_kind_stayed stayed
  have unmoved := failed_switch_leaves_no_trace reachable s.tasks_alone clear departs underway runs
    (.inl stays) (.inl rfl)
  have thread : m3.thread = s.thread := unmoved.thread
  rw [Phase.task, thread, stays] at runs
  rw [thread, stays] at unmoved
  exact ⟨_, _, s.thread.key, s.thread, _, _, m, m3.pending, reachable, s.tasks_alone, clear, departs,
    copied, underway, runs, unmoved⟩

/-- A copy that fails on the way is left with what had been copied before it. -/
theorem System.failed_copy_leaves_trace : ∃ (σ : System) (key : ThreadKey) (t : Thread)
    (target : ObjectId) (args : List Value) (m : Machine) (f : Fault),
    σ.Reachable Function.Honest ∧ σ.tasks key = some (.idle t) ∧ Clear ⟨σ.world, t⟩ ∧
    σ.Departs (.idle t) target args .stay m ∧ m.focus = .fault f ∧ ¬ Clear m.toState := by
  have ran : (guest?.bind fun s => (s.greet [.ref ⟨.string, 3⟩, .ref ⟨.array, 4⟩]).toOption.map
      (s, ·)).any (fun (s, m) => 1 < s.world.domains.size ∧
      s.world.heap.members s.thread.transfer = [] ∧ m.focus.kind = .fault .freedValue ∧
      m.world.heap.members m.thread.transfer ≠ []) = true := by decide +kernel
  obtain ⟨⟨s, m⟩, found, passed⟩ := (any_eq_true _ _).mp ran
  obtain ⟨wide, clear, fault, left⟩ := of_decide_eq_true passed
  obtain ⟨s', isGuest, found⟩ := bind_eq_some_iff.mp found
  obtain ⟨m', greets, same⟩ := map_eq_some_iff.mp found
  obtain ⟨rfl, rfl⟩ := Prod.mk.inj same
  exact ⟨_, s'.thread.key, s'.thread, _, _, m', _, guest?_reachable isGuest wide,
    s'.tasks_alone, clear, guest_departs (Except.toOption_eq_some.mp greets),
      Focus.eq_of_kind_fault fault, left⟩

end Tenancy
