import Tenancy.Proofs.Machine.Cases
import Tenancy.Proofs.Machine.Ledger
import Tenancy.Proofs.Machine.Window

/-!
What a run rests on.

When the host begins to run a thread, the thread has some stacks. They are the footing of the run:
what waits lies above them, and the slots, the frames, the contexts and the windows below stay as
they are until the run ends. While a fault is on its way the thread is higher than what waits, and so
is a native body that a fault has reached and that calls once more before it fails. Unwinding brings
the thread down to where what waits expects it.
-/

namespace Tenancy

open List World

/-! ### Natives that pass faults on -/

namespace Native

variable {α : Type}

/-- The body ends with a fault, and does not unwind on its own. -/
def Lost : Native α → Prop
  | .done _ => False
  | .raise _ => True
  | .act (.restore _) _ => False
  | .act _ next => ∀ reply, Lost (next reply)

/-- The body does not unwind on its own, and is lost when a call of it fails. -/
def Honest : Native α → Prop
  | .done _ | .raise _ => True
  | .act (.restore _) _ => False
  | .act (.call _) next => (∀ v, Honest (next (.ok v))) ∧ ∀ fault, Lost (next (.error fault))
  | .act _ next => ∀ reply, Honest (next reply)

variable {c : Command} {next : c.Reply → Native α}

theorem Lost.goesOn (lost : Lost (.act c next)) (reply : c.Reply) : (next reply).Lost := by
  cases c with
  | restore => exact lost.elim
  | _ => exact lost reply

theorem Honest.goesOn (honest : Honest (.act c next)) (quiet : c.Quiet) (reply : c.Reply) :
    (next reply).Honest := by
  cases c with
  | call | tryCall | restore => exact quiet.elim
  | _ => exact honest reply

theorem Failing.lost {body : Native α} (failing : body.Failing) : body.Lost := by
  induction body with
  | done => exact failing.elim
  | raise => trivial
  | act c next ih =>
    obtain ⟨quiet, fails⟩ := failing
    cases c with
    | restore => exact quiet.elim
    | _ => exact fun reply => ih reply (fails reply)

theorem Disciplined.honest {body : Native α} (disciplined : body.Disciplined) : body.Honest := by
  induction body with
  | done | raise => trivial
  | act c next ih =>
    obtain ⟨heeds, goesOn⟩ := disciplined
    cases c with
    | restore => exact heeds.elim
    | call => exact ⟨fun v => ih (.ok v) (goesOn (.ok v)), fun fault => (heeds fault).lost⟩
    | _ => exact fun reply => ih reply (goesOn reply)

end Native

def Function.Honest (f : Function) : Prop := ∀ body, f.body = .native body → body.Honest

theorem Function.Disciplined.honest {f : Function} (disciplined : f.Disciplined) : f.Honest :=
  fun body native => (disciplined body native).honest

/-! ### Frames -/

namespace Frame

variable {f : Frame}

/-- The frame runs a function of a component of its object and has the variables of that component,
or it runs an efun and has none. -/
inductive Based (w : World) (f : Frame) : Prop where
  | efun (isEfun : f.isEfun = true) (none : f.memberCount = 0)
  | component (own : f.isEfun = false) (valid : f.object < w.objects.size)
      (found : (w.object f.object).program.component? f.component = some f.program)
      (listed : f.function ∈ f.program.functions)
      (slice : (w.object f.object).program.slice? f.component =
        some (f.memberOffset, f.memberCount))

theorem Based.retained (based : f.Based w) (retains : w.Retains w') : f.Based w' := by
  cases based with
  | efun isEfun none => exact .efun isEfun none
  | component own valid found listed slice =>
    have same := retains.program f.object valid
    exact .component own (valid.trans_le retains.objects) (same ▸ found) listed (same ▸ slice)

end Frame

/-! ### Stacks -/

theorem Thread.eq_current_cons {t : Thread} (nonempty : t.domains ≠ []) :
    ∃ below, t.domains = t.current :: below := by
  obtain ⟨c, below, domains⟩ := exists_cons_of_ne_nil nonempty
  exact ⟨below, by simp [Thread.current, domains]⟩

/-- How high a thread is. -/
structure Stacks where
  frames : List Frame
  domains : List DomainContext
  size : Nat

namespace Stacks

def mark (s : Stacks) : Mark := ⟨s.frames.length, s.size, s.domains.length⟩

structure Over (high low : Stacks) : Prop where
  frames : low.frames <:+ high.frames
  domains : low.domains <:+ high.domains
  size : low.size ≤ high.size

variable {high middle low : Stacks}

theorem Over.refl (s : Stacks) : s.Over s := ⟨suffix_rfl, suffix_rfl, le_rfl⟩

theorem Over.trans (first : high.Over middle) (second : middle.Over low) : high.Over low :=
  ⟨second.frames.trans first.frames, second.domains.trans first.domains,
    second.size.trans first.size⟩

theorem Over.frame {f : Frame} {n : Nat} (begins : f.argsBase = low.size) (lies : f.Lies n) :
    Over ⟨f :: low.frames, low.domains, n⟩ low :=
  ⟨suffix_cons _ _, suffix_rfl, begins ▸ lies.le_size⟩

theorem Over.crossing : Over ⟨low.frames, c :: low.domains, low.size⟩ low :=
  ⟨suffix_rfl, suffix_cons _ _, le_rfl⟩

theorem Over.nonempty (rises : high.Over low) (nonempty : low.domains ≠ []) : high.domains ≠ [] := by
  intro none
  have suffix := rises.domains
  rw [none] at suffix
  exact nonempty (suffix_nil.mp suffix)

end Stacks

def Thread.height (t : Thread) : Stacks := ⟨t.frames, t.domains, t.stack.size⟩

/-- What waits, top first, over the stacks that the host began with. It is sure when no lost body is
among it. -/
inductive Stacked (base : Stacks) (hosted : Bool) : Bool → List Pending → Stacks → Prop where
  | host (isHosted : hosted = true) : Stacked base hosted true [.host base.mark] base
  | bare (notHosted : hosted = false) : Stacked base hosted true [.bare] base
  | frame {low : Stacks} {f : Frame} (below : Stacked base hosted sure pending low)
      (begins : f.argsBase = low.size) (lies : f.Lies size) :
      Stacked base hosted sure (.frame low.size :: pending) ⟨f :: low.frames, low.domains, size⟩
  | store {high : Stacks} {instructions : Array Instruction} (running : high.frames = f :: frames)
      (within : pc ≤ instructions.size)
      (below : Stacked base hosted sure (.frame bottom :: pending) high) :
      Stacked base hosted sure (.store f instructions pc target :: .frame bottom :: pending) high
  | resume {next : Except Fault Value → Native Value} (goesOn : ∀ v, (next (.ok v)).Honest)
      (fails : ∀ fault, (next (.error fault)).Lost)
      (below : Stacked base hosted sure (.frame bottom :: pending) high) :
      Stacked base hosted sure (.resume next :: .frame bottom :: pending) high
  | attempt {high : Stacks} {next : Except Fault Value → Native Value}
      (goesOn : ∀ r, (next r).Honest)
      (below : Stacked base hosted sure (.frame bottom :: pending) high) :
      Stacked base hosted sure (.attempt high.mark next :: .frame bottom :: pending) high
  | crossing {low : Stacks} {c : DomainContext} (begins : c.start = low.size)
      (below : Stacked base hosted sure pending low) :
      Stacked base hosted sure (.crossing :: pending) ⟨low.frames, c :: low.domains, low.size⟩
  | lost {high low : Stacks} {next : Except Fault Value → Native Value} (fails : ∀ r, (next r).Lost)
      (asks : waits = .resume next ∨ waits = .attempt high.mark next) (rises : high.Over low)
      (below : Stacked base hosted sure pending low) : Stacked base hosted false (waits :: pending) high

namespace Stacked

variable {base high : Stacks} {hosted sure : Bool} {pending : List Pending} {bottom : Nat}

theorem rises (stacked : Stacked base hosted sure pending high) : high.Over base := by
  induction stacked with
  | host | bare => exact .refl base
  | frame _ begins lies ih => exact (Stacks.Over.frame begins lies).trans ih
  | store _ _ _ ih | resume _ _ _ ih | attempt _ _ ih => exact ih
  | crossing _ _ ih => exact Stacks.Over.crossing.trans ih
  | lost _ _ rises _ ih => exact rises.trans ih

section

variable (stacked : Stacked base hosted sure (.frame bottom :: pending) high)
include stacked

theorem grow (more : high.size ≤ size) :
    Stacked base hosted sure (.frame bottom :: pending) { high with size } := by
  cases stacked with
  | frame below begins lies => exact .frame below begins (lies.grow more)
  | lost _ asks => simp at asks

/-- Below a frame that waits to end lies what waits for its result. -/
theorem of_frame : ∃ f low, Stacked base hosted sure pending low ∧ bottom = low.size ∧
      high = ⟨f :: low.frames, low.domains, high.size⟩ ∧ low.size ≤ high.size := by
  cases stacked with
  | frame below begins lies => exact ⟨_, _, below, rfl, rfl, begins ▸ lies.le_size⟩
  | lost _ asks => simp at asks

end

theorem of_crossing (stacked : Stacked base hosted sure (.crossing :: pending) high) :
    ∃ c low, Stacked base hosted sure pending low ∧ c.start = low.size ∧
      high = ⟨low.frames, c :: low.domains, low.size⟩ := by
  cases stacked with
  | crossing begins below => exact ⟨_, _, below, begins, rfl⟩
  | lost _ asks => simp at asks

theorem of_host (stacked : Stacked base hosted sure (.host mark :: pending) high) :
    sure = true ∧ high = base := by
  cases stacked with
  | host => exact ⟨rfl, rfl⟩
  | lost _ asks => simp at asks

/-- A frame that runs lies above the footing. -/
theorem frame_above (stacked : Stacked base hosted sure (.frame bottom :: pending) high)
    (running : high.frames = f :: frames) :
    f.argsBase = bottom ∧ f.Above base.size ∧ f.Lies high.size := by
  cases stacked with
  | frame below begins lies =>
    obtain ⟨rfl, -⟩ := cons.inj running
    have floor := begins ▸ below.rises.size
    exact ⟨begins, ⟨floor, floor.trans lies.le_locals⟩, lies⟩
  | lost _ asks => simp at asks

/-- Code that waits for a result is that of the top frame. -/
theorem of_store (stacked : Stacked base hosted sure (.store f instrs pc target :: pending) high) :
    pc ≤ instrs.size ∧ f.Lies high.size ∧ ∃ frames, high.frames = f :: frames := by
  cases stacked with
  | store running within below => exact ⟨within, (below.frame_above running).2.2, _, running⟩
  | lost _ asks => simp at asks

end Stacked

/-! ### What a thread does to a world -/

/-- What a thread may do to a world: it changes the heap by operations, and keeps off what other
threads hold, have parked or have on their way. -/
structure World.Does (P : Function → Prop) (t : Thread) (w w' : World) : Prop where
  sound : w.Sound P → w'.Sound P
  settings : w'.settings = w.settings
  threads : w'.threads = w.threads
  changes : w.heap.Changes w'.heap
  lists : w.heap.lists.size ≤ w'.heap.lists.size
  objects : w.Retains w'
  size : w'.domains.size = w.domains.size
  values : ∀ k, (w'.domain k).values = (w.domain k).values
  holder : ∀ key ≠ t.key, ∀ k, (w'.domain k).holder = some key ↔ (w.domain k).holder = some key
  windows : ∀ key ≠ t.key, ∀ k, w'.windowsOf key k = w.windowsOf key k
  list : ∀ l, w.Outlying l → l ≠ t.scratch → l ≠ t.transfer → w'.heap.list l = w.heap.list l

namespace World.Does

variable {P : Function → Prop} {t : Thread} {w w' w'' : World} {k : DomainKey}

theorem refl (t : Thread) (w : World) : w.Does P t w :=
  ⟨id, rfl, rfl, .refl, le_rfl, .refl _, rfl, fun _ => rfl, fun _ _ _ => Iff.rfl,
    fun _ _ _ => rfl, fun _ _ _ _ => rfl⟩

theorem outlying (does : w.Does P t w') (outlying : w.Outlying l) : w'.Outlying l := by
  intro k within
  rw [does.values k]
  exact outlying k (does.size ▸ within)

theorem trans (first : w.Does P t w') (second : w'.Does P t w'') : w.Does P t w'' where
  sound := second.sound ∘ first.sound
  settings := second.settings.trans first.settings
  threads := second.threads.trans first.threads
  changes := first.changes.trans second.changes
  lists := first.lists.trans second.lists
  objects := first.objects.trans second.objects
  size := second.size.trans first.size
  values k := (second.values k).trans (first.values k)
  holder key other k := (second.holder key other k).trans (first.holder key other k)
  windows key other k := (second.windows key other k).trans (first.windows key other k)
  list l outlying notScratch notTransfer :=
    (second.list l (first.outlying outlying) notScratch notTransfer).trans
      (first.list l outlying notScratch notTransfer)

theorem ofMild {s s' : State} (mild : s.Mild P base s') (sound : s.world.Sound P) :
    s.world.Does P t s'.world where
  sound := mild.sound
  settings := mild.settings
  threads := mild.threads
  changes := mild.changes
  lists := (mild.changes.size_le sound.heap).2
  objects := mild.objects
  size := mild.size
  values k := (mild.same k).values
  holder _ _ k := by rw [(mild.same k).holder]
  windows _ _ k := by rw [windowsOf, (mild.same k).parked, windowsOf]
  list l outlying _ _ := mild.lists l outlying

theorem withHeap (sound : w.Sound P) {heap : Heap} (changes : w.heap.Changes heap)
    (list : ∀ l, w.Outlying l → l ≠ t.scratch → l ≠ t.transfer → heap.list l = w.heap.list l) :
    w.Does P t { w with heap } where
  sound _ := sound.withHeap changes
  settings := rfl
  threads := rfl
  changes := changes
  lists := (changes.size_le sound.heap).2
  objects := .of_eq rfl
  size := rfl
  values _ := rfl
  holder _ _ _ := Iff.rfl
  windows _ _ _ := rfl
  list := list

theorem collect (sound : w.Sound P) (valid : k < w.domains.size) (roots : List Value) :
    w.Does P t (w.collect k roots).2 where
  sound _ := sound.collect k roots
  settings := rfl
  threads := rfl
  changes := .single (.collect _ _ _)
  lists := (sound.heap.consistent.size_lists_collect _ _).ge
  objects := .of_eq rfl
  size := size_domains_modifyDomain _ _ _
  values j := (same_collect w k roots j).values
  holder _ _ j := by rw [(same_collect w k roots j).holder]
  windows _ _ j := by rw [windowsOf, (same_collect w k roots j).parked, windowsOf]
  list _ outlying _ _ := sound.heap.consistent.list_collect_of_ne (outlying k valid).symm

theorem modifyDomain (values : ∀ d, (f d).values = d.values)
    (holder : ∀ key ≠ t.key, (f (w.domain k)).holder = some key ↔ (w.domain k).holder = some key)
    (windows : ∀ key ≠ t.key, (f (w.domain k)).parked.filter (·.thread = key) =
      (w.domain k).parked.filter (·.thread = key)) : w.Does P t (w.modifyDomain k f) where
  sound sound := sound.modifyDomain k values
  settings := rfl
  threads := rfl
  changes := .refl
  lists := le_rfl
  objects := .of_eq rfl
  size := size_domains_modifyDomain _ _ _
  values j := by
    rw [domain_modifyDomain]
    split
    · rw [values]
    · rfl
  holder key other j := by
    rw [domain_modifyDomain]
    split
    · obtain ⟨rfl, -⟩ := ‹k = j ∧ _›
      exact holder key other
    · exact Iff.rfl
  windows key other j := by
    unfold windowsOf
    rw [domain_modifyDomain]
    split
    · obtain ⟨rfl, -⟩ := ‹k = j ∧ _›
      exact windows key other
    · rfl
  list _ _ _ _ := rfl

theorem park (k : DomainKey) (depth : Nat) (values : List Value) :
    w.Does P t (w.modifyDomain k (·.park ⟨t.key, depth, values⟩)) := by
  refine modifyDomain (fun _ => rfl) (fun _ _ => Iff.rfl) fun key other => ?_
  rw [Domain.park, filter_cons_of_neg (by simpa using Ne.symm other), filter_filter]
  refine filter_congr fun p _ => ?_
  by_cases theirs : p.thread = key <;> simp [theirs, other]

theorem unpark (k : DomainKey) (depth : Nat) : w.Does P t (w.modifyDomain k (·.unpark t.key depth)) := by
  refine modifyDomain (fun _ => rfl) (fun _ _ => Iff.rfl) fun key other => ?_
  rw [Domain.unpark, filter_filter]
  refine filter_congr fun p _ => ?_
  by_cases theirs : p.thread = key <;> simp [theirs, other]

theorem hold (free : (w.domain k).holder = none) : w.Does P t (w.hold k t.key) :=
  modifyDomain (fun _ => rfl) (fun key other => by simp [free, Ne.symm other]) fun _ _ => rfl

theorem leave (left : w.leave k t.key = .ok w') : w.Does P t w' := by
  have held : (w.domain k).holder = some t.key := by
    by_contra other
    simp [World.leave, other] at left
  obtain rfl := World.leave_eq left
  exact modifyDomain (fun _ => rfl) (fun key other => by simp [held, Ne.symm other]) fun _ _ => rfl

end World.Does

theorem World.windowsOf_leave {w w' : World} (left : w.leave k thread = .ok w') (key : ThreadKey)
    (j : DomainKey) : w'.windowsOf key j = w.windowsOf key j := by
  obtain rfl := leave_eq left
  exact windowsOf_modifyDomain fun _ => rfl

/-! ### States of a run -/

namespace State

def Clear (s : State) : Prop := s.world.heap.members s.thread.transfer = []

/-- The thread is in the domain of its top context. -/
def Inside (s : State) : Prop := s.world.Seats s.thread.key s.thread.domains

/-- The thread is between two domains. -/
def Between (s : State) : Prop := s.world.Awaits s.thread.key s.thread.domains

/-- The windows of the thread that are parked in a domain under a depth less than `n`. -/
def windowsUnder (s : State) (n : Nat) (k : DomainKey) : List ParkedWindow :=
  (s.world.windowsOf s.thread.key k).filter (·.depth < n)

/-- Below the height of `origin`, the thread is as it was there. -/
structure Upon (s origin : State) : Prop where
  nonempty : origin.thread.domains ≠ []
  thread : s.thread = { origin.thread with
    stack := s.thread.stack, frames := s.thread.frames, domains := s.thread.domains }
  slots : ∀ i < origin.thread.stack.size, s.thread.stack[i]? = origin.thread.stack[i]?
  windows : ∀ k, s.windowsUnder (origin.thread.domains.length - 1) k =
    origin.windowsUnder (origin.thread.domains.length - 1) k

end State

/-- The state that a run began in, and whether the host waits for what it has called. -/
structure Footing extends State where
  hosted : Bool

namespace State

/-- What holds in every state of a run, wherever the thread is. All that has been done to the world
since it was `w0`, this thread has done. -/
structure Regular (P : Function → Prop) (w0 : World) (s : State) (origin : Footing) : Prop where
  sound : s.Sound P
  apart : s.thread.scratch ≠ s.thread.transfer
  outlying : s.world.Outlying s.thread.transfer
  home : s.thread.home < s.world.domains.size
  frames : s.thread.frames.length ≤ s.world.settings.callDepth
  domains : s.thread.domains.length ≤ max 1 s.world.settings.domainDepth
  based : ∀ f ∈ s.thread.frames, f.Based s.world
  upon : s.Upon origin.toState
  does : w0.Does P s.thread s.world

/-- The thread is exactly as high as what waits. -/
structure Level (s : State) (origin : Footing) (pending : List Pending) : Prop where
  inside : s.Inside
  stacked : ∃ sure, Stacked origin.thread.height origin.hosted sure pending s.thread.height ∧
    (sure = true → origin.Clear → s.Clear)

/-- A fault is on its way to what waits. -/
structure Falling (s : State) (origin : Footing) (pending : List Pending) : Prop where
  inside : s.Inside
  stacked : ∃ sure low, Stacked origin.thread.height origin.hosted sure pending low ∧
    s.thread.height.Over low

/-- The thread waits for a domain, exactly as high as what waits for it. -/
structure Abroad (s : State) (origin : Footing) (pending : List Pending) : Prop where
  between : s.Between
  stacked : ∃ sure, Stacked origin.thread.height origin.hosted sure pending s.thread.height

end State

/-- What may follow when the thread has been unwound to some stacks. -/
inductive Lands (base : Stacks) (hosted : Bool) : List Pending → Stacks → Focus → Prop where
  | honest {body : Native Value} (honest : body.Honest)
      (stacked : Stacked base hosted sure (.frame bottom :: pending) target) :
      Lands base hosted (.frame bottom :: pending) target (.native body)
  | lost {target : Stacks} {body : Native Value} (fails : body.Lost) (rises : target.Over low)
      (stacked : Stacked base hosted sure pending low) :
      Lands base hosted pending target (.native body)
  | done : Lands base hosted pending base (.done outcome)

/-- The thread is above what the mark stands for. -/
def State.Bound (s : State) (origin : Footing) (pending : List Pending) (mark : Mark)
    (next : Focus) : Prop :=
  ∃ target, s.thread.height.Over target ∧ mark = target.mark ∧ target.domains ≠ [] ∧
    target.Over origin.thread.height ∧ Lands origin.thread.height origin.hosted pending target next

/-- What a visit in vain may end with. -/
def Turns (hosted : Bool) : Focus → Prop
  | .result _ | .fault _ => True
  | .done _ => hosted = false
  | _ => False

/-- How the thread lies under a focus. -/
def Bearing (origin : Footing) (s : State) (pending : List Pending) : Focus → Prop
  | .code f instructions pc => s.Level origin pending ∧ pc ≤ instructions.size ∧ ∃ below frames,
      pending = .frame f.argsBase :: below ∧ s.thread.frames = f :: frames
  | .native body =>
    body.Honest ∧ s.Level origin pending ∧ (∃ bottom below, pending = .frame bottom :: below)
      ∨ body.Lost ∧ s.Falling origin pending
  | .result _ => s.Level origin pending
  | .fault _ => s.Falling origin pending
  | .visiting domain _ _ errand =>
    s.Abroad origin pending ∧ domain < s.world.domains.size ∧
      s.thread.domains.length < s.world.settings.domainDepth ∧ (errand = .stay → origin.hosted = false)
  | .rollingBack next => s.Abroad origin pending ∧ Turns origin.hosted next
  | .returning _ => s.Abroad origin pending
  | .unwinding mark next => s.Inside ∧ s.Bound origin pending mark next
  | .reentering mark next => s.Between ∧ s.Bound origin pending mark next
  | .done _ => s.Inside ∧ (origin.hosted = true →
      s.thread.height = origin.thread.height ∧ (origin.Clear → s.Clear))

/-- A machine in a run that rests on `origin`. -/
structure Machine.Rests (P : Function → Prop) (w0 : World) (origin : Footing) (m : Machine) : Prop where
  regular : m.toState.Regular P w0 origin
  bearing : Bearing origin m.toState m.pending m.focus

def Focus.Enters : Focus → Prop
  | .visiting _ _ _ _ | .rollingBack _ | .returning _ | .reentering _ _ => True
  | _ => False

namespace Machine.Rests

variable {P : Function → Prop} {w0 : World} {origin : Footing} {m : Machine}

theorem inside (rests : m.Rests P w0 origin) (runs : ¬ m.focus.Enters) : m.toState.Inside := by
  have bearing := rests.bearing
  obtain ⟨s, focus, pending⟩ := m
  cases focus with
  | code => exact bearing.1.inside
  | unwinding | done => exact bearing.1
  | native => exact bearing.elim (fun honest => honest.2.1.inside) fun lost => lost.2.inside
  | result => exact State.Level.inside bearing
  | fault => exact State.Falling.inside bearing
  | visiting | rollingBack | returning | reentering => exact (runs trivial).elim

theorem between (rests : m.Rests P w0 origin) (enters : m.focus.Enters) : m.toState.Between := by
  have bearing := rests.bearing
  obtain ⟨s, focus, pending⟩ := m
  cases focus with
  | visiting | rollingBack => exact bearing.1.between
  | returning => exact State.Abroad.between bearing
  | reentering => exact bearing.1
  | code | native | result | fault | unwinding | done => exact enters.elim

end Machine.Rests

end Tenancy
