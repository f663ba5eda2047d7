import Tenancy.Proofs.Machine.Crossing
import Tenancy.Proofs.Machine.Mirror

/-!
Machines that run code of a component in two objects.

A machine that runs on the composed object and one that runs on an object of the component alone
take the same steps. Their frames differ in the numbers of components and in the places of variables,
which are translated at every call. What waits for a result differs in the frames only.
-/

namespace Tenancy

open Tenancy.Action Coupling Program

/-- Faults of two runs. When a component lacks a function, either fault names the component by the
number that it has in the object. -/
inductive Fault.Mirrors (place : Placement) : Fault → Fault → Prop where
  | same (f : Fault) : Mirrors place f f
  | missing {target number function : Nat} {c : Program}
      (found : place.inner.component? target = some c)
      (mapped : place.outer.mapped? place.number target = some number)
      (absent : c.functions[function]? = none) :
      Mirrors place (.badComponent number function) (.badComponent target function)

inductive Outcome.Mirrors (place : Placement) : Outcome → Outcome → Prop where
  | returned (v : Value) : Mirrors place (.returned v) (.returned v)
  | faulted {f1 f2 : Fault} (fault : f1.Mirrors place f2) :
      Mirrors place (.faulted f1) (.faulted f2)

namespace Machine

/-- What waits for a result in two runs, while these frames are on the stack. -/
inductive Waits (place : Placement) :
    List Pending → List Pending → List Frame → List Frame → Prop where
  | bare {frames : List Frame} : Waits place [.bare] [.bare] frames frames
  | store {pending1 pending2 : List Pending} {frames1 frames2 : List Frame} {f1 f2 : Frame}
      {instructions : Array Instruction} {pc : Nat} {target : Operand} {base : Nat}
      (frame : f1.Mirrors place f2) (below : Waits place pending1 pending2 frames1 frames2) :
      Waits place (.store f1 instructions pc target :: .frame base :: pending1)
        (.store f2 instructions pc target :: .frame base :: pending2) (f1 :: frames1) (f2 :: frames2)

/-- What a fault passes on its way to the host. -/
inductive Passes : List Pending → List Pending → Prop where
  | bare : Passes [.bare] [.bare]
  | frame {pending1 pending2 : List Pending} {base : Nat} (below : Passes pending1 pending2) :
      Passes (.frame base :: pending1) (.frame base :: pending2)
  | store {pending1 pending2 : List Pending} {f1 f2 : Frame} {instructions : Array Instruction}
      {pc : Nat} {target : Operand} (below : Passes pending1 pending2) :
      Passes (.store f1 instructions pc target :: pending1)
        (.store f2 instructions pc target :: pending2)

inductive Mirrors (place : Placement) : Machine → Machine → Prop where
  | code {s1 s2 : State} {f1 f2 : Frame} {frames1 frames2 : List Frame}
      {pending1 pending2 : List Pending} {instructions : Array Instruction} {pc base : Nat}
      (state : State.Mirrors place (f1 :: frames1) (f2 :: frames2) s1 s2)
      (frame : f1.Mirrors place f2) (waits : Waits place pending1 pending2 frames1 frames2) :
      Mirrors place ⟨s1, .code f1 instructions pc, .frame base :: pending1⟩
        ⟨s2, .code f2 instructions pc, .frame base :: pending2⟩
  | leave {s1 s2 : State} {f1 f2 : Frame} {frames1 frames2 : List Frame}
      {pending1 pending2 : List Pending} {v : Value} {base : Nat}
      (state : State.Mirrors place (f1 :: frames1) (f2 :: frames2) s1 s2)
      (waits : Waits place pending1 pending2 frames1 frames2) :
      Mirrors place ⟨s1, .result v, .frame base :: pending1⟩ ⟨s2, .result v, .frame base :: pending2⟩
  | result {s1 s2 : State} {frames1 frames2 : List Frame} {pending1 pending2 : List Pending}
      {v : Value} (state : State.Mirrors place frames1 frames2 s1 s2)
      (waits : Waits place pending1 pending2 frames1 frames2) :
      Mirrors place ⟨s1, .result v, pending1⟩ ⟨s2, .result v, pending2⟩
  | fault {s1 s2 : State} {frames1 frames2 : List Frame} {pending1 pending2 : List Pending}
      {f1 f2 : Fault} (state : State.Mirrors place frames1 frames2 s1 s2)
      (passes : Passes pending1 pending2) (fault : f1.Mirrors place f2) :
      Mirrors place ⟨s1, .fault f1, pending1⟩ ⟨s2, .fault f2, pending2⟩
  /-- Native code is not followed any further. -/
  | native {s1 s2 : State} {pending1 pending2 : List Pending} {body : Native Value} :
      Mirrors place ⟨s1, .native body, pending1⟩ ⟨s2, .native body, pending2⟩
  | done {s1 s2 : State} {frames1 frames2 : List Frame} {pending1 pending2 : List Pending}
      {o1 o2 : Outcome} (state : State.Mirrors place frames1 frames2 s1 s2)
      (outcome : o1.Mirrors place o2) :
      Mirrors place ⟨s1, .done o1, pending1⟩ ⟨s2, .done o2, pending2⟩

/-- Machines that two runs go on with, or the breach that ends both. -/
inductive Goes (place : Placement) : Except Breach Machine → Except Breach Machine → Prop where
  | ok {m1 m2 : Machine} (mirrors : m1.Mirrors place m2) : Goes place (.ok m1) (.ok m2)
  | error (b : Breach) : Goes place (.error b) (.error b)

end Machine

/-- The call is one of the object itself. -/
def Request.inward : Request → Bool
  | .far _ _ _ | .self _ _ => true
  | .other _ _ _ | .efun _ _ => false

def Effect.inward : Effect → Bool
  | .call request _ => request.inward
  | .next _ | .ret _ => true

/-- Machines of two runs that take a step. -/
inductive Progress.Mirrors (place : Placement) : Progress → Progress → Prop where
  | next {m1 m2 : Machine} (mirrors : m1.Mirrors place m2) : Mirrors place (.next m1) (.next m2)
  | done {frames1 frames2 : List Frame} {s1 s2 : State} {o1 o2 : Outcome}
      (state : State.Mirrors place frames1 frames2 s1 s2) (outcome : o1.Mirrors place o2) :
      Mirrors place (.done o1 s1) (.done o2 s2)
  | broken (b : Breach) : Mirrors place (.broken b) (.broken b)

namespace Machine

/-- The next step calls neither another object nor an efun, and runs no native code. -/
def inward (m : Machine) : Bool :=
  match m.focus with
  | .code frame instructions pc =>
    match Exec.instruction frame instructions pc m.toState with
    | .ok effect _ => effect.inward
    | .error _ _ => true
  | .native _ => false
  | _ => true

variable {place : Placement} {programs : List Program} {s1 s2 : State} {f1 f2 : Frame}
  {frames1 frames2 : List Frame} {pending1 pending2 : List Pending} {focus1 focus2 : Focus}
  {target number : Nat} {c : Program}

theorem Waits.length_eq (waits : Waits place pending1 pending2 frames1 frames2) :
    frames2.length = frames1.length := by
  induction waits with
  | bare => rfl
  | store _ _ ih => simp [ih]

theorem Waits.passes (waits : Waits place pending1 pending2 frames1 frames2) :
    Passes pending1 pending2 := by
  induction waits with
  | bare => exact .bare
  | store _ _ ih => exact .store (.frame ih)

theorem after_mirrors (couples : (State.mirroring place frames1 frames2).Couples s1 s2 Q act1 act2)
    (passes : Passes pending1 pending2)
    (next : ∀ a t1 t2, act2 s2 = .ok a t2 → State.Mirrors place frames1 frames2 t1 t2 →
      Goes place (next1 ⟨t1, focus1, pending1⟩ a) (next2 ⟨t2, focus2, pending2⟩ a)) :
    Goes place (after ⟨s1, focus1, pending1⟩ act1 next1)
      (after ⟨s2, focus2, pending2⟩ act2 next2) := by
  unfold Couples at couples
  rw [after_eq, after_eq]
  generalize act1 s1 = r1 at couples
  generalize act2 s2 = r2 at couples next
  cases couples with
  | @ok a t1 t2 state => exact next a t1 t2 rfl state
  | @error trouble t1 t2 state =>
    cases trouble with
    | fault f => exact .ok (.fault state passes (.same f))
    | breach b => exact .error b

theorem pushFrame_mirrors (state : State.Mirrors place frames1 frames2 s1 s2)
    (frame : f1.Mirrors place f2) (args : List Value) :
    State.Mirrors place (f1 :: frames1) (f2 :: frames2)
      { s1 with thread := pushFrame s1.thread f1 args }
      { s2 with thread := pushFrame s2.thread f2 args } where
  world := state.world
  frames := by
    unfold pushFrame
    rw [state.frames]
  thread := by
    rw [state.thread, frame.same]
    rfl
  owner := state.owner
  housed := state.housed

section

variable (apt : place.Apt programs)
  (state : State.Mirrors place frames1 frames2 s1 s2)
  (waits : Waits place pending1 pending2 frames1 frames2)
include apt state waits

theorem invoke_mirrors (found : place.inner.component? target = some c)
    (component : place.outer.component? number = some c)
    (mapped : place.outer.mapped? place.number target = some number) (function : Function)
    (args : List Value) :
    Goes place (invoke ⟨s1, focus1, pending1⟩ ⟨place.whole, c, function, number, false⟩ args)
      (invoke ⟨s2, focus2, pending2⟩ ⟨place.part, c, function, target, false⟩ args) := by
  have depth : s2.thread.frames.length = s1.thread.frames.length := by
    rw [state.thread, state.frames, waits.length_eq]
  have frame :
      (newFrame ⟨s1, focus1, pending1⟩ ⟨place.whole, c, function, number, false⟩ args).Mirrors place
        (newFrame ⟨s2, focus2, pending2⟩ ⟨place.part, c, function, target, false⟩ args) := by
    unfold newFrame
    rw [state.outer_eq, state.inner_eq, slice?, slice?, found, component, state.thread]
    exact ⟨found, mapped, rfl, rfl, rfl, rfl, rfl⟩
  unfold invoke
  generalize newFrame ⟨s1, focus1, pending1⟩ _ args = f1 at frame
  generalize newFrame ⟨s2, focus2, pending2⟩ _ args = f2 at frame
  have room : reserve f1 = reserve f2 := by rw [frame.same]; rfl
  have base : f1.argsBase = f2.argsBase := by rw [frame.same]
  dsimp only
  rw [depth, state.world.settings_eq, room, base]
  split
  · exact .ok (.fault state waits.passes (.same _))
  · have pushed := pushFrame_mirrors state frame args
    cases reserve f2 with
    | error b => exact .error b
    | ok _ =>
      cases function.body with
      | native body =>
        dsimp only
        rw [beginNative_eq, beginNative_eq]
        apply after_mirrors ((State.mirrorPair apt frame _ _).checkParameters_couples pushed)
          (.frame waits.passes)
        intro _ t1 t2 _ _
        exact .ok .native
      | code instrs => exact .ok (.code pushed frame waits)
      | undefined => exact .ok (.leave pushed waits)

theorem callComponent_mirrors
    (mapped : place.outer.mapped? place.number target = some number) (function : Nat)
    (args : List Value) :
    Goes place (callComponent ⟨s1, focus1, pending1⟩ place.whole number function args)
      (callComponent ⟨s2, focus2, pending2⟩ place.part target function args) := by
  obtain ⟨c, found, component⟩ := apt.embeds.component?_mapped mapped
  unfold callComponent
  rw [state.outer_eq, state.inner_eq, found, component]
  dsimp only
  cases listed : c.functions[function]? with
  | none => exact .ok (.fault state waits.passes (.missing found mapped listed))
  | some f => exact invoke_mirrors apt state waits found component mapped f args

end

section

variable (apt : place.Apt programs) (frame : f1.Mirrors place f2)
include apt frame

/-- A number is translated twice: from the running code to the part, and from there to the whole. -/
theorem mapped_mirrors (component : Nat) : (place.outer.mapped? f1.component component = none ∧
      place.inner.mapped? f2.component component = none) ∨
    ∃ number target, place.outer.mapped? f1.component component = some number ∧
      place.inner.mapped? f2.component component = some target ∧
      place.outer.mapped? place.number target = some number := by
  rw [apt.embeds.mapped?_mapped frame.found frame.mapped]
  cases inner : place.inner.mapped? f2.component component with
  | none => exact .inl ⟨rfl, rfl⟩
  | some target =>
    obtain ⟨c, -, found⟩ := apt.embeds.inner.component?_mapped frame.found inner
    obtain ⟨number, mapped, -⟩ := apt.embeds.exists_number found
    exact .inr ⟨number, target, mapped, rfl, mapped⟩

section

variable (state : State.Mirrors place (f1 :: frames1) (f2 :: frames2) s1 s2)
  (waits : Waits place pending1 pending2 (f1 :: frames1) (f2 :: frames2))
include state waits

theorem callFar_mirrors (component function : Nat) (args : List Value) :
    Goes place (callFar ⟨s1, focus1, pending1⟩ component function args)
      (callFar ⟨s2, focus2, pending2⟩ component function args) := by
  unfold callFar
  rw [state.frames, state.thread]
  dsimp only
  rw [frame.own_eq, frame.own, frame.object_eq, frame.object, state.outer_eq, state.inner_eq,
    if_neg Bool.false_ne_true, if_neg Bool.false_ne_true]
  rcases mapped_mirrors apt frame component with
    ⟨first, second⟩ | ⟨number, target, first, second, mapped⟩
  · rw [first, second]
    exact .ok (.fault state waits.passes (.same _))
  · rw [first, second]
    exact callComponent_mirrors apt state waits mapped function args

theorem callSelf_mirrors (name : String) (args : List Value) :
    Goes place (callSelf ⟨s1, focus1, pending1⟩ name args)
      (callSelf ⟨s2, focus2, pending2⟩ name args) := by
  unfold callSelf
  rw [state.frames, state.thread]
  dsimp only
  rw [frame.own_eq, frame.own, frame.object_eq, frame.object, state.outer_eq, state.inner_eq,
    frame.program_eq, if_neg Bool.false_ne_true, if_neg Bool.false_ne_true]
  cases f2.program.selfCallee? name with
  | none => exact .ok (.result state waits)
  | some callee =>
    rcases mapped_mirrors apt frame callee.component with
      ⟨first, second⟩ | ⟨number, target, first, second, mapped⟩
    · dsimp only
      rw [first, second]
      exact .ok (.fault state waits.passes (.same _))
    · dsimp only
      rw [first, second]
      exact callComponent_mirrors apt state waits mapped callee.function args

end

end

section

variable (apt : place.Apt programs) (waits : Waits place pending1 pending2 frames1 frames2)
include apt waits

theorem stepCode_mirrors (frame : f1.Mirrors place f2)
    (state : State.Mirrors place (f1 :: frames1) (f2 :: frames2) s1 s2)
    (inward : ∀ effect t, Exec.instruction f2 instrs pc s2 = .ok effect t → effect.inward) :
    Goes place (stepCode ⟨s1, focus1, .frame base :: pending1⟩ f1 instrs pc)
      (stepCode ⟨s2, focus2, .frame base :: pending2⟩ f2 instrs pc) := by
  have couples := (State.mirrorPair apt frame _ _).instruction_couples state instrs pc
  apply after_mirrors couples (.frame waits.passes)
  intro effect t1 t2 ran state
  have inward := inward effect t2 ran
  cases effect with
  | next pc => exact .ok (.code state frame waits)
  | ret v => exact .ok (.leave state waits)
  | call request target =>
    cases request with
    | other _ _ _ => cases inward
    | far component function args =>
      exact callFar_mirrors apt frame state (.store frame waits) component function args
    | self name args => exact callSelf_mirrors apt frame state (.store frame waits) name args
    | efun _ _ => cases inward

theorem safepoint_mirrors (state : State.Mirrors place frames1 frames2 s1 s2) (v : Value) :
    (safepoint ⟨s1, .result v, pending1⟩ v).Mirrors place
      (safepoint ⟨s2, .result v, pending2⟩ v) := by
  have window : s2.thread.window = s1.thread.window := by
    rw [state.thread]
    rfl
  unfold safepoint
  dsimp only
  rw [state.current_eq, state.world.needsCollection_eq, window]
  split
  · exact .result (state.collect apt _) waits
  · exact .result state waits

theorem leave_mirrors (state : State.Mirrors place (f1 :: frames1) (f2 :: frames2) s1 s2) (v : Value)
    (base : Nat) :
    Goes place (stepResult ⟨s1, .result v, .frame base :: pending1⟩ v)
      (stepResult ⟨s2, .result v, .frame base :: pending2⟩ v) := by
  unfold stepResult
  refine .ok (safepoint_mirrors apt waits ?_ v)
  constructor
  · exact state.world
  · rw [state.frames]
    rfl
  · rw [state.thread]
    rfl
  · exact state.owner
  · exact state.housed

theorem stepResult_mirrors (state : State.Mirrors place frames1 frames2 s1 s2) (v : Value) :
    Goes place (stepResult ⟨s1, .result v, pending1⟩ v) (stepResult ⟨s2, .result v, pending2⟩ v) := by
  cases waits with
  | bare => exact .ok (.done state (.returned v))
  | @store _ _ _ _ f1 f2 _ _ target _ frame below =>
    unfold stepResult
    apply after_mirrors ((State.mirrorPair apt frame _ _).write_couples state target trivial)
      (.frame below.passes)
    intro _ t1 t2 _ state
    exact .ok (.code state frame below)

end

theorem Goes.progress (goes : Goes place r1 r2) :
    (Progress.ofExcept r1).Mirrors place (Progress.ofExcept r2) := by
  cases goes with
  | ok mirrors => exact .next mirrors
  | error b => exact .broken b

theorem Mirrors.step {m1 m2 : Machine} (apt : place.Apt programs) (mirrors : m1.Mirrors place m2)
    (inward : m2.inward) : m1.step.Mirrors place m2.step := by
  cases mirrors with
  | code state frame waits =>
    apply Goes.progress
    apply stepCode_mirrors apt waits frame state
    intro effect t ran
    simpa only [Machine.inward, ran] using inward
  | leave state waits => exact (leave_mirrors apt waits state _ _).progress
  | result state waits => exact (stepResult_mirrors apt waits state _).progress
  | fault state passes fault =>
    cases passes with
    | bare => exact .next (.done state (.faulted fault))
    | frame below => exact .next (.fault state below fault)
    | store below => exact .next (.fault state below fault)
  | native => cases inward
  | done state outcome => exact .done state outcome

end Machine

end Tenancy
