import Tenancy.Proofs.Machine.Local

/-!
What the parts of a step come to.

A call comes to little: it is answered or refused at once, it puts the frame of a function on top
that the thread has come upon, or the thread sets out for another domain. What goes on after a step
has only to be followed from there.
-/

namespace Tenancy

open Tenancy.Action Except

theorem World.leave_eq {w w' : World} (left : w.leave k key = .ok w') :
    w' = w.modifyDomain k fun d => { d with holder := none } := by
  unfold World.leave at left
  dsimp only at left
  split at left
  · exact (ok.inj left).symm
  · simp at left

/-- What a visit in vain ends with: a fault, or the answer that there is nothing. -/
def Focus.Fails (errand : Errand) (focus : Focus) : Prop :=
  focus = Machine.stay errand ∨ ∃ f, focus = .fault f

/-- The world once the thread has parked its window and left its domain. -/
def State.Departs (s : State) (world : World) : Prop :=
  (s.world.modifyDomain s.thread.current.domain
    (·.park ⟨s.thread.key, s.thread.domains.length - 1, s.thread.window⟩)).leave
      s.thread.current.domain s.thread.key = .ok world

namespace Machine

variable {m m' : Machine}

theorem getElem?_take {stack : Array Value} (before : i < size) :
    (stack.take size)[i]? = stack[i]? := by
  rw [Array.take_eq_extract, getElem?_window]
  simp [before]

theorem size_take {stack : Array Value} (fits : size ≤ stack.size) :
    (stack.take size).size = size := by simp [fits]

theorem drop_of_suffix (suffix : short <:+ long)
    (length : n = short.length) : long.drop (long.length - n) = short := by
  obtain ⟨before, rfl⟩ := suffix
  simp [length]

/-- An action goes well or raises a fault. -/
theorem after_cases (ran : m.after act next = .ok m') :
    (∃ a s, act m.toState = .ok a s ∧ next { m with toState := s } a = .ok m') ∨
      ∃ f s, act m.toState = .error (.fault f) s ∧
        m' = { m with toState := s, focus := .fault f } := by
  rcases m with ⟨s, focus, pending⟩
  unfold after at ran
  dsimp only at ran
  split at ran
  · exact .inl ⟨_, _, ‹_›, ran⟩
  · exact .inr ⟨_, _, ‹_›, (ok.inj ran).symm⟩
  · simp at ran

/-- Quiet commands, and only they, have an answer of their own. -/
theorem stepCommand_of_quiet (m : Machine) (frame : Frame) (next : c.Reply → Native Value)
    (quiet : c.Quiet) : ∃ act, Exec.reply frame c = some act ∧ m.stepCommand frame c next =
        m.after act fun m reply => .ok { m with focus := .native (next reply) } := by
  cases c with
  | call | tryCall | restore => exact quiet.elim
  | _ => exact ⟨_, rfl, rfl⟩

theorem unwind_valid (unwound : m.unwind mark next = .ok m') :
    1 ≤ mark.domains ∧ mark.domains ≤ m.thread.domains.length ∧ mark.calls ≤ m.thread.frames.length ∧
      mark.stack ≤ m.thread.stack.size := by
  unfold unwind at unwound
  dsimp only at unwound
  split at unwound
  · assumption
  · simp at unwound

theorem unwind_eq (unwound : m.unwind mark next = .ok m') :
    m' = { m with focus := .unwinding mark next } := by
  unfold unwind at unwound
  dsimp only at unwound
  split at unwound
  · exact (ok.inj unwound).symm
  · simp at unwound

theorem world_safepoint (m : Machine) (v : Value) :
    (m.safepoint v).world = m.world ∨ (m.safepoint v).world =
      (m.world.collect m.thread.current.domain (m.thread.window ++ [v])).2 := by
  unfold safepoint
  dsimp only
  split
  · exact .inr rfl
  · exact .inl rfl

theorem safepoint_eq (m : Machine) (v : Value) :
    m.safepoint v = { m with world := (m.safepoint v).world } := by
  unfold safepoint
  dsimp only
  split <;> rfl

theorem thread_safepoint (m : Machine) (v : Value) : (m.safepoint v).thread = m.thread := by
  rw [safepoint_eq]

theorem world_collectHome (m : Machine) : m.collectHome.world = m.world ∨
    m.collectHome.world = (m.world.collect m.thread.home m.thread.stack.toList).2 := by
  unfold collectHome World.collectIfDue
  split
  · split
    · exact .inr rfl
    · exact .inl rfl
  · exact .inl rfl

theorem collectHome_eq (m : Machine) :
    m.collectHome = { m with world := m.collectHome.world } := by
  unfold collectHome
  split <;> rfl

end Machine

/-- The function is in a component of the object, or among the efuns. -/
inductive Callable.Found (s : State) : Callable → Prop where
  | component {object : ObjectKey} {component number : Nat} {program : Program} {function : Function}
      (found : (s.world.object object).program.component? component = some program)
      (listed : program.functions[number]? = some function) :
      Found s ⟨object, program, function, component, false⟩
  | efun {object : ObjectKey} {function : Function} (listed : function ∈ s.world.efuns.functions) :
      Found s ⟨object, Machine.efunProgram, function, 0, true⟩

theorem Callable.Found.all {s : State} {c : Callable}
    (found : c.Found s) (sound : s.world.Sound P) : P c.function := by
  cases found with
  | component found listed =>
    exact sound.object _ _ (List.mem_of_getElem? found) _ (List.mem_of_getElem? listed)
  | efun listed => exact sound.efuns _ listed

/-- What there is to a call, whatever waits for its outcome. -/
inductive Course (s : State) where
  | raise (f : Fault)
  | answer (v : Value)
  | invoke (c : Callable) (args : List Value) (found : c.Found s)
  | visit (target : ObjectId) (args : List Value) (name : String)

namespace Machine

variable {m m' : Machine}

def take (m : Machine) {s : State} : Course s → Except Breach Machine
  | .raise f => .ok (m.raise f)
  | .answer v => .ok (m.answer v)
  | .invoke c args _ => m.invoke c args
  | .visit target args name => m.visit target args (.call name)

/-- The call takes its course in the state. -/
def Takes (s : State) (call : Machine → Except Breach Machine) : Prop :=
  ∃ c : Course s, ∀ focus pending, call ⟨s, focus, pending⟩ = take ⟨s, focus, pending⟩ c

theorem Takes.course (takes : Takes m.toState call) (came : call m = result) :
    ∃ c : Course m.toState, m.take c = result := by
  obtain ⟨c, same⟩ := takes
  exact ⟨c, (same m.focus m.pending).symm.trans came⟩

section Courses

variable (s : State) (name : String) (args : List Value)

theorem callComponent_takes (object : ObjectKey) (component function : Nat) :
    Takes s (·.callComponent object component function args) := by
  unfold Takes callComponent
  dsimp only
  cases found : (s.world.object object).program.component? component with
  | none => exact ⟨.raise _, fun _ _ => rfl⟩
  | some program =>
    dsimp only
    cases listed : program.functions[function]? with
    | none => exact ⟨.raise _, fun _ _ => rfl⟩
    | some f => exact ⟨.invoke _ args (.component found listed), fun _ _ => rfl⟩

theorem callObject_takes (object : ObjectKey) : Takes s (·.callObject object name args) := by
  unfold Takes callObject
  dsimp only
  cases (s.world.object object).program.publicCallee? name with
  | none => exact ⟨.answer .nil, fun _ _ => rfl⟩
  | some callee => exact callComponent_takes s args object callee.component callee.function

theorem callOther_takes (target : ObjectId) : Takes s (·.callOther target name args) := by
  unfold Takes callOther
  dsimp only
  cases s.world.findObject? target with
  | none => exact ⟨.answer .nil, fun _ _ => rfl⟩
  | some key =>
    dsimp only
    cases (s.world.object key).program.publicCallee? name with
    | none => exact ⟨.answer .nil, fun _ _ => rfl⟩
    | some callee =>
      by_cases here : (s.world.object key).domain = (s.world.domain s.thread.current.domain).id
      · simp only [here, ↓reduceIte]
        exact callObject_takes s name args key
      · simp only [here, ↓reduceIte]
        exact ⟨.visit target args name, fun _ _ => rfl⟩

theorem callFar_takes (component function : Nat) : Takes s (·.callFar component function args) := by
  unfold Takes callFar
  dsimp only
  cases s.thread.frames with
  | nil => exact ⟨.raise noFrame, fun _ _ => rfl⟩
  | cons f frames =>
    dsimp only
    cases (s.world.object f.object).program.mapped? (if f.isEfun then 0 else f.component) component with
    | none => exact ⟨.raise _, fun _ _ => rfl⟩
    | some mapped => exact callComponent_takes s args f.object mapped function

theorem callSelf_takes : Takes s (·.callSelf name args) := by
  unfold Takes callSelf
  dsimp only
  cases s.thread.frames with
  | nil => exact ⟨.raise noFrame, fun _ _ => rfl⟩
  | cons f frames =>
    dsimp only
    generalize (if f.isEfun = true then ((s.world.object f.object).program, 0)
      else (f.program, f.component)) = own
    obtain ⟨program, running⟩ := own
    cases program.selfCallee? name with
    | none => exact ⟨.answer .nil, fun _ _ => rfl⟩
    | some callee =>
      dsimp only
      cases (s.world.object f.object).program.mapped? running callee.component with
      | none => exact ⟨.raise _, fun _ _ => rfl⟩
      | some mapped => exact callComponent_takes s args f.object mapped callee.function

theorem callEfun_takes : Takes s (·.callEfun name args) := by
  unfold Takes callEfun
  dsimp only
  cases found : s.world.efuns.find? name with
  | none => exact ⟨.raise _, fun _ _ => rfl⟩
  | some function =>
    cases s.thread.frames with
    | nil => exact ⟨.raise noFrame, fun _ _ => rfl⟩
    | cons f frames =>
      refine ⟨.invoke _ args (.efun ?_), fun _ _ => rfl⟩
      simp only [EfunRegistry.find?, Option.bind_eq_bind, Option.bind_eq_some_iff] at found
      obtain ⟨number, -, listed⟩ := found
      exact List.mem_of_getElem? listed

theorem request_takes (r : Request) : Takes s (·.request r) := by
  cases r with
  | other target name args => exact callOther_takes s name args target
  | far component function args => exact callFar_takes s args component function
  | self name args => exact callSelf_takes s name args
  | efun name args => exact callEfun_takes s name args

end Courses

theorem departHere_eq (departed : m.departHere = .ok m') :
    ∃ world, m.toState.Departs world ∧ m' = { m with world } := by
  simp only [departHere, pure, bind, Except.bind, Except.pure] at departed
  split at departed
  · simp at departed
  split at departed
  · simp at departed
  · rename_i world left
    exact ⟨world, left, (Except.ok.inj departed).symm⟩

/-- What a visit comes to. -/
inductive Visits (m : Machine) (target : ObjectId) (args : List Value) (errand : Errand)
    (m' : Machine) : Prop where
  | stays {focus : Focus} (fails : focus.Fails errand) (same : m' = { m with focus })
  | fails {f : Fault} {heap : Heap}
      (copied : Heap.copyAll m.thread.transfer args m.world.heap = .error f heap)
      (same : m' = ⟨⟨{ m.world with heap }, m.thread⟩, .fault f, m.pending⟩)
  | leaves {o : ObjectKey} {domain : DomainKey} {moved : List Value} {heap : Heap} {world : World}
      (room : m.thread.domains.length < m.world.settings.domainDepth)
      (found : m.world.findDomain? (m.world.object o).domain = some domain)
      (copied : Heap.copyAll m.thread.transfer args m.world.heap = .ok moved heap)
      (departs : State.Departs ⟨{ m.world with heap }, m.thread⟩ world)
      (same : m' = ⟨⟨world, m.thread⟩, .visiting domain target moved errand, m.pending⟩)

theorem visit_cases
    (visited : m.visit target args errand = .ok m') : m.Visits target args errand m' := by
  unfold visit at visited
  dsimp only at visited
  split at visited
  · exact .stays (.inr ⟨_, rfl⟩) (ok.inj visited).symm
  rename_i room
  split at visited
  · exact .stays (.inl rfl) (ok.inj visited).symm
  rename_i domain found
  obtain ⟨o, -, found⟩ := Option.bind_eq_some_iff.mp found
  rw [Exec.onHeap_apply] at visited
  cases copied : Heap.copyAll m.thread.transfer args m.world.heap with
  | error f heap =>
    rw [copied] at visited
    exact .fails copied (ok.inj visited).symm
  | ok moved heap =>
    rw [copied] at visited
    dsimp only [bind, Except.bind, pure, Except.pure] at visited
    split at visited
    · simp at visited
    · rename_i departed
      obtain ⟨world, departs, rfl⟩ := departHere_eq departed
      exact .leaves (Nat.lt_of_not_le room) found copied departs (ok.inj visited).symm

/-- The result of a crossing cannot be copied, or the thread leaves the domain with the copy. -/
theorem departBack_cases (departed : m.departBack v = .ok m') :
    (∃ f heap, Heap.copyValue m.thread.transfer v m.world.heap = .error f heap ∧
      m' = ⟨⟨{ m.world with heap }, m.thread⟩, .fault f, m.pending⟩) ∨
    ∃ moved heap world, 1 < m.thread.domains.length ∧
      Heap.copyValue m.thread.transfer v m.world.heap = .ok moved heap ∧
      World.leave { m.world with heap } m.thread.current.domain m.thread.key = .ok world ∧
      m' = ⟨⟨world, { m.thread.truncate m.thread.current.start with
        domains := m.thread.domains.tail }⟩, .returning moved, m.pending⟩ := by
  unfold departBack at departed
  split at departed
  · simp at departed
  rename_i home
  unfold after at departed
  dsimp only at departed
  rw [Exec.onHeap_apply] at departed
  cases copied : Heap.copyValue m.thread.transfer v m.world.heap with
  | error f heap =>
    rw [copied] at departed
    exact .inl ⟨f, heap, rfl, (ok.inj departed).symm⟩
  | ok moved heap =>
    rw [copied] at departed
    dsimp only [bind, Except.bind, pure, Except.pure] at departed
    split at departed
    · simp at departed
    · rename_i world left
      exact .inr ⟨moved, heap, world, Nat.lt_of_not_le home, rfl, left, (ok.inj departed).symm⟩

/-- Unwinding takes one domain context off, or has come to the contexts of the mark. -/
theorem stepUnwind_cases (stepped : m.stepUnwind mark next = .ok m') :
    (mark.domains < m.thread.domains.length ∧
      ∃ world, m.world.leave m.thread.current.domain m.thread.key = .ok world ∧
        m' = ⟨⟨world, { m.thread with domains := m.thread.domains.tail }⟩, .reentering mark next,
          m.pending⟩) ∨
    m.thread.domains.length ≤ mark.domains ∧ m' =
      { { m with thread := { m.thread.truncate mark.stack with
          frames := m.thread.frames.drop (m.thread.frames.length - mark.calls) } }.receive with
        focus := next } := by
  unfold stepUnwind at stepped
  split at stepped
  · rename_i deeper
    dsimp only [bind, Except.bind, pure, Except.pure] at stepped
    split at stepped
    · simp at stepped
    · rename_i world left
      exact .inl ⟨deeper, world, left, (ok.inj stepped).symm⟩
  · exact .inr ⟨Nat.le_of_not_lt ‹_›, (ok.inj stepped).symm⟩

theorem next_eq (stepped : Progress.ofExcept r = .next m') : r = .ok m' := by
  cases r with
  | ok n => rw [Progress.next.inj stepped]
  | error b => simp [Progress.ofExcept] at stepped

/-- Entering goes on when nobody holds the domain. -/
theorem whenFree_next (stepped : m.whenFree domain mine enter = .next m') :
    (m.world.domain domain).holder = some m.thread.key ∧ mine = .ok m' ∨
      (m.world.domain domain).holder = none ∧ enter = .ok m' := by
  unfold whenFree at stepped
  split at stepped
  · exact .inr ⟨‹_›, next_eq stepped⟩
  · split at stepped
    · rename_i key holder same
      exact .inl ⟨same ▸ holder, next_eq stepped⟩
    · simp at stepped

theorem comesBack_next {b : Breach} {back : Machine}
    (stepped : m.whenFree domain (.error b) (.ok back) = .next m') :
    (m.world.domain domain).holder = none ∧ back = m' := by
  rcases whenFree_next stepped with ⟨-, mine⟩ | ⟨free, enter⟩
  · cases mine
  · exact ⟨free, ok.inj enter⟩

/-- Only a visit expires, and then the thread turns back. -/
theorem expire?_cases (expired : m.expire? = some m') :
    (∃ domain target args errand, m.focus = .visiting domain target args errand) ∧
      ∃ f, m' = { m with focus := .rollingBack (.fault f) } := by
  unfold expire? at expired
  split at expired
  · exact ⟨⟨_, _, _, _, ‹_›⟩, _, (Option.some.inj expired).symm⟩
  · cases expired

end Machine

end Tenancy
