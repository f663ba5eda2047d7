import Tenancy.Proofs.Heap.Kinship
import Tenancy.Proofs.Machine.Local
import Tenancy.Proofs.Machine.Window

/-!
Instructions of two frames.

What an instruction does comes down to slots of the stack, fields of the storage, literals of the
program, and payloads that are made and changed. Frames for which these are the same, wherever the
storage of each of them is, run every instruction alike.
-/

namespace Tenancy

open Tenancy.Action Coupling List Exec

def Request.args : Request → List Value
  | .other _ _ args | .far _ _ args | .self _ args | .efun _ args => args

/-- What an instruction hands on satisfies a condition. -/
def Effect.Holds (p : Value → Prop) : Effect → Prop
  | .next _ => True
  | .ret v => p v
  | .call request _ => ∀ v ∈ request.args, p v

/-- The slots that code of the frame can name: arguments, whether given or not, and locals. -/
def Frame.Spans (f : Frame) (i : Nat) : Prop :=
  f.argsBase ≤ i ∧ (i < f.argsBase + f.argc ∨ i < f.argsBase + f.argSlots) ∨
    f.localsBase ≤ i ∧ i < f.localsBase + f.localCount

theorem Frame.Spans.lt {f : Frame} (spans : f.Spans i) (lies : f.Lies size) : i < size := by
  have given := lies.given
  have locals := lies.locals
  have fits := lies.fits
  unfold Spans at spans
  omega

def State.setSlot (s : State) (i : Nat) (v : Value) : State :=
  { s with thread := { s.thread with stack := s.thread.stack.setIfInBounds i v } }

theorem State.getElem?_setSlot (s : State) (i j : Nat) (v : Value) :
    (s.setSlot i v).thread.stack[j]? =
      if i = j then (if i < s.thread.stack.size then some v else none) else s.thread.stack[j]? :=
  Array.getElem?_setIfInBounds

def World.putMember (w : World) (key : ObjectKey) (x : Nat) (v : Value) : World :=
  w.modifyObject key fun o => { o with members := o.members.setIfInBounds x v }

/-- Heaps that go together make states that go together. -/
def Coupling.Lifts (H : Coupling Heap) (C : Coupling State) (s1 s2 : State) : Prop :=
  ∀ h1 h2, H.Related h1 h2 → H.Leads s1.world.heap h1 →
    C.Related { s1 with world := { s1.world with heap := h1 } }
      { s2 with world := { s2.world with heap := h2 } } ∧
    C.Leads s1 { s1 with world := { s1.world with heap := h1 } }

theorem Coupling.Lifts.onHeap {H : Coupling Heap} {C : Coupling State} {s1 s2 : State}
    (lifts : H.Lifts C s1 s2) (couples : H.Couples s1.world.heap s2.world.heap Q act act) :
    C.Couples s1 s2 (fun a s => Q a s.world.heap ∧ s.owner = s1.owner) (onHeap act)
      (onHeap act) := by
  unfold Couples at *
  rw [onHeap_apply, onHeap_apply]
  generalize act s1.world.heap = r1 at couples
  generalize act s2.world.heap = r2 at couples
  cases couples with
  | ok heap leads result =>
    obtain ⟨rel, leads⟩ := lifts _ _ heap leads
    exact .ok rel leads ⟨result, rfl⟩
  | error heap leads =>
    obtain ⟨rel, leads⟩ := lifts _ _ heap leads
    exact .error rel leads

/-- Frames that differ in the place of their storage at most, in states where slots, storage and
literals are the same to them and the heaps go together, and the values that may be used. -/
structure Companions (f1 f2 : Frame) extends Coupling State where
  G : Nat → Prop
  kin : (l : ListId) → Kinship G l
  Fits : State → Value → Prop
  scalar : ∀ {s : State} {v : Value}, v.ref? = none → Fits s v
  keep : ∀ {s s' : State} {v : Value}, Leads s s' → Fits s v → Fits s' v
  same : f1 = { f2 with
    object := f1.object, component := f1.component, memberOffset := f1.memberOffset }
  constant : ∀ {s1 s2 : State} {v : Value}, Related s1 s2 → v ∈ f2.program.constants → Fits s1 v
  default : ∀ {s1 s2 : State} {v : Value}, Related s1 s2 → v ∈ f2.function.defaults → Fits s1 v
  /-- The stacks are of one height, or else the window of the frame lies on both. -/
  stack : ∀ {s1 s2 : State}, Related s1 s2 → s2.thread.stack.size = s1.thread.stack.size ∨
    f2.Lies s1.thread.stack.size ∧ f2.Lies s2.thread.stack.size
  slot : ∀ {s1 s2 : State} {i : Nat}, Related s1 s2 → f2.Spans i →
    s2.thread.stack[i]? = s1.thread.stack[i]? ∧ ∀ v, s1.thread.stack[i]? = some v → Fits s1 v
  setSlot : ∀ {s1 s2 : State} {i : Nat} {v : Value}, Related s1 s2 → f2.Spans i → Fits s1 v →
    Related (s1.setSlot i v) (s2.setSlot i v) ∧ Leads s1 (s1.setSlot i v)
  field : ∀ {s1 s2 : State} {x : Nat}, Related s1 s2 → x < f2.memberCount →
    (s2.world.object f2.object).members[f2.memberOffset + x]? =
      (s1.world.object f1.object).members[f1.memberOffset + x]? ∧
    ∀ v, (s1.world.object f1.object).members[f1.memberOffset + x]? = some v → Fits s1 v
  setField : ∀ {s1 s2 : State} {x : Nat} {v : Value}, Related s1 s2 → x < f2.memberCount →
    Fits s1 v →
    Related { s1 with world := s1.world.putMember f1.object (f1.memberOffset + x) v }
      { s2 with world := s2.world.putMember f2.object (f2.memberOffset + x) v } ∧
    Leads s1 { s1 with world := s1.world.putMember f1.object (f1.memberOffset + x) v }
  owner : ∀ {s1 s2 : State}, Related s1 s2 → s2.owner = s1.owner
  valid : ∀ {s1 s2 : State}, Related s1 s2 → s1.owner.number < s1.world.heap.lists.size
  heap : ∀ {s1 s2 : State}, Related s1 s2 → (kin s1.owner).Related s1.world.heap s2.world.heap
  deep : ∀ {s1 s2 : State}, Related s1 s2 → (kin s1.owner).Deep
  fits : ∀ {s1 s2 : State} {v : Value}, Related s1 s2 →
    (Fits s1 v ↔ (kin s1.owner).Fits s1.world.heap v)
  /-- The heaps may change together. -/
  lifts : ∀ {s1 s2 : State}, Related s1 s2 → (kin s1.owner).Lifts toCoupling s1 s2

theorem Function.slotValue_cases (f : Function) (argc slot : Nat) (given : Value) :
    f.slotValue argc slot given = given ∨ f.slotValue argc slot given = .nil ∨
      f.slotValue argc slot given ∈ f.defaults := by
  unfold slotValue
  split
  · exact .inl rfl
  · split
    · rename_i p found
      cases default : p.default with
      | none => exact .inr (.inl rfl)
      | some v =>
        refine .inr (.inr (mem_filterMap.mpr ⟨p, mem_of_getElem? found, ?_⟩))
        simp [default]
    · exact .inl rfl

namespace Exec

theorem mem_pairs {e : Value × Value} (listed : e ∈ pairs items) : e.1 ∈ items ∧ e.2 ∈ items := by
  fun_induction pairs items with
  | case1 key value rest ih =>
    rcases mem_cons.mp listed with rfl | later
    · simp
    · obtain ⟨first, second⟩ := ih later
      simp [first, second]
  | case2 => simp at listed

theorem mem_window {stack : Array Value} (listed : v ∈ (stack.extract start stop).toList) :
    ∃ i, start ≤ i ∧ i < stop ∧ stack[i]? = some v := by
  obtain ⟨i, found⟩ := mem_iff_getElem?.mp listed
  rw [Array.getElem?_toList, getElem?_window] at found
  split at found
  · exact ⟨start + i, Nat.le_add_right _ _, ‹_›, found⟩
  · simp at found

end Exec

namespace Companions

variable {f1 f2 : Frame} (pair : Companions f1 f2) {s1 s2 : State} {v : Value}

/-! ### Slots -/

section

variable (rel : pair.Related s1 s2)
include rel

theorem stackGet_couples (spans : f2.Spans i) :
    pair.Couples s1 s2 (fun v s => pair.Fits s v) (stackGet i) (stackGet i) := by
  obtain ⟨same, fits⟩ := pair.slot rel spans
  apply couples_get_bind
  dsimp only
  rw [same]
  cases found : s1.thread.stack[i]? with
  | some v => exact couples_pure rel (fits v found)
  | none =>
    rcases pair.stack rel with height | ⟨lies, -⟩
    · dsimp only
      rw [height]
      exact couples_throw rel _
    · exact absurd (spans.lt lies) (Nat.not_lt.mpr (Array.getElem?_eq_none_iff.mp found))

theorem stackSet_couples (spans : f2.Spans i) (fits : pair.Fits s1 v) :
    pair.Couples s1 s2 (fun _ _ => True) (stackSet i v) (stackSet i v) := by
  obtain ⟨after, leads⟩ := pair.setSlot rel spans fits
  apply couples_get_bind
  dsimp only
  rcases pair.stack rel with height | ⟨lies, liesToo⟩
  · rw [height]
    split
    · exact .ok after leads trivial
    · exact couples_throw rel _
  · rw [if_pos (spans.lt lies), if_pos (spans.lt liesToo)]
    exact .ok after leads trivial

theorem stackSlice_couples (spans : ∀ i, start ≤ i → i < stop → f2.Spans i)
    (ends : ∀ {size}, f2.Lies size → stop ≤ size) :
    pair.Couples s1 s2 (fun vs s => vs.length = stop - start ∧ ∀ v ∈ vs, pair.Fits s v)
      (stackSlice start stop) (stackSlice start stop) := by
  have same : s2.thread.stack.extract start stop = s1.thread.stack.extract start stop := by
    apply Array.ext_getElem?
    intro i
    rw [getElem?_window, getElem?_window]
    split
    · exact (pair.slot rel (spans _ (Nat.le_add_right _ _) ‹_›)).1
    · rfl
  have read : stop ≤ s1.thread.stack.size →
      pair.Couples s1 s2 (fun vs s => vs.length = stop - start ∧ ∀ v ∈ vs, pair.Fits s v)
        (pure (s1.thread.stack.extract start stop).toList : Exec (List Value))
        (pure (s1.thread.stack.extract start stop).toList) := by
    refine fun within => couples_pure rel ⟨?_, fun v listed => ?_⟩
    · rw [Array.length_toList, Array.size_extract, Nat.min_eq_left within]
    · obtain ⟨i, low, high, found⟩ := mem_window listed
      exact (pair.slot rel (spans i low high)).2 v found
  apply couples_get_bind
  dsimp only
  rw [same]
  rcases pair.stack rel with height | ⟨lies, liesToo⟩
  · rw [height]
    split
    · exact read ‹_›
    · exact couples_throw rel _
  · rw [if_pos (ends lies), if_pos (ends liesToo)]
    exact read (ends lies)

theorem arguments_couples :
    pair.Couples s1 s2 (fun vs s => vs.length = f2.argSlots ∧ ∀ v ∈ vs, pair.Fits s v)
      (stackSlice f2.argsBase (f2.argsBase + f2.argSlots))
      (stackSlice f2.argsBase (f2.argsBase + f2.argSlots)) :=
  (pair.stackSlice_couples rel (fun _ low high => .inl ⟨low, .inr high⟩) Frame.Lies.slots_le).mono
    fun _ _ _ read => ⟨read.1.trans (Nat.add_sub_cancel_left _ _), read.2⟩

theorem checkParameters_couples :
    pair.Couples s1 s2 (fun _ _ => True) (checkParameters f1) (checkParameters f2) := by
  have same : checkParameters f1 = checkParameters f2 := by
    rw [pair.same]
    rfl
  rw [same]
  refine (pair.stackSlice_couples rel (fun i low high => .inl ⟨low, .inl high⟩) fun lies =>
    (Nat.add_le_add_left lies.given _).trans lies.slots_le).bind
    fun args t1 t2 rel _ _ => ?_
  refine Couples.bind (P := fun _ _ => True) ?_ fun _ u1 u2 rel _ _ => ?_
  · cases f2.function.checkArguments args with
    | ok _ => exact couples_pure rel trivial
    | error _ => exact couples_throw rel _
  refine (pair.arguments_couples rel).bind fun slots x1 x2 rel _ read => ?_
  obtain ⟨count, fits⟩ := read
  refine couples_forM (I := fun _ => True) rel trivial fun e listed y1 y2 later leads _ => ?_
  have below := snd_lt_of_mem_zipIdx listed
  simp only [Function.padDefaults, length_mapIdx] at below
  refine pair.stackSet_couples later (.inl ⟨Nat.le_add_right _ _, .inr (by omega)⟩)
    (pair.keep leads ?_)
  obtain ⟨i, within, same⟩ := mem_mapIdx.mp (fst_mem_of_mem_zipIdx listed)
  rw [← same]
  rcases f2.function.slotValue_cases f2.argc i slots[i] with given | unset | default
  · rw [given]
    exact fits _ (getElem_mem within)
  · rw [unset]
    exact pair.scalar rfl
  · exact pair.default rel default

end

/-! ### Operands -/

include pair in
theorem frame_eq : f1.program = f2.program ∧ f1.argsBase = f2.argsBase ∧ f1.argSlots = f2.argSlots ∧
    f1.localsBase = f2.localsBase ∧ f1.localCount = f2.localCount ∧
      f1.memberCount = f2.memberCount := by
  rw [pair.same]
  exact ⟨rfl, rfl, rfl, rfl, rfl, rfl⟩

section

variable (rel : pair.Related s1 s2)
include rel

theorem read_couples (o : Operand) :
    pair.Couples s1 s2 (fun v s => pair.Fits s v) (read f1 o) (read f2 o) := by
  obtain ⟨program, args, slots, locals, count, members⟩ := pair.frame_eq
  unfold Exec.read
  dsimp only
  rw [program, args, slots, locals, count, members]
  split
  · split
    · rename_i v found
      exact couples_pure rel (pair.constant rel (mem_of_getElem? found))
    · exact couples_throw rel _
  · split
    · exact pair.stackGet_couples rel (.inl ⟨Nat.le_add_right _ _, .inr (by omega)⟩)
    · exact couples_throw rel _
  · split
    · exact pair.stackGet_couples rel (.inr ⟨Nat.le_add_right _ _, by omega⟩)
    · exact couples_throw rel _
  · split
    · rename_i within
      obtain ⟨same, fits⟩ := pair.field rel within
      apply couples_get_bind
      rw [same]
      split
      · exact couples_pure rel (fits _ ‹_›)
      · exact couples_throw rel _
    · exact couples_throw rel _

theorem setMember_couples (within : x < f2.memberCount) (fits : pair.Fits s1 v) :
    pair.Couples s1 s2 (fun _ _ => True) (setMember f1.object (f1.memberOffset + x) v)
      (setMember f2.object (f2.memberOffset + x) v) := by
  obtain ⟨after, leads⟩ := pair.setField rel within fits
  have there : f2.memberOffset + x < (s2.world.object f2.object).members.size ↔
      f1.memberOffset + x < (s1.world.object f1.object).members.size := by
    have same := congrArg Option.isSome (pair.field rel within).1
    rw [Bool.eq_iff_iff] at same
    simpa using same
  apply couples_get_bind
  by_cases inside : f1.memberOffset + x < (s1.world.object f1.object).members.size
  · rw [if_pos inside, if_pos (there.mpr inside)]
    exact .ok after leads trivial
  · rw [if_neg inside, if_neg (mt there.mp inside)]
    exact couples_pure rel trivial

theorem write_couples (o : Operand) (fits : pair.Fits s1 v) :
    pair.Couples s1 s2 (fun _ _ => True) (write f1 o v) (write f2 o v) := by
  obtain ⟨-, args, slots, locals, count, members⟩ := pair.frame_eq
  unfold write
  dsimp only
  rw [args, slots, locals, count, members]
  split
  · exact couples_throw rel _
  · split
    · exact pair.stackSet_couples rel (.inl ⟨Nat.le_add_right _ _, .inr (by omega)⟩) fits
    · exact couples_throw rel _
  · split
    · exact pair.stackSet_couples rel (.inr ⟨Nat.le_add_right _ _, by omega⟩) fits
    · exact couples_throw rel _
  · split
    · refine (pair.setMember_couples rel ‹_› fits).bind fun found t1 t2 rel _ _ => ?_
      split
      · exact couples_throw rel _
      · exact couples_pure rel trivial
    · exact couples_throw rel _

theorem window_couples (w : Window) :
    pair.Couples s1 s2 (fun vs s => ∀ v ∈ vs, pair.Fits s v) (window f1 w) (window f2 w) := by
  obtain ⟨-, -, -, locals, count, -⟩ := pair.frame_eq
  unfold window
  rw [locals, count]
  split
  · refine (pair.stackSlice_couples rel (fun i low high => .inr ⟨?_, ?_⟩) ?_).mono
      fun _ _ _ read => read.2
    · omega
    · omega
    · exact fun lies => (Nat.add_le_add_left ‹_› _).trans lies.fits
  · exact couples_throw rel _

theorem constantText_couples (index : UInt16) :
    pair.Couples s1 s2 (fun _ _ => True) (constantText f1 index) (constantText f2 index) := by
  have same : f2.program.constants[index.toNat]?.bind s2.world.heap.text? =
      f2.program.constants[index.toNat]?.bind s1.world.heap.text? := by
    cases found : f2.program.constants[index.toNat]? with
    | none => rfl
    | some v =>
      have fits := (pair.fits rel).mp (pair.constant rel (mem_of_getElem? found))
      exact ((pair.kin _).agree (pair.heap rel)).text?_eq ((pair.kin _).avoids fits)
  unfold constantText
  rw [pair.frame_eq.1]
  apply couples_get_bind
  dsimp only
  rw [same]
  split
  · exact couples_pure rel trivial
  · exact couples_throw rel _

end

/-! ### Payloads -/

section

variable (rel : pair.Related s1 s2)
include rel

theorem onHeap_couples (couples : (pair.kin s1.owner).Couples s1.world.heap s2.world.heap
      (fun v h => (pair.kin s1.owner).Fits h v) act act) :
    pair.Couples s1 s2 (fun v s => pair.Fits s v) (onHeap act) (onHeap act) := by
  have meets := (pair.lifts rel).onHeap couples
  unfold Couples at *
  generalize onHeap act s1 = r1 at meets
  generalize onHeap act s2 = r2 at meets
  cases meets with
  | ok after leads result =>
    obtain ⟨fits, owner⟩ := result
    exact .ok after leads ((pair.fits after).mpr (by rwa [owner]))
  | error after leads => exact .error after leads

theorem inDomain_couples (couples : (pair.kin s1.owner).Couples s1.world.heap s2.world.heap
      (fun v h => (pair.kin s1.owner).Fits h v) (act s1.owner) (act s1.owner)) :
    pair.Couples s1 s2 (fun v s => pair.Fits s v) (inDomain act) (inDomain act) := by
  unfold Couples
  rw [inDomain_apply, inDomain_apply, pair.owner rel]
  exact pair.onHeap_couples rel couples

theorem place_couples {payload : Payload} (holds : ∀ v, payload.Holds v → pair.Fits s1 v) :
    pair.Couples s1 s2 (fun v s => pair.Fits s v) (inDomain fun owner => HeapM.place owner payload)
      (inDomain fun owner => HeapM.place owner payload) :=
  pair.inDomain_couples rel ((pair.kin _).place_couples (pair.heap rel) (pair.valid rel)
    fun v held => (pair.fits rel).mp (holds v held))

end

/-! ### Instructions -/

section

variable (rel : pair.Related s1 s2)
include rel

theorem fail_couples (f : Fault) :
    pair.Couples s1 s2 Q (fail f) (fail f) := couples_throw rel _

theorem ofExcept_couples (result : ∀ v, r = .ok v → pair.Fits s1 v) :
    pair.Couples s1 s2 (fun v s => pair.Fits s v) (ofExcept r) (ofExcept r) := by
  cases r with
  | ok v => exact couples_pure rel (result v rfl)
  | error f => exact pair.fail_couples rel f

theorem jump_couples (instrs : Array Instruction) (target : UInt16) :
    pair.Couples s1 s2 (fun e s => e.Holds (pair.Fits s)) (jump instrs target)
      (jump instrs target) := by
  unfold jump
  dsimp only
  split
  · exact couples_pure rel trivial
  · exact pair.fail_couples rel _

theorem store_couples (fits : pair.Fits s1 v) (o : Operand) (pc : Nat) :
    pair.Couples s1 s2 (fun e s => e.Holds (pair.Fits s))
      (do write f1 o v; return Effect.next pc) (do write f2 o v; return Effect.next pc) :=
  (pair.write_couples rel o fits).bind fun _ _ _ rel _ _ => couples_pure rel trivial

/-- One case for each operation; each reads its operands, acts and stores. -/
theorem execute_couples (instrs : Array Instruction) (i : Instruction) (pc : Nat) (op : Opcode) :
    pair.Couples s1 s2 (fun e s => e.Holds (pair.Fits s)) (execute f1 instrs i pc op)
      (execute f2 instrs i pc op) := by
  have stores : ∀ {v t1 t2}, pair.Related t1 t2 → pair.Fits t1 v →
      pair.Couples t1 t2 (fun e s => e.Holds (pair.Fits s))
        (do write f1 i.first v; return Effect.next pc)
        (do write f2 i.first v; return Effect.next pc) :=
    fun rel fits => pair.store_couples rel fits i.first pc
  unfold execute
  cases op with
  | ret => exact (pair.read_couples rel _).bind fun _ _ _ rel _ fits => couples_pure rel fits
  | nop => exact couples_pure rel trivial
  | chkparam =>
    exact (pair.checkParameters_couples rel).bind fun _ _ _ rel _ _ => couples_pure rel trivial
  | mov => exact (pair.read_couples rel _).bind fun _ _ _ rel _ fits => stores rel fits
  | ldi | ldr | ldn => exact stores rel (pair.scalar rfl)
  | binary op flavour =>
    refine (pair.read_couples rel _).bind fun a t1 t2 rel _ first => ?_
    refine (pair.read_couples rel _).bind fun b u1 u2 rel leads second => ?_
    have operands := (pair.kin _).typed_couples (pair.deep rel) (pair.heap rel)
      (pair.valid rel) ((pair.fits rel).mp (pair.keep leads first))
      ((pair.fits rel).mp second) op flavour
    exact (pair.inDomain_couples rel operands).bind fun _ _ _ rel _ fits => stores rel fits
  | not =>
    exact (pair.read_couples rel _).bind fun _ _ _ rel _ _ =>
      stores rel (pair.scalar (Operator.ref?_ofBool _))
  | neg =>
    refine (pair.read_couples rel _).bind fun a t1 t2 rel _ _ => ?_
    exact (pair.ofExcept_couples rel fun v computed => pair.scalar (Operator.ref?_neg computed)).bind
      fun _ _ _ rel _ fits => stores rel fits
  | jmp => exact pair.jump_couples rel _ _
  | jz =>
    refine (pair.read_couples rel _).bind fun a t1 t2 rel _ _ => ?_
    split
    · exact couples_pure rel trivial
    · exact pair.jump_couples rel _ _
  | jnz =>
    refine (pair.read_couples rel _).bind fun a t1 t2 rel _ _ => ?_
    split
    · exact pair.jump_couples rel _ _
    · exact couples_pure rel trivial
  | idxGet =>
    refine (pair.read_couples rel _).bind fun a t1 t2 rel _ container => ?_
    refine (pair.read_couples rel _).bind fun b u1 u2 rel leads key => ?_
    have found := (pair.kin _).indexGet_couples (pair.deep rel) (pair.heap rel)
      ((pair.fits rel).mp (pair.keep leads container))
      ((pair.kin _).avoids ((pair.fits rel).mp key))
    exact (pair.onHeap_couples rel found).bind fun _ _ _ rel _ fits => stores rel fits
  | idxSet =>
    refine (pair.read_couples rel _).bind fun a t1 t2 rel _ container => ?_
    refine (pair.read_couples rel _).bind fun b u1 u2 rel leads key => ?_
    have container := pair.keep leads container
    refine (pair.read_couples rel _).bind fun v x1 x2 rel leads value => ?_
    have assigned := (pair.kin _).indexSet_couples (pair.heap rel)
      ((pair.fits rel).mp (pair.keep leads container))
      ((pair.fits rel).mp (pair.keep leads key)) ((pair.fits rel).mp value)
    exact ((pair.lifts rel).onHeap assigned).bind fun _ _ _ rel _ _ =>
      couples_pure rel trivial
  | mkEmptyArray =>
    exact (pair.place_couples rel (by rintro v ⟨mem⟩; simp at mem)).bind
      fun _ _ _ rel _ fits => stores rel fits
  | mkEmptyMapping =>
    refine (pair.place_couples rel fun v held => ?_).bind fun _ _ _ rel _ fits => stores rel fits
    cases held with
    | key mem | value mem => simp at mem
  | mkArray =>
    refine (pair.window_couples rel _).bind fun items t1 t2 rel _ fits => ?_
    exact (pair.place_couples rel (by rintro v ⟨mem⟩; exact fits v mem)).bind
      fun _ _ _ rel _ fits => stores rel fits
  | mkMapping =>
    refine (pair.window_couples rel _).bind fun items t1 t2 rel _ fits => ?_
    have merged := (pair.kin _).merge_couples (pair.heap rel) (pair.valid rel)
      fun e listed => ⟨(pair.fits rel).mp (fits _ (mem_pairs listed).1),
        (pair.fits rel).mp (fits _ (mem_pairs listed).2)⟩
    exact (pair.inDomain_couples rel merged).bind fun _ _ _ rel _ fits => stores rel fits
  | callNear =>
    exact (pair.window_couples rel _).bind fun _ _ _ rel _ fits => couples_pure rel fits
  | callFar =>
    refine (pair.read_couples rel _).bind fun packed t1 t2 rel _ _ => ?_
    split
    · exact (pair.window_couples rel _).bind fun _ _ _ rel _ fits => couples_pure rel fits
    · exact pair.fail_couples rel _
  | callName | callEfun =>
    refine (pair.constantText_couples rel _).bind fun name t1 t2 rel _ _ => ?_
    exact (pair.window_couples rel _).bind fun _ _ _ rel _ fits => couples_pure rel fits
  | callOther =>
    refine (pair.constantText_couples rel _).bind fun name t1 t2 rel _ _ => ?_
    refine (pair.window_couples rel _).bind fun args u1 u2 rel _ fits => ?_
    split
    · rename_i effect called
      refine couples_pure rel ?_
      unfold callOther at called
      split at called
      · cases called
        exact fun v listed => fits v (.tail _ listed)
      · simp at called
    · exact stores rel (pair.scalar rfl)

theorem instruction_couples (instrs : Array Instruction) (pc : Nat) :
    pair.Couples s1 s2 (fun e s => e.Holds (pair.Fits s)) (instruction f1 instrs pc)
      (instruction f2 instrs pc) := by
  unfold instruction
  split
  · exact couples_pure rel (pair.scalar rfl)
  · split
    · exact pair.fail_couples rel _
    · exact pair.execute_couples rel _ _ _ _

end

end Companions

end Tenancy
