import Tenancy.Machine.Run
import Tenancy.Proofs.Heap.Lawful
import Tenancy.Proofs.World.Sound

/-!
What instructions and commands leave alone.

An instruction of a frame, and a command of a native body that neither calls nor unwinds, changes
the heap by its operations, writes values above some base of the stack, and leaves frames, domain
contexts, parked windows and the programs of objects as they are. Commands that make or end objects
and domains apart, nothing more is asked of a motion than that it allows such changes.
-/

namespace Tenancy

open Tenancy.Action Motion Array

/-- The world is sound, and the lists of the thread exist. -/
structure State.Sound (P : Function → Prop) (s : State) : Prop where
  world : s.world.Sound P
  scratch : s.thread.scratch.number < s.world.heap.lists.size
  transfer : s.thread.transfer.number < s.world.heap.lists.size

def World.Outlying (w : World) (l : ListId) : Prop := ∀ k < w.domains.size, (w.domain k).values ≠ l

/-- A state after what a frame does on its own; its window begins at `base` or above. -/
structure State.Mild (P : Function → Prop) (base : Nat) (s s' : State) : Prop where
  sound : s.world.Sound P → s'.world.Sound P
  settings : s'.world.settings = s.world.settings
  threads : s'.world.threads = s.world.threads
  changes : s.world.heap.Changes s'.world.heap
  lists : ∀ l, s.world.Outlying l → s'.world.heap.list l = s.world.heap.list l
  objects : s.world.Retains s'.world
  size : s'.world.domains.size = s.world.domains.size
  same : ∀ k, (s.world.domain k).Same (s'.world.domain k)
  thread : s'.thread = { s.thread with stack := s'.thread.stack }
  grows : s.thread.stack.size ≤ s'.thread.stack.size
  below : ∀ i < base, s'.thread.stack[i]? = s.thread.stack[i]?

namespace State.Mild

variable {P : Function → Prop} {base : Nat} {s s' s'' : State}

theorem refl (s : State) : s.Mild P base s :=
  ⟨id, rfl, rfl, .refl, fun _ _ => rfl, .refl _, rfl, fun _ => .refl _, rfl, le_rfl, fun _ _ => rfl⟩

theorem outlying (mild : s.Mild P base s') (outlying : s.world.Outlying l) :
    s'.world.Outlying l := by
  intro k within
  rw [(mild.same k).values]
  exact outlying k (mild.size ▸ within)

theorem trans (first : s.Mild P base s') (second : s'.Mild P base s'') : s.Mild P base s'' where
  sound := second.sound ∘ first.sound
  settings := second.settings.trans first.settings
  threads := second.threads.trans first.threads
  changes := first.changes.trans second.changes
  lists l outlying := (second.lists l (first.outlying outlying)).trans (first.lists l outlying)
  objects := first.objects.trans second.objects
  size := second.size.trans first.size
  same k := ⟨(second.same k).id.trans (first.same k).id,
    (second.same k).values.trans (first.same k).values,
    (second.same k).parked.trans (first.same k).parked,
    (second.same k).holder.trans (first.same k).holder⟩
  thread := by rw [second.thread, first.thread]
  grows := first.grows.trans second.grows
  below i lower := (second.below i lower).trans (first.below i lower)

theorem domains (mild : s.Mild P base s') : s'.thread.domains = s.thread.domains := by rw [mild.thread]

theorem ofWorld {world : World} (sound : s.world.Sound P → world.Sound P)
    (settings : world.settings = s.world.settings) (threads : world.threads = s.world.threads)
    (changes : s.world.heap.Changes world.heap)
    (lists : ∀ l, s.world.Outlying l → world.heap.list l = s.world.heap.list l)
    (objects : s.world.Retains world) (size : world.domains.size = s.world.domains.size)
    (same : ∀ k, (s.world.domain k).Same (world.domain k)) : s.Mild P base { s with world } :=
  ⟨sound, settings, threads, changes, lists, objects, size, same, rfl, le_rfl, fun _ _ => rfl⟩

theorem ofHeap (changes : s.world.heap.Changes heap)
    (lists : ∀ l, s.world.Outlying l → heap.list l = s.world.heap.list l) :
    s.Mild P base { s with world := { s.world with heap } } :=
  ofWorld (fun sound => sound.withHeap changes) rfl rfl changes lists (.of_eq rfl) rfl
    fun _ => .refl _

end State.Mild

structure Frame.Above (base : Nat) (f : Frame) : Prop where
  args : base ≤ f.argsBase
  locals : base ≤ f.localsBase

namespace Exec

variable {P : Function → Prop} {base : Nat} {α : Type}

/-- Actions of a frame whose window begins at `base` or above. -/
def motion (P : Function → Prop) (base : Nat) : Motion State where
  Ready s := s.world.Sound P ∧ s.thread.current.domain < s.world.domains.size
    ∧ base ≤ s.thread.stack.size
  Leads := State.Mild P base
  refl := .refl
  trans := .trans
  ready ready mild :=
    ⟨mild.sound ready.1, by rw [mild.thread, mild.size]; exact ready.2.1,
      ready.2.2.trans mild.grows⟩

theorem onHeap_apply (act : HeapM α) (s : State) :
    onHeap act s = match act s.world.heap with
      | .ok a heap => .ok a { s with world := { s.world with heap } }
      | .error f heap => .error (.fault f) { s with world := { s.world with heap } } := rfl

theorem inDomain_apply (act : ListId → HeapM α) (s : State) :
    inDomain act s = onHeap (act s.owner) s := rfl

theorem onHeap_left (act : HeapM α) (s : State) :
    left (onHeap act s) = { s with world := { s.world with heap := left (act s.world.heap) } } := by
  rw [onHeap_apply]
  cases act s.world.heap <;> rfl

/-! ### What reads and fails -/

section Reading

variable {M : Motion State}

theorem fail_moves (f : Fault) : M.Moves (fail f : Exec α) := moves_throw _

theorem breach_moves (b : Breach) : M.Moves (breach b : Exec α) := moves_throw _

theorem ofExcept_moves (r : Except Fault α) : M.Moves (ofExcept r) := by
  cases r with
  | ok a => exact moves_pure a
  | error f => exact fail_moves f

theorem stackGet_moves (index : Nat) : M.Moves (stackGet index) := by
  refine moves_get_bind fun s => ?_
  dsimp only
  split
  · exact moves_pure _
  · exact breach_moves _

theorem stackSlice_moves (start stop : Nat) : M.Moves (stackSlice start stop) := by
  refine moves_get_bind fun s => ?_
  dsimp only
  split
  · exact moves_pure _
  · exact breach_moves _

theorem read_moves (frame : Frame) (o : Operand) : M.Moves (read frame o) := by
  unfold read
  dsimp only
  split
  · split
    · exact moves_pure _
    · exact fail_moves _
  · split
    · exact stackGet_moves _
    · exact fail_moves _
  · split
    · exact stackGet_moves _
    · exact fail_moves _
  · split
    · refine moves_get_bind fun s => ?_
      split
      · exact moves_pure _
      · exact fail_moves _
    · exact fail_moves _

theorem window_moves (frame : Frame) (w : Window) : M.Moves (window frame w) := by
  unfold window
  split
  · exact stackSlice_moves _ _
  · exact fail_moves _

theorem constantText_moves (frame : Frame) (index : UInt16) : M.Moves (constantText frame index) := by
  refine moves_get_bind fun s => ?_
  dsimp only
  split
  · exact moves_pure _
  · exact fail_moves _

theorem jump_moves (instrs : Array Instruction) (target : UInt16) :
    M.Moves (jump instrs target) := by
  unfold jump
  dsimp only
  split
  · exact moves_pure _
  · exact fail_moves _

theorem getMember_moves (frame : Frame) (index : Nat) : M.Moves (getMember frame index) := by
  unfold getMember
  split
  · refine moves_get_bind fun s => ?_
    split
    · exact moves_pure _
    · exact fail_moves _
  · exact fail_moves _

theorem caught_moves (moves : M.Moves act) : M.Moves (caught act) := by
  intro s ready
  have moved := moves s ready
  unfold caught
  split
  all_goals
    rename_i ran
    rwa [ran] at moved

end Reading

end Exec

/-- The command neither makes nor ends objects and domains. -/
def Command.Modest : Command → Prop
  | .newObject _ | .destruct _ | .destroyDomain _ => False
  | _ => True

/-- Motions that allow what a frame does on its own: to work on the heap for the domain that the thread
is in, to write slots from `base` on and variables of objects, to print, and to collect the domain. -/
structure Motion.Enacts (M : Motion State) (base : Nat) : Prop where
  inDomain : ∀ {α : Type} {act : ListId → HeapM α},
    (∀ owner, (Heap.motion owner).Moves (act owner)) → M.Moves (Exec.inDomain act)
  make : ∀ (share : Share) (draft : Draft), M.Moves (Exec.make share draft)
  slot : ∀ (s : State) {index : Nat} (v : Value), M.Ready s → base ≤ index →
    M.Leads s { s with thread := { s.thread with stack := s.thread.stack.setIfInBounds index v } }
  push : ∀ (s : State) (v : Value), M.Ready s → M.Leads s { s with thread := s.thread.push v }
  member : ∀ (s : State) (object : ObjectKey) (slot : Nat) (v : Value), M.Ready s →
    M.Leads s { s with world := s.world.modifyObject object fun o =>
      { o with members := o.members.setIfInBounds slot v } }
  print : ∀ (s : State) (output : List String) (journal : List View), M.Ready s →
    M.Leads s { s with world := { s.world with output, journal } }
  collect : ∀ (s : State) (roots : List Value), M.Ready s →
    M.Leads s { s with world := (s.world.collect s.thread.current.domain roots).2 }

namespace Motion.Enacts

open Exec

variable {M : Motion State} {base : Nat} {α : Type} {frame : Frame} (enacts : M.Enacts base)

include enacts

theorem onHeap_moves (moves : ∀ owner, (Heap.motion owner).Moves act) : M.Moves (onHeap act) := by
  show M.Moves (Exec.inDomain fun _ => act)
  exact enacts.inDomain moves

theorem stackSet_moves (above : base ≤ index) (v : Value) : M.Moves (stackSet index v) := by
  refine moves_get_bind fun s => ?_
  dsimp only
  split
  · exact fun s ready => enacts.slot s v ready above
  · exact breach_moves _

theorem checkParameters_moves (above : base ≤ frame.argsBase) : M.Moves (checkParameters frame) :=
  (stackSlice_moves _ _).bind fun _ => (ofExcept_moves _).bind fun _ =>
    (stackSlice_moves _ _).bind fun _ =>
      moves_forM (fun e : Value × Nat => enacts.stackSet_moves (Nat.le_add_right_of_le above) e.1) _

/-! ### Instructions -/

theorem setMember_moves (object : ObjectKey) (slot : Nat) (v : Value) :
    M.Moves (setMember object slot v) := by
  refine moves_get_bind fun s => ?_
  split
  · exact Moves.bind (fun s ready => enacts.member s object slot v ready) fun _ => moves_pure _
  · exact moves_pure _

theorem write_moves (above : frame.Above base) (o : Operand) (v : Value) :
    M.Moves (write frame o v) := by
  unfold write
  dsimp only
  split
  · exact fail_moves _
  · split
    · exact enacts.stackSet_moves (Nat.le_add_right_of_le above.args) _
    · exact fail_moves _
  · split
    · exact enacts.stackSet_moves (Nat.le_add_right_of_le above.locals) _
    · exact fail_moves _
  · split
    · refine (enacts.setMember_moves _ _ _).bind fun found => ?_
      split
      · exact fail_moves _
      · exact moves_pure _
    · exact fail_moves _

theorem execute_moves (above : frame.Above base) (instrs : Array Instruction)
    (i : Instruction) (pc : Nat) (op : Opcode) : M.Moves (execute frame instrs i pc op) := by
  have store : ∀ v, M.Moves (do
      write frame i.first v
      return Effect.next pc) := fun v => (enacts.write_moves above i.first v).bind fun _ => moves_pure _
  unfold execute
  cases op with
  | ret => exact (read_moves _ _).bind fun _ => moves_pure _
  | nop => exact moves_pure _
  | chkparam => exact (enacts.checkParameters_moves above.args).bind fun _ => moves_pure _
  | mov => exact (read_moves _ _).bind fun _ => store _
  | ldi | ldr | ldn => exact store _
  | binary op flavour =>
    exact (read_moves _ _).bind fun _ => (read_moves _ _).bind fun _ =>
      (enacts.inDomain fun _ => (Heap.motion_crafts _).shapes.typed_moves _ _ _ _).bind fun _ => store _
  | not => exact (read_moves _ _).bind fun _ => store _
  | neg => exact (read_moves _ _).bind fun _ => (ofExcept_moves _).bind fun _ => store _
  | jmp => exact jump_moves _ _
  | jz =>
    refine (read_moves _ _).bind fun _ => ?_
    split
    · exact moves_pure _
    · exact jump_moves _ _
  | jnz =>
    refine (read_moves _ _).bind fun _ => ?_
    split
    · exact jump_moves _ _
    · exact moves_pure _
  | idxGet =>
    exact (read_moves _ _).bind fun _ => (read_moves _ _).bind fun _ =>
      (enacts.onHeap_moves fun _ => Operator.indexGet_moves _ _).bind fun _ => store _
  | idxSet =>
    exact (read_moves _ _).bind fun _ => (read_moves _ _).bind fun _ =>
      (read_moves _ _).bind fun _ =>
        (enacts.onHeap_moves fun _ => Operator.indexSet_moves _ _ _).bind fun _ => moves_pure _
  | mkEmptyArray | mkEmptyMapping =>
    exact (enacts.inDomain fun _ => HeapM.place_moves _).bind fun _ => store _
  | mkArray =>
    exact (window_moves _ _).bind fun _ =>
      (enacts.inDomain fun _ => HeapM.place_moves _).bind fun _ => store _
  | mkMapping =>
    exact (window_moves _ _).bind fun _ =>
      (enacts.inDomain fun _ => (Heap.motion_crafts _).shapes.merge_moves _).bind fun _ => store _
  | callNear => exact (window_moves _ _).bind fun _ => moves_pure _
  | callFar =>
    refine (read_moves _ _).bind fun _ => ?_
    split
    · exact (window_moves _ _).bind fun _ => moves_pure _
    · exact fail_moves _
  | callName | callEfun =>
    exact (constantText_moves _ _).bind fun _ => (window_moves _ _).bind fun _ => moves_pure _
  | callOther =>
    refine (constantText_moves _ _).bind fun _ => (window_moves _ _).bind fun _ => ?_
    split
    · exact moves_pure _
    · exact store _

theorem instruction_moves (above : frame.Above base) (instrs : Array Instruction) (pc : Nat) :
    M.Moves (instruction frame instrs pc) := by
  unfold instruction
  split
  · exact moves_pure _
  · split
    · exact fail_moves _
    · exact enacts.execute_moves above _ _ _ _

/-! ### Commands -/

theorem localize_moves (v : Value) : M.Moves (localize v) := by
  unfold localize
  split
  · rename_i r
    intro s ready
    rw [get_bind_apply]
    split
    · exact M.refl s
    · exact enacts.inDomain (fun _ => Heap.copyValue_moves (.ref r)) s ready
  · exact moves_pure _

theorem putMember_moves (frame : Frame) (index : Nat) (v : Value) :
    M.Moves (putMember frame index v) := by
  unfold putMember
  split
  · exact (enacts.localize_moves v).bind fun _ =>
      (enacts.setMember_moves _ _ _).bind fun _ => moves_pure _
  · exact fail_moves _

theorem reply_moves (modest : c.Modest) (answered : reply frame c = some act) : M.Moves act := by
  cases c with
  | call | tryCall | restore => simp [reply] at answered
  | newObject | destruct | destroyDomain => exact modest.elim
  | argc =>
    cases answered
    exact moves_pure _
  | args =>
    cases answered
    exact stackSlice_moves _ _
  | thisObject | objectSize | callDepth | heap | savePoint | lookup | domainId | domainName
    | domainSize =>
    cases answered
    exact moves_get_bind fun _ => moves_pure _
  | member index =>
    cases answered
    exact caught_moves (getMember_moves _ _)
  | setMember index v =>
    cases answered
    exact caught_moves (enacts.putMember_moves _ _ _)
  | make share draft =>
    cases answered
    exact enacts.make _ _
  | binary op a b =>
    cases answered
    exact caught_moves (enacts.inDomain fun _ => (Heap.motion_crafts _).shapes.binary_moves _ _ _)
  | indexGet container key =>
    cases answered
    exact caught_moves (enacts.onHeap_moves fun _ => Operator.indexGet_moves _ _)
  | indexSet container key v =>
    cases answered
    exact caught_moves (enacts.onHeap_moves fun _ => Operator.indexSet_moves _ _ _)
  | arrayPush container v =>
    cases answered
    exact caught_moves (enacts.onHeap_moves fun _ =>
      (Heap.motion_edits _).arrayPush_moves fun _ _ => trivial)
  | keep v =>
    cases answered
    exact fun s ready => enacts.push s v ready
  | output | report =>
    cases answered
    exact fun s ready => enacts.print s _ _ ready
  | collect roots =>
    cases answered
    exact fun s ready => enacts.collect s roots ready

end Motion.Enacts

namespace Exec

variable {P : Function → Prop} {base : Nat} {α : Type} {frame : Frame}

/-! ### What leaves the rest of a thread alone -/

theorem inDomain_moves (moves : ∀ owner, (Heap.motion owner).Moves (act owner)) :
    (motion P base).Moves (inDomain act) := by
  intro s ready
  rw [inDomain_apply, onHeap_left]
  have serves := moves s.owner s.world.heap ⟨ready.1.heap, ready.1.lists _ ready.2.1⟩
  exact .ofHeap serves.changes fun l outlying => serves.lists l (outlying _ ready.2.1).symm

theorem make_moves (share : Share) (draft : Draft) : (motion P base).Moves (make share draft) := by
  unfold make
  split
  · exact breach_moves _
  · intro s ready
    refine .ofHeap (Heap.make_changes ready.1.heap (fun l owned => ?_) draft) fun l outlying =>
      Heap.list_make_of_ne _ (fun owned => ?_) draft
    · cases share with
      | here =>
        obtain rfl : s.owner = l := Ownership.owned.inj owned
        exact ready.1.lists _ ready.2.1
      | loose | exempt _ => simp at owned
    · cases share with
      | here => exact outlying _ ready.2.1 (Ownership.owned.inj owned)
      | loose | exempt _ => simp at owned

theorem motion_enacts (P : Function → Prop) (base : Nat) : (motion P base).Enacts base where
  inDomain := inDomain_moves
  make := make_moves
  slot s index v _ above := by
    refine ⟨id, rfl, rfl, .refl, fun _ _ => rfl, .refl _, rfl, fun _ => .refl _, rfl, by simp,
      fun i below => ?_⟩
    have ne : index ≠ i := by omega
    simp [ne]
  push s v ready := by
    refine ⟨id, rfl, rfl, .refl, fun _ _ => rfl, .refl _, rfl, fun _ => .refl _, rfl,
      by simp [Thread.push], fun i below => ?_⟩
    have within : i < s.thread.stack.size := below.trans_le ready.2.2
    simp [Thread.push, getElem?_push, within.ne]
  member s object slot v _ :=
    .ofWorld (fun sound => sound.modifyObject _ (fun _ => rfl) fun _ => size_setIfInBounds)
      rfl rfl .refl (fun _ _ => rfl) (.modifyObject _ _ fun _ => rfl) rfl fun _ => .refl _
  print s output journal _ :=
    .ofWorld (fun sound => { sound with }) rfl rfl .refl (fun _ _ => rfl) (.of_eq rfl) rfl
      fun _ => .refl _
  collect s roots ready :=
    .ofWorld (fun sound => sound.collect _ roots) rfl rfl (.single (.collect _ _ _))
      (fun l outlying =>
        ready.1.heap.consistent.list_collect_of_ne (outlying _ ready.2.1).symm)
      (.of_eq rfl) (World.size_domains_modifyDomain _ _ _) fun k => World.same_collect _ _ roots k

theorem checkParameters_moves (above : base ≤ frame.argsBase) :
    (motion P base).Moves (checkParameters frame) :=
  (motion_enacts P base).checkParameters_moves above

theorem write_moves (above : frame.Above base) (o : Operand) (v : Value) :
    (motion P base).Moves (write frame o v) := (motion_enacts P base).write_moves above o v

theorem instruction_moves (above : frame.Above base) (instrs : Array Instruction) (pc : Nat) :
    (motion P base).Moves (instruction frame instrs pc) :=
  (motion_enacts P base).instruction_moves above instrs pc

theorem newObject_moves (name : String) : (motion P base).Moves (newObject name) := by
  intro s ready
  unfold newObject
  rw [get_bind_apply]
  cases found : s.world.findProgram? name with
  | none => exact .refl s
  | some program =>
    have linked := List.mem_of_find?_eq_some found
    exact .ofWorld (fun sound => sound.newObject (sound.linked program linked) _) rfl rfl .refl
      (fun _ _ => rfl) (.newObject _ _ _) (World.size_domains_newObject _ _ _)
      fun k => World.same_newObject _ _ _ k

theorem destruct_moves (target : ObjectId) :
    (motion P base).Moves (modifyGet fun s : State =>
      let (found, world) := s.world.destruct target
      (found, { s with world }) : Exec Bool) := by
  intro s ready
  have heap : (s.world.destruct target).2.heap = s.world.heap := World.heap_destruct _ _
  have unchanged : s.world.heap.Changes (s.world.destruct target).2.heap := by rw [heap]
  exact .ofWorld (fun sound => sound.destruct target) (World.settings_destruct _ _)
    (World.threads_destruct _ _) unchanged (fun _ _ => congrArg (Heap.list · _) heap)
    (.destruct _ _) (World.size_domains_destruct _ _) fun k => World.same_destruct _ _ k

theorem destroyDomain_moves (id : DomainId) : (motion P base).Moves (caught do
    let world ← ofExcept ((← get).world.destroyDomain id)
    modifyWorld fun _ => world) := by
  refine caught_moves fun s ready => ?_
  rw [get_bind_apply]
  cases destroyed : s.world.destroyDomain id with
  | error f => exact .refl s
  | ok world =>
    rcases World.destroyDomain_cases destroyed with rfl | ⟨k, found, rfl⟩
    · exact .refl s
    · exact .ofWorld (fun sound => sound.destroyDomain destroyed) rfl rfl (.single (.freeAll _ _))
        (fun l outlying => Heap.list_freeAll_of_ne (outlying k (ready.1.findDomain? found)).symm _)
        (.of_eq rfl) rfl fun _ => .refl _

theorem reply_moves (answered : reply frame c = some act) : (motion P base).Moves act := by
  cases c with
  | newObject program =>
    cases answered
    exact newObject_moves program
  | destruct target =>
    cases answered
    exact destruct_moves target
  | destroyDomain id =>
    cases answered
    exact destroyDomain_moves id
  | _ => exact (motion_enacts P base).reply_moves trivial answered

end Exec

/-! ### Where the windows of a thread are -/

variable {stack : Array Value} {stop : Nat}

def Command.Quiet : Command → Prop
  | .call _ | .tryCall _ _ _ | .restore _ => False
  | _ => True

namespace Native

variable {α : Type}

/-- The body ends with a fault, and calls nobody on the way. -/
def Failing : Native α → Prop
  | .done _ => False
  | .raise _ => True
  | .act c next => c.Quiet ∧ ∀ reply, Failing (next reply)

/-- What a body may do next: it does not unwind on its own, and it fails when a call of it fails. -/
def Heeds : (c : Command) → (c.Reply → Native α) → Prop
  | .restore _, _ => False
  | .call _, next => ∀ fault, (next (.error fault)).Failing
  | _, _ => True

/-- The body passes the faults of its calls on, or catches them where unwinding is done for it. -/
def Disciplined : Native α → Prop
  | .done _ | .raise _ => True
  | .act c next => Heeds c next ∧ ∀ reply, Disciplined (next reply)

end Native

/-- The function has no native body, or a disciplined one. -/
def Function.Disciplined (f : Function) : Prop :=
  ∀ body, f.body = .native body → body.Disciplined

/-- Each context begins where the next one ends, and the lowest at the bottom of the stack. -/
def Founded : List DomainContext → Nat → Prop
  | [], stop => stop = 0
  | c :: below, stop => c.start ≤ stop ∧ Founded below c.start

/-- The windows of domain contexts, top first, are parked in their domains; the top one ends at
`stop`. -/
def Anchored (w : World) (key : ThreadKey) (stack : Array Value) : List DomainContext → Nat → Prop
  | [], _ => True
  | c :: below, stop =>
    c.domain < w.domains.size ∧ c.start ≤ stop
      ∧ (∃ p ∈ (w.domain c.domain).parked, p.thread = key ∧ p.depth = below.length
        ∧ p.values = (stack.extract c.start stop).toList)
      ∧ Anchored w key stack below c.start

theorem getElem?_window (stack : Array Value) (start stop i : Nat) :
    (stack.extract start stop)[i]? = if start + i < stop then stack[start + i]? else none := by
  rw [getElem?_extract]
  by_cases before : start + i < stop
  · rw [if_pos before]
    split
    · rfl
    · exact (getElem?_eq_none (by omega)).symm
  · rw [if_neg before, if_neg (by omega)]

theorem mem_window_of_slot (low : start ≤ i) (high : i < stop)
    (found : stack[i]? = some v) : v ∈ (stack.extract start stop).toList := by
  rw [mem_toList_iff, mem_iff_getElem?]
  refine ⟨i - start, ?_⟩
  rw [getElem?_window, if_pos (by omega), ← found]
  congr 1
  omega

theorem extract_congr {stack' : Array Value} (below : ∀ i < stop, stack'[i]? = stack[i]?) (start : Nat) :
    stack'.extract start stop = stack.extract start stop := by
  apply ext_getElem?
  intro i
  rw [getElem?_window, getElem?_window]
  split
  · exact below _ ‹_›
  · rfl

/-- What a thread has parked below a depth is left where it is. -/
structure World.Saves (w : World) (key : ThreadKey) (depth : Nat) (w' : World) : Prop where
  size : w.domains.size ≤ w'.domains.size
  windows : ∀ k, ∀ p ∈ (w.domain k).parked, p.thread = key → p.depth < depth →
    p ∈ (w'.domain k).parked

namespace World.Saves

variable {w w' w'' : World} {key : ThreadKey} {depth : Nat}

theorem ofParked (size : w'.domains.size = w.domains.size)
    (parked : ∀ k, (w'.domain k).parked = (w.domain k).parked) : w.Saves key depth w' :=
  ⟨size.ge, fun k _ isParked _ _ => parked k ▸ isParked⟩

theorem refl (w : World) : w.Saves key depth w := ofParked rfl fun _ => rfl

theorem trans (first : w.Saves key depth w') (second : w'.Saves key depth w'') :
    w.Saves key depth w'' :=
  ⟨first.size.trans second.size, fun k p isParked thread deep =>
    second.windows k p (first.windows k p isParked thread deep) thread deep⟩

theorem modifyDomain (w : World) (k : DomainKey)
    (kept : ∀ d, ∀ p ∈ d.parked, p.thread = key → p.depth < depth → p ∈ (f d).parked) :
    w.Saves key depth (w.modifyDomain k f) := by
  refine ⟨by simp, fun j p isParked thread deep => ?_⟩
  rw [World.domain_modifyDomain]
  split
  · exact kept _ p isParked thread deep
  · exact isParked

theorem park (w : World) (k : DomainKey) (window : ParkedWindow) (higher : depth ≤ window.depth) :
    w.Saves key depth (w.modifyDomain k (·.park window)) := by
  refine modifyDomain w k fun d p isParked _ deep => ?_
  refine List.mem_cons_of_mem _ (List.mem_filter.mpr ⟨isParked, ?_⟩)
  have ne : p.depth ≠ window.depth := by omega
  simp [ne]

theorem unpark (w : World) (k : DomainKey) (thread : ThreadKey) (higher : depth ≤ n) :
    w.Saves key depth (w.modifyDomain k (·.unpark thread n)) := by
  refine modifyDomain w k fun d p isParked _ deep => ?_
  refine List.mem_filter.mpr ⟨isParked, ?_⟩
  have ne : p.depth ≠ n := by omega
  simp [ne]

end World.Saves

theorem Anchored.saved {w w' : World} {contexts : List DomainContext}
    (anchored : Anchored w key stack contexts stop) (saves : w.Saves key contexts.length w')
    (slots : ∀ i < stop, stack'[i]? = stack[i]?) : Anchored w' key stack' contexts stop := by
  induction contexts generalizing stop with
  | nil => trivial
  | cons c below ih =>
    obtain ⟨valid, starts, ⟨p, isParked, thread, depth, values⟩, lower⟩ := anchored
    refine ⟨valid.trans_le saves.size, starts,
      ⟨p, saves.windows _ p isParked thread (by simp [depth]), thread, depth, ?_⟩, ?_⟩
    · rw [values, extract_congr slots]
    · exact ih lower ⟨saves.size, fun k p isParked thread deep =>
        saves.windows k p isParked thread (Nat.lt_succ_of_lt deep)⟩
        fun i before => slots i (before.trans_le starts)

namespace State

variable {s : State} {c : DomainContext} {below : List DomainContext}

/-- The thread is in the domain of its top context `c`, and the windows below are parked. -/
structure Seated (s : State) (c : DomainContext) (below : List DomainContext) : Prop where
  domains : s.thread.domains = c :: below
  valid : c.domain < s.world.domains.size
  fits : c.start ≤ s.thread.stack.size
  anchored : Anchored s.world s.thread.key s.thread.stack below c.start

/-- The thread is in the domain of its top context. -/
def Here (s : State) : Prop := ∃ c below, s.Seated c below

/-- The thread is on its way, and all windows are parked; the top one ends at `stop`. -/
structure Away (s : State) (stop : Nat) : Prop where
  domains : s.thread.domains ≠ []
  anchored : Anchored s.world s.thread.key s.thread.stack s.thread.domains stop

theorem Seated.current (seated : s.Seated c below) : s.thread.current = c := by
  simp [Thread.current, seated.domains]

theorem Here.valid (here : s.Here) : s.thread.current.domain < s.world.domains.size := by
  obtain ⟨c, below, seated⟩ := here
  rw [seated.current]
  exact seated.valid

theorem Here.fits (here : s.Here) : s.thread.current.start ≤ s.thread.stack.size := by
  obtain ⟨c, below, seated⟩ := here
  rw [seated.current]
  exact seated.fits

end State

end Tenancy
