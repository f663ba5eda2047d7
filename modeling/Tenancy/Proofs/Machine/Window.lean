import Tenancy.Machine.Execute
import Tenancy.Proofs.Action

/-!
The window of a frame.

A frame has its argument slots and its locals on the stack. While they lie there, every slot that
code of the frame can name is there, so that an instruction ends well or with a fault, whatever it is
made of. It goes on inside of the code or at its end.
-/

namespace Tenancy

open Tenancy.Action

namespace Frame

variable {f : Frame} {size : Nat}

/-- The window of the frame lies below a height: its argument slots, and then its locals. -/
structure Lies (f : Frame) (size : Nat) : Prop where
  given : f.argc ≤ f.argSlots
  locals : f.localsBase = f.argsBase + f.argSlots
  fits : f.localsBase + f.localCount ≤ size

theorem Lies.le_locals (lies : f.Lies size) : f.argsBase ≤ f.localsBase :=
  lies.locals ▸ Nat.le_add_right _ _

theorem Lies.slots_le (lies : f.Lies size) : f.argsBase + f.argSlots ≤ size :=
  lies.locals ▸ Nat.le_trans (Nat.le_add_right _ _) lies.fits

theorem Lies.le_size (lies : f.Lies size) : f.argsBase ≤ size :=
  Nat.le_trans (Nat.le_add_right _ _) lies.slots_le

theorem Lies.grow (lies : f.Lies size) (higher : size ≤ more) : f.Lies more :=
  { lies with fits := Nat.le_trans lies.fits higher }

end Frame

def Trouble.IsFault : Trouble → Prop
  | .fault _ => True
  | .breach _ => False

/-- What follows an instruction at `pc` lies in the code or at its end. -/
def Effect.Within (instructions : Array Instruction) (pc : Nat) : Effect → Prop
  | .next target => target ≤ instructions.size
  | .ret _ => True
  | .call _ _ => pc < instructions.size

namespace Exec

variable {α β : Type} {f : Frame} {Q : α → Prop} {R : β → Prop}

/-- While the window of the frame lies on the stack, the action ends well or with a fault, and the
window lies there still. -/
def Secure (f : Frame) (Q : α → Prop) (act : Exec α) : Prop :=
  ∀ s : State, f.Lies s.thread.stack.size →
    Ends (fun a t => Q a ∧ f.Lies t.thread.stack.size) (fun trouble _ => trouble.IsFault) (act s)

theorem secure_pure (result : Q a) : Secure f Q (pure a) := fun _ lies => ⟨result, lies⟩

theorem secure_fail (fault : Fault) : Secure f Q (fail fault) := fun _ _ => trivial

theorem Secure.bind (first : Secure f Q x)
    (goesOn : ∀ a, Q a → Secure f R (next a)) : Secure f R (x >>= next) :=
  fun s lies => (first s lies).bind fun a t after => goesOn a after.1 t after.2

theorem secure_get_bind (goesOn : ∀ s, Secure f R (next s)) :
    Secure f R (get >>= next) := fun s lies => goesOn s s lies

theorem secure_ofExcept (r : Except Fault α) : Secure f (fun _ => True) (ofExcept r) := by
  cases r with
  | ok a => exact secure_pure trivial
  | error fault => exact secure_fail fault

theorem onHeap_secure (act : HeapM α) : Secure f (fun _ => True) (onHeap act) := by
  intro s lies
  unfold onHeap
  dsimp only
  cases act s.world.heap with
  | ok => exact ⟨trivial, lies⟩
  | error => trivial

theorem inDomain_secure (act : ListId → HeapM α) : Secure f (fun _ => True) (inDomain act) :=
  fun s lies => onHeap_secure (act s.owner) s lies

theorem stackGet_secure (within : index < f.localsBase + f.localCount) :
    Secure f (fun _ => True) (stackGet index) := by
  intro s lies
  have there : index < s.thread.stack.size := Nat.lt_of_lt_of_le within lies.fits
  unfold stackGet
  rw [get_bind_apply]
  rw [Array.getElem?_eq_getElem there]
  exact ⟨trivial, lies⟩

theorem stackSet_secure (within : index < f.localsBase + f.localCount) (v : Value) :
    Secure f (fun _ => True) (stackSet index v) := by
  intro s lies
  have there : index < s.thread.stack.size := Nat.lt_of_lt_of_le within lies.fits
  unfold stackSet
  rw [get_bind_apply, if_pos there]
  exact ⟨trivial, lies.grow (Nat.le_of_eq Array.size_setIfInBounds.symm)⟩

theorem stackSlice_secure (within : stop ≤ f.localsBase + f.localCount) :
    Secure f (fun vs => vs.length = stop - start) (stackSlice start stop) := by
  intro s lies
  have there : stop ≤ s.thread.stack.size := Nat.le_trans within lies.fits
  unfold stackSlice
  rw [get_bind_apply]
  dsimp only
  rw [if_pos there]
  refine ⟨?_, lies⟩
  rw [Array.length_toList, Array.size_extract, Nat.min_eq_left there]

theorem checkParameters_secure : Secure f (fun _ => True) (checkParameters f) := by
  intro s lies
  have slots : f.argsBase + f.argSlots ≤ f.localsBase + f.localCount :=
    lies.locals ▸ Nat.le_add_right _ _
  have given : f.argsBase + f.argc ≤ f.localsBase + f.localCount :=
    Nat.le_trans (Nat.add_le_add_left lies.given _) slots
  refine Secure.bind (stackSlice_secure given) (fun args _ => ?_) s lies
  refine (secure_ofExcept _).bind fun _ _ => (stackSlice_secure slots).bind fun values count => ?_
  intro t lies
  refine Ends.mono (ends_forM (I := fun _ t => f.Lies t.thread.stack.size) _ ?_ lies)
    fun _ _ after => ⟨trivial, after⟩
  intro before e after u listed lies
  have mem : e ∈ (f.function.padDefaults f.argc values).zipIdx := by simp [listed]
  have index : e.2 < f.argSlots := by
    have below := List.snd_lt_of_mem_zipIdx mem
    simp only [Function.padDefaults, List.length_mapIdx] at below
    omega
  exact (stackSet_secure (by omega) e.1 u lies).mono fun _ _ after => after.2

theorem setMember_secure (object : ObjectKey) (slot : Nat) (v : Value) :
    Secure f (fun _ => True) (setMember object slot v) := by
  refine secure_get_bind fun s => ?_
  split
  · exact Secure.bind (Q := fun _ => True) (fun _ lies => ⟨trivial, lies⟩) fun _ _ => secure_pure trivial
  · exact secure_pure trivial

variable (lies : ∃ size, f.Lies size)

include lies

theorem read_secure (o : Operand) : Secure f (fun _ => True) (read f o) := by
  obtain ⟨_, lies⟩ := lies
  have locals := lies.locals
  unfold read
  dsimp only
  split
  · split
    · exact secure_pure trivial
    · exact secure_fail _
  · split
    · exact stackGet_secure (by omega)
    · exact secure_fail _
  · split
    · exact stackGet_secure (by omega)
    · exact secure_fail _
  · split
    · refine secure_get_bind fun s => ?_
      split
      · exact secure_pure trivial
      · exact secure_fail _
    · exact secure_fail _

theorem write_secure (o : Operand) (v : Value) : Secure f (fun _ => True) (write f o v) := by
  obtain ⟨_, lies⟩ := lies
  have locals := lies.locals
  unfold write
  dsimp only
  split
  · exact secure_fail _
  · split
    · exact stackSet_secure (by omega) v
    · exact secure_fail _
  · split
    · exact stackSet_secure (by omega) v
    · exact secure_fail _
  · split
    · refine (setMember_secure _ _ v).bind fun found _ => ?_
      split
      · exact secure_fail _
      · exact secure_pure trivial
    · exact secure_fail _

omit lies in
theorem window_secure (w : Window) : Secure f (fun _ => True) (window f w) := by
  unfold window
  split
  · exact fun s lies => (stackSlice_secure (by omega) s lies).mono fun _ _ after => ⟨trivial, after.2⟩
  · exact secure_fail _

omit lies in
theorem constantText_secure (index : UInt16) : Secure f (fun _ => True) (constantText f index) := by
  refine secure_get_bind fun s => ?_
  dsimp only
  split
  · exact secure_pure trivial
  · exact secure_fail _

omit lies in
theorem jump_secure (instrs : Array Instruction) (pc : Nat) (target : UInt16) :
    Secure f (Effect.Within instrs pc) (jump instrs target) := by
  unfold jump
  dsimp only
  split
  · rename_i inside
    exact secure_pure inside
  · exact secure_fail _

theorem execute_secure (here : pc < instrs.size) (i : Instruction) (op : Opcode) :
    Secure f (Effect.Within instrs pc) (execute f instrs i (pc + 1) op) := by
  have next : (Effect.next (pc + 1)).Within instrs pc := here
  have store : ∀ v, Secure f (Effect.Within instrs pc) (do
      write f i.first v
      return Effect.next (pc + 1)) := fun v =>
    (write_secure lies i.first v).bind fun _ _ => secure_pure next
  have read := read_secure lies
  unfold execute
  cases op with
  | ret => exact (read _).bind fun _ _ => secure_pure trivial
  | nop => exact secure_pure next
  | chkparam => exact checkParameters_secure.bind fun _ _ => secure_pure next
  | mov => exact (read _).bind fun _ _ => store _
  | ldi | ldr | ldn => exact store _
  | binary op flavour =>
    exact (read _).bind fun _ _ => (read _).bind fun _ _ =>
      (inDomain_secure _).bind fun _ _ => store _
  | not => exact (read _).bind fun _ _ => store _
  | neg => exact (read _).bind fun _ _ => (secure_ofExcept _).bind fun _ _ => store _
  | jmp => exact jump_secure _ _ _
  | jz =>
    refine (read _).bind fun _ _ => ?_
    split
    · exact secure_pure next
    · exact jump_secure _ _ _
  | jnz =>
    refine (read _).bind fun _ _ => ?_
    split
    · exact jump_secure _ _ _
    · exact secure_pure next
  | idxGet =>
    exact (read _).bind fun _ _ => (read _).bind fun _ _ =>
      (onHeap_secure _).bind fun _ _ => store _
  | idxSet =>
    exact (read _).bind fun _ _ => (read _).bind fun _ _ => (read _).bind fun _ _ =>
      (onHeap_secure _).bind fun _ _ => secure_pure next
  | mkEmptyArray | mkEmptyMapping => exact (inDomain_secure _).bind fun _ _ => store _
  | mkArray | mkMapping =>
    exact (window_secure _).bind fun _ _ => (inDomain_secure _).bind fun _ _ => store _
  | callNear => exact (window_secure _).bind fun _ _ => secure_pure here
  | callFar =>
    refine (read _).bind fun _ _ => ?_
    split
    · exact (window_secure _).bind fun _ _ => secure_pure here
    · exact secure_fail _
  | callName | callEfun =>
    exact (constantText_secure _).bind fun _ _ => (window_secure _).bind fun _ _ => secure_pure here
  | callOther =>
    refine (constantText_secure _).bind fun _ _ => (window_secure _).bind fun _ _ => ?_
    split
    · rename_i effect called
      refine secure_pure ?_
      unfold callOther at called
      split at called
      · cases called
        exact here
      · simp at called
    · exact store _

theorem instruction_secure (instrs : Array Instruction) (pc : Nat) :
    Secure f (Effect.Within instrs pc) (instruction f instrs pc) := by
  unfold instruction
  split
  · exact secure_pure trivial
  · rename_i i found
    obtain ⟨here, -⟩ := Array.getElem?_eq_some_iff.mp found
    split
    · exact secure_fail _
    · exact execute_secure lies here _ _

end Exec

end Tenancy
