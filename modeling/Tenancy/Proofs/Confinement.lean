import Tenancy.Proofs.Frames
import Tenancy.Proofs.Inheritance
import Tenancy.Proofs.Machine.Footprint

/-!
Code keeps to its frame.

Instructions may name any operand and jump anywhere. While natives are honest and hosts restore what
fits, the slots that a running frame has lie on the stack, and its fields in the storage of its
object, apart from those of other components. So an instruction ends well or with a fault, reads and
writes what the frame can get at, and nothing else. Only a call of a function whose frame is larger
than any stack ends otherwise.
-/

namespace Tenancy

open Tenancy.Action Exec Opcode Program Thread

theorem Program.offset_le_size (p : Program) (k : Nat) : p.offset k ≤ p.size := by
  unfold offset size
  conv => rhs; rw [← List.take_append_drop k p.components]
  rw [storage_append]
  exact Nat.le_add_right _ _

namespace Frame.Based

variable {P : Function → Prop} {w w' : World} {f : Frame} {x j : Nat}

theorem variable_of_field (based : f.Based w) (own : f.Field x) :
    (w.object f.object).program.component? f.component = some f.program ∧
      ∃ index < f.program.ownVariables.length,
        x = (w.object f.object).program.offset f.component + index := by
  obtain ⟨low, high⟩ := own
  cases based with
  | efun _ none => omega
  | component _ _ found _ slice =>
    rw [slice?, found, Option.map_some, Option.some.injEq, Prod.mk.injEq] at slice
    obtain ⟨offset, count⟩ := slice
    exact ⟨found, x - f.memberOffset, by omega, by omega⟩

theorem field_lt (based : f.Based w) (sound : w.Sound P) (own : f.Field x) :
    x < (w.object f.object).members.size := by
  obtain ⟨found, index, within, rfl⟩ := based.variable_of_field own
  have room := (w.object f.object).program.offset_le_size (f.component + 1)
  rw [offset_succ found, ← sound.size_members] at room
  omega

theorem field_apart (based : f.Based w) (own : f.Field x)
    (component : (w.object f.object).program.component? j = some c)
    (within : index < c.ownVariables.length)
    (same : x = (w.object f.object).program.offset j + index) : j = f.component := by
  obtain ⟨found, index', withinToo, sameToo⟩ := based.variable_of_field own
  exact (slot_unique component found within withinToo (same.symm.trans sameToo)).1

theorem componentMembers_eq (based : f.Based w) (confined : w.Confined f.object f.Field w')
    (other : j ≠ f.component) :
    (w'.object f.object).componentMembers j = (w.object f.object).componentMembers j := by
  have program := confined.program f.object
  cases found : (w.object f.object).program.component? j with
  | none => simp [Instance.componentMembers, slice?, program, found]
  | some c =>
    apply (Instance.componentMembers_eq_iff (program ▸ found) found).mpr
    intro index within
    rw [program]
    apply confined.kept
    exact fun own => other (based.field_apart own found within rfl)

end Frame.Based

namespace Machine

variable {P : Function → Prop} {w0 : World} {origin : Footing} {m : Machine} {f : Frame}
  {code : Array Instruction} {pc : Nat} {given : List Value} {act : Exec Effect}

/-- What code of a frame does next: an instruction, or it takes the result of a call. -/
inductive Acts (m : Machine) (f : Frame) (code : Array Instruction) (pc : Nat) :
    List Value → Exec Effect → Prop where
  | instruction (focus : m.focus = .code f code pc) :
      Acts m f code pc [] (instruction f code pc)
  | store {v : Value} {target : Operand} {pending : List Pending} (focus : m.focus = .result v)
      (waits : m.pending = .store f code pc target :: pending) :
      Acts m f code pc [v] (do write f target v; return .next pc)

/-- The code, at `pc`, stays within the bounds of its frame. -/
structure KeepsTo (m : Machine) (f : Frame) (code : Array Instruction) (pc : Nat)
    (given : List Value) (act : Exec Effect) : Prop where
  /-- The next instruction is in the code, or the code ends here. -/
  counter : pc ≤ code.size
  /-- The frame runs a function of a component of its object, or it runs an efun. -/
  based : f.Based m.world
  slots : ∀ i, f.Slot i → i < m.thread.stack.size
  fields : ∀ x, f.Field x → x < (m.world.object f.object).members.size
  /-- It ends well and goes on in the code, or it ends with a fault. -/
  ends : Ends (fun e _ => e.Within code pc) (fun trouble _ => trouble.IsFault) (act m.toState)
  /-- It reads and writes what the frame can get at. -/
  confines : f.Confines given m.toState act
  /-- The variables of other components stay as they are. -/
  others : ∀ j, j ≠ f.component →
    ((left (act m.toState)).world.object f.object).componentMembers j =
      (m.world.object f.object).componentMembers j
  /-- They are not even looked at. -/
  apart : ∀ j c index, (m.world.object f.object).program.component? j = some c →
    index < c.ownVariables.length → j ≠ f.component →
    ¬ f.Field ((m.world.object f.object).program.offset j + index)
  /-- The machine does this and no more, unless a call is made. -/
  steps : (∀ request target s, act m.toState ≠ .ok (.call request target) s) →
    ∃ m', m.step = .next m' ∧ m'.toState = left (act m.toState)
  /-- There is a next step, unless this one calls a function whose frame no stack has room for. -/
  goes : (∃ m', m.step = .next m') ∨ ∃ m0 r c args, m.Asks m0 r ∧ m0.request r = m0.invoke c args ∧
    (m0.newFrame c args).Vast

namespace Acts

section

variable (acts : m.Acts f code pc given act)
include acts

theorem secure (lies : ∃ size, f.Lies size)
    (within : pc ≤ code.size) : Secure f (Effect.Within code pc) act := by
  cases acts with
  | instruction => exact instruction_secure lies code pc
  | store => exact (write_secure lies _ _).bind fun _ _ => secure_pure within

theorem confines (lies : f.Lies s.thread.stack.size)
    (valid : s.owner.number < s.world.heap.lists.size) : f.Confines given s act := by
  cases acts with
  | instruction => exact Frame.instruction_confines lies valid code pc
  | store => exact Frame.store_confines lies valid _ _ pc

theorem frame (rests : m.Rests P w0 origin) :
    m.toState.Inside ∧ pc ≤ code.size ∧ f.Lies m.thread.stack.size ∧
      ∃ frames, m.thread.frames = f :: frames := by
  have bearing := rests.bearing
  cases acts with
  | instruction focus =>
    rw [focus] at bearing
    obtain ⟨⟨inside, _, stacked, -⟩, within, below, frames, top, running⟩ := bearing
    rw [top] at stacked
    exact ⟨inside, within, (stacked.frame_above running).2.2, frames, running⟩
  | store focus waits =>
    rw [focus] at bearing
    obtain ⟨inside, _, stacked, -⟩ := bearing
    rw [waits] at stacked
    exact ⟨inside, stacked.of_store⟩

theorem step (ends : Ends Q (fun trouble _ => trouble.IsFault) (act m.toState))
    (alone : ∀ request target s, act m.toState ≠ .ok (.call request target) s) :
    ∃ m', m.step = .next m' ∧ m'.toState = left (act m.toState) := by
  cases acts with
  | instruction focus =>
    unfold Machine.step
    rw [focus]
    dsimp only
    rw [stepCode, after_eq]
    cases ran : Exec.instruction f code pc m.toState with
    | ok effect s =>
      cases effect with
      | next target => exact ⟨_, rfl, rfl⟩
      | ret v => exact ⟨_, rfl, rfl⟩
      | call request target => exact (alone request target s ran).elim
    | error trouble s =>
      rw [ran] at ends
      cases trouble with
      | fault fault => exact ⟨_, rfl, rfl⟩
      | breach b => exact ends.elim
  | @store v target pending focus waits =>
    unfold Machine.step
    rw [focus]
    unfold stepResult
    rw [waits]
    dsimp only
    rw [after_eq]
    rw [bind_apply] at ends ⊢
    cases ran : write f target v m.toState with
    | ok _ s => exact ⟨_, rfl, rfl⟩
    | error trouble s =>
      rw [ran] at ends
      cases trouble with
      | fault fault => exact ⟨_, rfl, rfl⟩
      | breach b => exact ends.elim

theorem goes (neat : m.Neat P origin)
    (ends : Ends Q (fun trouble _ => trouble.IsFault) (act m.toState)) :
    (∃ m', m.step = .next m') ∨ ∃ m0 r c args, m.Asks m0 r ∧ m0.request r = m0.invoke c args ∧
      (m0.newFrame c args).Vast := by
  cases id acts with
  | instruction focus =>
    cases stepped : m.stepCode f code pc with
    | ok m' => exact .inl ⟨m', by simp only [Machine.step, focus, stepped, Progress.ofExcept]⟩
    | error b =>
      obtain ⟨⟨r, target, s, ran, cut | ⟨c, args, invokes, vast⟩⟩, -⟩ :=
        stepCode_error neat.rests focus stepped
      · -- The domains are those from before, and the stack has not become shorter.
        have resting := neat.rests.resting (by rw [focus]; exact id)
        have mild := instruction_moves (P := P) (above_zero f) code pc m.toState
          (resting.ready (Nat.zero_le _))
        rw [ran, left_ok] at mild
        obtain ⟨below, domains⟩ := resting.inside.cons
        have start := neat.piled.starts m.thread.current (by simp [height, domains])
        have grows := mild.grows
        rw [Thread.Cut, mild.thread] at cut
        exact absurd (start.trans grows) (Nat.not_le.mpr cut)
      · exact .inr ⟨_, r, c, args, .code focus ran, invokes, vast⟩
  | store =>
    obtain ⟨m', stepped, -⟩ := acts.step ends fun request target s called => by
      rw [bind_apply] at called
      split at called <;> cases called
    exact .inl ⟨m', stepped⟩

end

end Acts

theorem Neat.keepsTo (neat : m.Neat P origin) (acts : m.Acts f code pc given act) :
    m.KeepsTo f code pc given act := by
  have rests := neat.rests
  obtain ⟨inside, within, lies, frames, running⟩ := acts.frame rests
  have sound := rests.regular.sound.world
  have based : f.Based m.world := rests.regular.based f (running ▸ .head _)
  have ends := acts.secure ⟨_, lies⟩ within m.toState lies
  have confines := acts.confines lies (sound.lists _ inside.valid)
  have locals := lies.locals
  have fits := lies.fits
  exact {
    counter := within
    based
    slots := fun i own => by
      unfold Frame.Slot at own
      omega
    fields := fun x own => based.field_lt sound own
    ends := ends.mono fun _ _ after => after.1
    confines
    others := fun j other => based.componentMembers_eq confines.writes.fields other
    apart := fun j c index component inside other own =>
      other (based.field_apart own component inside rfl)
    steps := acts.step ends
    goes := acts.goes neat ends }

end Machine

namespace System

variable {σ : System} {key : ThreadKey} {task : Task} {m : Machine} {f : Frame}
  {code : Array Instruction} {pc : Nat} {given : List Value} {act : Exec Effect}

/-- While natives are honest and hosts restore what fits, the code that a thread runs keeps to its
frame. -/
theorem code_keeps_to_frame (tended : σ.Tended Function.Honest)
    (among : σ.tasks key = some task) (running : task.phase σ.world = .running m)
    (acts : m.Acts f code pc given act) : m.KeepsTo f code pc given act := by
  have neat := tended.neat (fun _ => id) key task among
  rw [running] at neat
  obtain ⟨⟨origin, neat⟩, -⟩ := neat
  exact neat.keepsTo acts

end System

/-- Code that writes its variable, and then one that it does not have. -/
def pouch : Program where
  name := "/pouch"
  ownVariables := [⟨"coins", .any⟩]
  constants := []
  functions := [
    { name := "put", number := 0,
      body := .code #[
        { code := mov.toByte, first := .member 0, second := .argument 0 },
        { code := mov.toByte, first := .member 1, second := .argument 0 }] }]
  inherited := []

/-- A variable of its own comes before that of the pouch, and one of another component after it. -/
def coat : Program where
  name := "/coat"
  ownVariables := [⟨"owner", .any⟩]
  constants := []
  functions := []
  inherited := [pouch, { (default : Program) with ownVariables := [⟨"rank", .any⟩] }]

theorem coat_honest : coat.All Function.Honest := by
  intro q component f listed body native
  simp only [components, coat, List.mem_cons, List.not_mem_nil, or_false] at component
  rcases component with rfl | rfl | rfl
  · simp at listed
  · obtain rfl := List.mem_singleton.mp listed
    simp at native
  · simp [default] at listed

def wardrobe : Except Breach State := do
  let (thread, world) ← attach stadium
  return ⟨(world.newObject coat 0).2, thread⟩

theorem wardrobe_tended (ready : wardrobe = .ok s) :
    (System.place ⟨stadium, fun _ => none⟩ s.thread.key (.idle s)).Tended Function.Honest := by
  unfold wardrobe at ready
  obtain ⟨thread, world, attached, ready⟩ := of_attach_bind ready
  cases ready
  have empty : System.Tended Function.Honest ⟨stadium, fun _ => none⟩ :=
    ⟨stadium, stadium_honest, .refl⟩
  have begun := empty.moves (.attach attached) (by simp [System.Heeds])
  exact begun.deed (.newObject coat_honest 0) fun _ => rfl

/-- The variable of the pouch has been written. -/
def secondPut? : Option (State × Machine × Machine) :=
  stride? wardrobe (fun s => s.call (s.world.object 0).id "put" [.integer 5]) 1

def Machine.code? (m : Machine) : Option (Frame × Array Instruction × Nat) :=
  match m.focus with
  | .code f code pc => some (f, code, pc)
  | _ => none

theorem Machine.code?_eq_some {m : Machine}
    (found : m.code? = some (f, code, pc)) : m.focus = .code f code pc := by
  unfold code? at found
  split at found
  · rename_i focus
    obtain ⟨rfl, rfl, rfl⟩ := found
    exact focus
  · simp at found

/-- The variable that comes after that of the pouch is not the one that the code can write. -/
theorem System.second_put_keeps_to_frame : ∃ (σ : System) (key : ThreadKey) (task : Task)
    (m : Machine) (f : Frame) (code : Array Instruction),
    σ.Tended Function.Honest ∧ σ.tasks key = some task ∧ task.phase σ.world = .running m ∧
    f.component = 1 ∧ f.memberOffset = 1 ∧ (m.world.object f.object).members.size = 3 ∧
    m.Acts f code 1 [] (instruction f code 1) ∧
    m.KeepsTo f code 1 [] (instruction f code 1) := by
  have ran : secondPut?.any (fun put => put.2.1.code?.any fun site => site.2.2 = 1 ∧
      site.1.component = 1 ∧ site.1.memberOffset = 1 ∧
      (put.2.1.world.object site.1.object).members.size = 3) = true := by decide +kernel
  obtain ⟨⟨s, m, m'⟩, put, passed⟩ := (Option.any_eq_true _ _).mp ran
  obtain ⟨⟨f, code, pc⟩, found, passed⟩ := (Option.any_eq_true _ _).mp passed
  obtain ⟨rfl, component, offset, size⟩ := of_decide_eq_true passed
  obtain ⟨ready, ⟨first, called, ran⟩, -⟩ := stride?_eq_some put
  have tended := ((wardrobe_tended ready).call called).run ran
  have among := System.tasks_place ⟨stadium, fun _ => none⟩ s.thread.key (.running m)
  have acts : m.Acts f code 1 [] (instruction f code 1) :=
    .instruction (Machine.code?_eq_some found)
  exact ⟨_, _, _, m, f, code, tended, among, rfl, component, offset, size, acts,
    code_keeps_to_frame tended among rfl acts⟩

/-- Code that calls a function with more locals than any stack has, code that calls a native which
cuts the stack, and code that calls another object. -/
def snares : Program where
  name := "/snares"
  ownVariables := []
  constants := [.ref ⟨.string, 0⟩]
  functions := [
    { name := "pass", number := 0, locals := 1
      body := .code #[{ code := callNear.toByte, first := .local 0, second := .constant 1 }] },
    { name := "sprawl", number := 1, locals := 0x1000000000000000, body := .code #[] },
    { name := "trip", number := 2, locals := 1
      body := .code #[{ code := callNear.toByte, first := .local 0, second := .constant 3 }] },
    { name := "cut", number := 3, body := .native (.act (.restore ⟨0, 0, 1⟩) fun _ => .done .nil) },
    { name := "sink", number := 4, locals := 9, body := .code #[{ code := 0xFF }] },
    { name := "reach", number := 5, locals := 1
      body := .code #[
        { code := mov.toByte, first := .local 0, second := .argument 0 },
        { code := callOther.toByte, first := .local 0, second := .constant 0,
          third := .constant (Window.pack ⟨0, 1⟩) }] }]
  inherited := []

/-- A thread at home, with one object there and another one in a domain. -/
def trapped : Except Breach State := do
  let (thread, world) ← attach stadium
  let world := (world.createDomain "pit").2
  let world := (world.newObject snares 0).2
  return ⟨(world.newObject snares 1).2, thread⟩

def RunResult.state? : RunResult → Option State
  | .finished _ s => some s
  | _ => none

/-- The thread has gone to the domain with what a failed call had left on the stack. -/
def sunk? : Option State := do
  let s ← (Machine.runFrom true 24 ((← trapped.toOption).callObject 0 "sink" [])).state?
  (Machine.runFrom true 24 (s.visit (s.world.object 1).id [])).state?

def Machine.breach? (called : Except Breach Machine) : Option Breach :=
  match runFrom true 24 called with
  | .broken b => some b
  | _ => none

/-- Code calls a function whose frame no stack has room for; it calls a native that cuts off its
frame, and takes the result; and it calls another object when the host has cut the stack below the
domain. -/
theorem Machine.code_breaks_off :
    (trapped.toOption.bind fun s => breach? (s.call (s.world.object 0).id "pass" [])) =
      some .capacity ∧
    (trapped.toOption.bind fun s => breach? (s.call (s.world.object 0).id "trip" [])) =
      some (.stackIndex 0 0) ∧
    (sunk?.bind fun s => (runFrom true 24 (s.restore ⟨0, 0, 2⟩)).state?.bind fun s =>
      breach? (s.callObject 1 "reach" [.object (s.world.object 0).id])) =
        some (.stackStart 9 2) := by
  decide +kernel

end Tenancy
