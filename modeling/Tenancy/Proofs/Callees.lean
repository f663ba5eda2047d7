import Tenancy.Program.Declaration
import Tenancy.Proofs.Frames
import Tenancy.Proofs.Parameters
import Tenancy.Proofs.Program.Composition
import Tenancy.Proofs.Staffing

/-!
Calls by name.

A program finds functions by name in two tables: what others may call, and what its own code calls.
Both hold numbers, and the numbers are right because a declaration counts its functions. Others call
an object by the public table of its program; the code of a component calls its own object by the
table of that component, whose numbers are then those of the component and not of the object.
Wherever in a run such a call is made, whatever the object is composed of: either the table has no
function of the name, and the answer is nil, or the function that is invoked has this name, is the one
that the table means, and is never missing.
-/

namespace Tenancy

open Tenancy.Action Motion Option

/-! ### Declarations -/

/-- The declaration has been built piece by piece. A function that is modified keeps its number. -/
inductive Declaration.Built : Declaration → Prop where
  | named (name : String) : Built { name }
  | addPart {d : Declaration} (built : d.Built) (name : String) : Built (d.addPart name)
  | addVariable {d : Declaration} (built : d.Built) (v : Variable) : Built (d.addVariable v)
  | addConstant {d : Declaration} (built : d.Built) (v : Value) : Built (d.addConstant v)
  | defineFunction {d : Declaration} (built : d.Built) (name : String) (traits : Traits) :
      Built (d.defineFunction name traits)
  | modifyFunction {d : Declaration} (built : d.Built) (number : Nat) {change : Function → Function}
      (same : ∀ f, (change f).number = f.number) : Built (d.modifyFunction number change)

/-- The functions have the numbers of their places. -/
def Numbered (functions : List Function) : Prop :=
  ∀ (i : Nat) (f : Function), functions[i]? = some f → f.number = i

theorem Numbered.modify (numbered : Numbered functions) (number : Nat)
    (same : ∀ f, (change f).number = f.number) : Numbered (functions.modify number change) := by
  intro i f found
  rw [List.getElem?_modify] at found
  obtain ⟨g, listed, rfl⟩ := map_eq_some_iff.mp found
  split
  · rw [same, numbered i g listed]
  · exact numbered i g listed

theorem Declaration.Built.numbered {d : Declaration} (built : d.Built) : Numbered d.functions := by
  induction built with
  | named => simp [Numbered]
  | @addPart d _ name ih =>
    unfold Declaration.addPart
    split <;> exact ih
  | addVariable _ _ ih => exact ih
  | addConstant _ _ ih => exact ih
  | @defineFunction d _ name traits ih =>
    unfold Declaration.defineFunction
    split
    · exact ih.modify _ fun _ => rfl
    · intro i f found
      rw [List.getElem?_append] at found
      split at found
      · exact ih i f found
      · rw [List.getElem?_singleton] at found
        split at found
        · cases found
          dsimp only
          omega
        · cases found
  | modifyFunction _ number same ih => exact ih.modify number same

/-! ### Tables -/

theorem lookup_map_pair [BEq β] [LawfulBEq β] (items : List α) (key : α → β) (value : α → γ) (b : β) :
    (items.map fun a => (key a, value a)).lookup b = (items.find? (key · == b)).map value := by
  induction items with
  | nil => rfl
  | cons a rest ih =>
    rw [List.map_cons, List.lookup_cons, List.find?_cons, BEq.comm]
    cases key a == b with
    | true => rfl
    | false => exact ih

namespace Program

variable {p q : Program} {name : String} {c : Callee} {f : Function}

/-- The function that a callee stands for. -/
def target? (p : Program) (c : Callee) : Option Function :=
  (p.component? c.component).bind (·.functions[c.function]?)

/-- The functions of a program, component after component. -/
def callables (p : Program) : List (Callee × Function) :=
  (p.components.mapIdx fun k q => q.functions.map fun f => (⟨k, f.number⟩, f)).flatten

/-- What the tables of a program find. -/
structure Resolves (p : Program) : Prop where
  places : ∀ c f, (c, f) ∈ p.callables → p.target? c = some f
  /-- Others find the first function of a name that is not internal. -/
  others : ∀ name, p.publicCallee? name =
    (p.callables.find? fun (_, f) => !f.traits.internal && f.name = name).map Prod.fst
  /-- The program's own code finds its own function of the name, internal or not, and else what
  others find. -/
  own : ∀ name, p.selfCallee? name =
    ((p.function? name).map fun f => ⟨0, f.number⟩).or (p.publicCallee? name)
  found : ∀ name c, p.publicCallee? name = some c ∨ p.selfCallee? name = some c →
    ∃ f, p.target? c = some f ∧ f.name = name

theorem mem_callables : (c, f) ∈ p.callables ↔
    ∃ q, p.component? c.component = some q ∧ f ∈ q.functions ∧ c.function = f.number := by
  simp only [callables, List.mem_flatten, List.mem_mapIdx, component?]
  constructor
  · rintro ⟨_, ⟨k, within, rfl⟩, listed⟩
    obtain ⟨g, mem, same⟩ := List.mem_map.mp listed
    cases same
    exact ⟨_, List.getElem?_eq_getElem within, mem, rfl⟩
  · rintro ⟨q, component, mem, number⟩
    obtain ⟨within, rfl⟩ := List.getElem?_eq_some_iff.mp component
    exact ⟨_, ⟨_, within, rfl⟩, List.mem_map.mpr ⟨f, mem, by rw [← number]⟩⟩

theorem publicFunctions_eq (p : Program) : p.publicFunctions =
    (p.callables.filter fun (_, f) => !f.traits.internal).map fun (c, f) => (f.name, c) := by
  rw [publicFunctions, callables, List.filter_flatten, List.map_flatten, List.map_map]
  congr 1
  apply List.ext_getElem?
  simp [Function.comp_def, List.filter_map]

theorem resolves (numbered : ∀ q ∈ p.components, Numbered q.functions) : p.Resolves := by
  have places : ∀ c f, (c, f) ∈ p.callables → p.target? c = some f := by
    intro c f listed
    obtain ⟨q, component, mem, number⟩ := mem_callables.mp listed
    obtain ⟨i, here⟩ := List.mem_iff_getElem?.mp mem
    rw [target?, component, bind_some, number, numbered q (mem_components component) i f here, here]
  have others : ∀ name, p.publicCallee? name =
      (p.callables.find? fun (_, f) => !f.traits.internal && f.name = name).map Prod.fst := by
    intro name
    rw [publicCallee?, publicFunctions_eq, lookup_map_pair, List.find?_filter]
    simp
  have own : ∀ name, p.selfCallee? name =
      ((p.function? name).map fun f => ⟨0, f.number⟩).or (p.publicCallee? name) := by
    intro name
    rw [selfCallee?, selfFunctions, List.lookup_append, lookup_map_pair, publicCallee?]
    rfl
  have found : ∀ name c, p.publicCallee? name = some c → ∃ f, p.target? c = some f ∧ f.name = name := by
    intro name c found
    rw [others] at found
    obtain ⟨⟨c, f⟩, first, rfl⟩ := map_eq_some_iff.mp found
    have named := List.find?_some first
    simp only [Bool.and_eq_true, decide_eq_true_eq] at named
    exact ⟨f, places c f (List.mem_of_find?_eq_some first), named.2⟩
  refine ⟨places, others, own, ?_⟩
  rintro name c (known | known)
  · exact found name c known
  · rw [own, or_eq_some_iff] at known
    rcases known with here | ⟨-, there⟩
    · obtain ⟨f, first, rfl⟩ := map_eq_some_iff.mp here
      refine ⟨f, places _ f ?_, by simpa using List.find?_some first⟩
      exact mem_callables.mpr ⟨p, rfl, List.mem_of_find?_eq_some first, rfl⟩
    · exact found name c there

/-- The program has been linked by a registry, from declarations that were built piece by piece. -/
def Assembled (p : Program) : Prop :=
  ∃ declared r, Registry.History declared r ∧ (∀ d ∈ declared, d.Built) ∧ p ∈ r.linked

/-- So have its components. -/
theorem Assembled.closed (assembled : p.Assembled) :
    ∃ programs, p.Closed programs ∧ ∀ q ∈ programs, q.Closed programs ∧ q.Resolves := by
  obtain ⟨declared, r, history, built, linked⟩ := assembled
  have composed := history.traces.composed
  refine ⟨r.linked, composed.closed p linked, fun q mem => ⟨composed.closed q mem, ?_⟩⟩
  apply resolves
  intro q' component
  obtain ⟨d, isDeclared, parts, rfl, -⟩ :=
    composed.linked ((composed.closed q mem).linked q' component)
  exact (built d isDeclared).numbered

/-- The code of a component finds functions in the composing program by the component's tables. -/
theorem Assembled.locates (assembled : p.Assembled) {k : Nat} (running : p.component? k = some q)
    (known : q.publicCallee? name = some c ∨ q.selfCallee? name = some c) : ∃ program f number,
      q.component? c.component = some program ∧ program.functions[c.function]? = some f ∧
      f.name = name ∧ p.mapped? k c.component = some number ∧
      p.component? number = some program := by
  obtain ⟨programs, closed, all⟩ := assembled.closed
  obtain ⟨inner, resolves⟩ := all q (closed.linked q (mem_components running))
  obtain ⟨f, target, named⟩ := resolves.found name c known
  obtain ⟨program, component, listed⟩ := bind_eq_some_iff.mp target
  obtain ⟨number, mapped, outer⟩ := Embeds.exists_number ⟨closed, inner, running⟩ component
  exact ⟨program, f, number, component, listed, named, mapped, outer⟩

theorem Assembled.resolves (assembled : p.Assembled) : p.Resolves := by
  obtain ⟨programs, closed, all⟩ := assembled.closed
  exact (all p (closed.linked p (.head _))).2

theorem assembled_default : (default : Program).Assembled := by
  refine ⟨[{ name := "" }], _, .link (.declare .empty rfl), ?_, .head _⟩
  intro d listed
  rw [List.mem_singleton.mp listed]
  exact .named ""

end Program

/-! ### Calls -/

theorem Function.checkArguments_ne_missing {f : Function} :
    f.checkArguments args ≠ .error (.badComponent component function) := by
  have typed : ∀ index params args,
      f.typeFault? index params args ≠ some (.badComponent component function) := by
    intro index params args
    fun_induction typeFault? <;> simp_all
  unfold checkArguments
  split
  · simp
  split
  · simp
  split
  · rename_i fault refused
    rintro ⟨⟩
    exact typed _ _ _ refused
  · simp

namespace Machine

/-- The machine goes on with the fault that a function is missing. -/
def Misses (result : Except Breach Machine) : Prop :=
  ∃ m component function, result = .ok m ∧ m.focus = .fault (.badComponent component function)

theorem invoke_found (m : Machine) (c : Callable) (args : List Value) :
    ¬ Misses (m.invoke c args) := by
  rintro ⟨m', component, function, invoked, failed⟩
  unfold invoke at invoked
  dsimp only at invoked
  split at invoked
  · cases invoked
    cases failed
  split at invoked
  · cases invoked
  split at invoked
  · have checked := Exec.checkParameters_pushFrame m.world m.thread (f := m.newFrame c args)
      args rfl rfl rfl
    unfold beginNative at invoked
    dsimp only at invoked
    rw [checked] at invoked
    cases accepted : (m.newFrame c args).function.checkArguments args with
    | error fault =>
      rw [accepted] at invoked
      cases invoked
      cases failed
      exact Function.checkArguments_ne_missing accepted
    | ok _ =>
      rw [accepted] at invoked
      cases invoked
      cases failed
  · cases invoked
    cases failed
  · cases invoked
    cases failed

/-- A call by a table of `own` is answered with nil when there is no callee, and else invokes the
function that the callee stands for, in the component that `own` means. -/
def Reaches (m : Machine) (object : ObjectKey) (own : Program) (name : String) (args : List Value) :
    Option Callee → Except Breach Machine → Prop
  | none, result => result = .ok (m.answer .nil)
  | some c, result => ∃ q f number, own.component? c.component = some q ∧
      q.functions[c.function]? = some f ∧ f.name = name ∧
      (m.world.object object).program.component? number = some q ∧
      result = m.invoke ⟨object, q, f, number, false⟩ args

end Machine

/-- The program whose table the code of a frame uses: its component's, or the object's for efuns. -/
def Frame.own (w : World) (f : Frame) : Program :=
  if f.isEfun then (w.object f.object).program else f.program

/-- What calls by name come to. -/
structure Machine.Dispatches (m : Machine) : Prop where
  object : ∀ (object : ObjectKey) (name : String) (args : List Value),
    m.Reaches object (m.world.object object).program name args
      ((m.world.object object).program.publicCallee? name) (m.callObject object name args)
  self : ∀ (f : Frame) (frames : List Frame) (name : String) (args : List Value),
    m.thread.frames = f :: frames →
    m.Reaches f.object (f.own m.world) name args ((f.own m.world).selfCallee? name)
      (m.callSelf name args)
  found : ∀ (object : ObjectKey) (name : String) (args : List Value),
    ¬ Misses (m.callObject object name args) ∧ ¬ Misses (m.callSelf name args)

namespace Machine

variable {m : Machine} {object : ObjectKey} {name : String} {args : List Value}

theorem Reaches.found {own : Program} {callee : Option Callee} {result : Except Breach Machine}
    (reaches : m.Reaches object own name args callee result) : ¬ Misses result := by
  cases callee with
  | none =>
    obtain rfl := reaches
    rintro ⟨_, _, _, ⟨⟩, ⟨⟩⟩
  | some c =>
    obtain ⟨q, f, number, -, -, -, -, rfl⟩ := reaches
    exact m.invoke_found _ args

theorem callObject_reaches (assembled : (m.world.object object).program.Assembled) :
    m.Reaches object (m.world.object object).program name args
      ((m.world.object object).program.publicCallee? name) (m.callObject object name args) := by
  unfold callObject
  cases found : (m.world.object object).program.publicCallee? name with
  | none => rfl
  | some c =>
    obtain ⟨q, f, -, component, listed, named, -⟩ := assembled.locates rfl (.inl found) (k := 0)
    exact ⟨q, f, _, component, listed, named, component, by simp [callComponent, component, listed]⟩

theorem callSelf_reaches {f : Frame} {frames : List Frame} (running : m.thread.frames = f :: frames)
    (assembled : (m.world.object f.object).program.Assembled) (based : f.Based m.world) :
    m.Reaches f.object (f.own m.world) name args ((f.own m.world).selfCallee? name)
      (m.callSelf name args) := by
  obtain ⟨k, same, component⟩ : ∃ k, (if f.isEfun then ((m.world.object f.object).program, 0)
      else (f.program, f.component)) = (f.own m.world, k) ∧
      (m.world.object f.object).program.component? k = some (f.own m.world) := by
    unfold Frame.own
    cases based with
    | efun isEfun => exact ⟨0, by simp [isEfun], by simp [isEfun, Program.component?_zero]⟩
    | component notEfun _ found => exact ⟨f.component, by simp [notEfun], by simp [notEfun, found]⟩
  unfold callSelf
  rw [running]
  dsimp only
  rw [same]
  dsimp only
  cases found : (f.own m.world).selfCallee? name with
  | none => rfl
  | some c =>
    obtain ⟨q, g, number, inner, listed, named, mapped, outer⟩ := assembled.locates component (.inr found)
    refine ⟨q, g, number, inner, listed, named, outer, ?_⟩
    simp [mapped, callComponent, outer, listed]

end Machine

theorem World.Staffed.assembled {w : World} (staffed : w.Staffed Program.Assembled)
    (k : ObjectKey) : (w.object k).program.Assembled := by
  unfold World.object
  cases found : w.objects[k]? with
  | none => exact Program.assembled_default
  | some o => exact staffed.objects o (Array.mem_of_getElem? found)

theorem Machine.dispatches {m : Machine} (staffed : m.world.Staffed Program.Assembled)
    (grounded : m.toState.Grounded) : m.Dispatches := by
  have object : ∀ object name args, m.Reaches object (m.world.object object).program name args
      ((m.world.object object).program.publicCallee? name) (m.callObject object name args) :=
    fun object _ _ => callObject_reaches (staffed.assembled object)
  have self : ∀ f frames name args, m.thread.frames = f :: frames →
      m.Reaches f.object (f.own m.world) name args ((f.own m.world).selfCallee? name)
        (m.callSelf name args) :=
    fun f _ _ _ running =>
      callSelf_reaches running (staffed.assembled _) (grounded f (running ▸ .head _))
  refine ⟨object, self, fun k name args => ⟨(object k name args).found, ?_⟩⟩
  cases running : m.thread.frames with
  | nil =>
    simp only [callSelf, running]
    rintro ⟨_, _, _, ⟨⟩, ⟨⟩⟩
  | cons f frames => exact (self f frames name args running).found

/-- The state that a call is made from. -/
theorem Phase.Makes.leads {M : Motion State} (drives : M.Drives) {phase : Phase} {m0 m1 : Machine}
    (makes : phase.Makes m0 m1) : M.Leads phase.state m0.toState := by
  cases makes with
  | @asks m _ _ _ asks =>
    cases asks with
    | @code f instrs pc r target s focus ran =>
      have above : f.Above 0 := ⟨Nat.zero_le _, Nat.zero_le _⟩
      have moved := drives.enacts.instruction_moves above instrs pc m.toState (drives.anywhere _)
      rw [ran] at moved
      exact moved
    | native | attempt => exact M.refl _
  | arrives => exact drives.entered _ _
  | @call s s' _ target name args copies copied =>
    have moved : M.Leads s (left (Exec.inDomain (fun owner => Heap.copyAll owner args) s)) :=
      drives.onHeap _ s
    rwa [copied] at moved
  | request | object => exact M.refl _

/-- Every program that a registry has linked finds the right functions by name; and wherever a thread
of a system with such programs makes a call, calls by name invoke the functions that are found. -/
theorem System.calls_find_functions_by_name :
    (∀ p : Program, p.Assembled → p.Resolves) ∧
    ∀ (σ : System) (key : ThreadKey) (task : Task) (m : Machine), σ.Peopled Program.Assembled →
      σ.tasks key = some task →
      (m.toState = ⟨σ.world, task.thread⟩ ∨ ∃ m', (task.phase σ.world).Makes m m') →
      m.Dispatches := by
  refine ⟨fun p assembled => assembled.resolves, ?_⟩
  intro σ key task m peopled among calls
  have staffed := peopled.staffed
  have grounded := staffed.grounded key task among
  rcases calls with same | ⟨m', makes⟩
  · exact Machine.dispatches (same ▸ staffed.world) (same ▸ grounded)
  · have leads := makes.leads (Exec.staffing_drives Program.Assembled)
    rw [Task.state_phase] at leads
    exact Machine.dispatches (leads.1.staffed staffed.world) (leads.2 grounded)

/-! A guild is composed of a craft. Both have an aid; the craft keeps its own to itself. -/

namespace Registry

/-- Work calls for aid. -/
def craft : Declaration :=
  ((({ name := "/craft" } : Declaration).defineFunction "work" {}).modifyFunction 0 fun f =>
    { f with body := .native (.act (.call (.self "aid" [])) fun _ => .done .nil) }).defineFunction
      "aid" { internal := true }

def guild : Declaration :=
  (({ name := "/guild" } : Declaration).addPart "/craft").defineFunction "aid" {}

def guildProgram : Program := Program.link guild [Program.link craft []]

theorem guildProgram_assembled : guildProgram.Assembled := by
  refine ⟨[guild, craft], _, .link (.declare (.declare .empty rfl) rfl), ?_, .tail _ (.head _)⟩
  intro d listed
  rcases List.mem_cons.mp listed with rfl | last
  · exact .defineFunction (.addPart (.named "/guild") "/craft") "aid" {}
  · rw [List.mem_singleton.mp last]
    refine .defineFunction (.modifyFunction (.defineFunction (.named "/craft") "work" {}) 0 ?_) "aid" _
    exact fun _ => rfl

end Registry

/-- A thread, with a guild in its home. -/
def guildhall : Except Breach State := do
  let (thread, world) ← Thread.attach stadium
  return ⟨(world.newObject Registry.guildProgram 0).2, thread⟩

theorem guildhall_peopled {s : State} (ready : guildhall = .ok s) :
    (System.place ⟨stadium, fun _ => none⟩ s.thread.key (.idle s)).Peopled Program.Assembled := by
  unfold guildhall at ready
  obtain ⟨thread, world, attached, ready⟩ := Thread.of_attach_bind ready
  cases ready
  have empty : System.Peopled Program.Assembled ⟨stadium, fun _ => none⟩ :=
    .blank (stadium_blank.mono fun _ _ => trivial) (by simp [stadium])
  have begun := empty.next (.attach attached)
  obtain ⟨rfl, rfl⟩ := Thread.attach_eq attached
  refine (begun rfl (by simp)).next (.demand (.newObject Registry.guildProgram 0)) rfl ?_
  rintro p k ⟨⟩
  exact Registry.guildProgram_assembled

/-- The guild has been called to work. -/
def commission? : Option (State × Machine × Machine) :=
  stride? guildhall (fun s => s.call (s.world.object 0).id "work" []) 0

/-- Work runs in component 1 of the guild and gets the aid of this component, though others who ask
the guild for aid get that of component 0. -/
theorem System.craft_calls_its_own_aid : ∃ (σ : System) (key : ThreadKey) (task : Task) (m : Machine),
    σ.Peopled Program.Assembled ∧ σ.tasks key = some task ∧ m.toState = ⟨σ.world, task.thread⟩ ∧
    m.Dispatches ∧ Registry.guildProgram.Resolves ∧
    Registry.guildProgram.publicCallee? "aid" = some ⟨0, 0⟩ ∧
    (m.callSelf "aid" []).toOption.map (·.thread.frames.map fun f => (f.component, f.function.name)) =
      some [(1, "aid"), (1, "work")] := by
  have ran : commission?.any (fun work => (work.2.1.callSelf "aid" []).toOption.map
      (·.thread.frames.map fun f => (f.component, f.function.name)) =
        some [(1, "aid"), (1, "work")]) = true := by decide +kernel
  obtain ⟨⟨s, m, m'⟩, ran, frames⟩ := (any_eq_true _ _).mp ran
  obtain ⟨ready, ⟨first, called, ⟨⟩⟩, -⟩ := stride?_eq_some ran
  have peopled := guildhall_peopled ready
  have goes : Phase.Goes (.idle s) (.running m) := .begin (.call called)
  have working := peopled.step (.place goes) (goes.staffs.1.staffed peopled.staffed.world).linked nofun
  have among := tasks_place ⟨stadium, fun _ => none⟩ s.thread.key (.running m)
  exact ⟨_, _, _, m, working, among, rfl,
    calls_find_functions_by_name.2 _ _ _ m working among (.inl rfl),
    calls_find_functions_by_name.1 _ Registry.guildProgram_assembled, by decide +kernel,
    of_decide_eq_true frames⟩

end Tenancy
