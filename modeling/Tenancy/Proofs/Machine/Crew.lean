import Tenancy.Proofs.Machine.Cases
import Tenancy.Proofs.Machine.Paired

/-!
Machines in lockstep: calls, code and native bodies.

Two machines go together when their states are twins and their focus and what waits are the same. A
staffed layout has, besides what a layout has, every frame in the domain of its context. Steps of two
such machines follow each other: they fail in the same way or lead to machines that go together.
-/

namespace Tenancy

open Tenancy.Action Coupling List Heap Exec State

/-- What waits over code and efuns, top first, with frames that run in the domains of their
contexts. -/
inductive Staffed (runs : DomainKey → Frame → Prop) :
    List Pending → List Frame → List DomainContext → Nat → Prop where
  | host {c : DomainContext} (start : c.start = 0) (empty : size = 0) (same : mark = ⟨0, 0, 1⟩) :
      Staffed runs [.host mark] [] [c] size
  | frame {c : DomainContext} {f : Frame} {base : Nat}
      (below : Staffed runs pending frames (c :: domains) base) (belongs : runs c.domain f)
      (begins : f.argsBase = base) (locals : base ≤ f.localsBase)
      (ends : f.localsBase + f.localCount ≤ size) :
      Staffed runs (.frame base :: pending) (f :: frames) (c :: domains) size
  | store (below : Staffed runs (.frame base :: pending) (f :: frames) domains size) :
      Staffed runs (.store f instructions pc target :: .frame base :: pending) (f :: frames) domains
        size
  | crossing {c : DomainContext} (begins : c.start = size)
      (below : Staffed runs pending frames domains size) :
      Staffed runs (.crossing :: pending) frames (c :: domains) size

namespace Staffed

variable {runs runs' : DomainKey → Frame → Prop} {pending : List Pending} {frames : List Frame}
  {domains : List DomainContext} {size : Nat}

section

variable (staffed : Staffed runs pending frames domains size)
include staffed

theorem mono
    (weaker : ∀ k f, runs k f → runs' k f) : Staffed runs' pending frames domains size := by
  induction staffed with
  | host start empty same => exact .host start empty same
  | frame _ belongs begins locals ends ih =>
    exact .frame ih (weaker _ _ belongs) begins locals ends
  | store _ ih => exact .store ih
  | crossing begins _ ih => exact .crossing begins ih

theorem start_le : ∀ c ∈ domains, c.start ≤ size := by
  induction staffed with
  | host start => simp [start]
  | frame _ _ _ locals ends ih =>
    intro c mem
    have := ih c mem
    omega
  | store _ ih => exact ih
  | crossing begins _ ih =>
    intro c mem
    rcases mem_cons.mp mem with rfl | lower
    · exact begins.le
    · exact ih c lower

theorem context : ∃ c below, domains = c :: below := by
  induction staffed with
  | host | frame | crossing => exact ⟨_, _, rfl⟩
  | store _ ih => exact ih

theorem ne_nil : pending ≠ [] := by
  cases staffed <;> simp

end

theorem top (staffed : Staffed runs (.frame base :: pending) (f :: frames) domains size) :
    ∃ c below, domains = c :: below ∧ runs c.domain f ∧ f.Above c.start ∧ f.argsBase = base := by
  cases staffed with
  | frame below belongs begins locals ends =>
    have starts := below.start_le _ (.head _)
    exact ⟨_, _, rfl, belongs, ⟨begins ▸ starts, starts.trans locals⟩, begins⟩

end Staffed

namespace State

variable {S T : ListId} {G : Nat → Prop} {s s' : State} {pending : List Pending}

/-- The frames of the thread run where what waits expects them. -/
def Crewed (s : State) (pending : List Pending) : Prop :=
  Staffed s.world.Runs pending s.thread.frames s.thread.domains s.thread.stack.size

theorem Crewed.firm (crewed : s.Crewed pending) (firm : s.world.Firm s'.world)
    (frames : s'.thread.frames = s.thread.frames) (domains : s'.thread.domains = s.thread.domains)
    (size : s'.thread.stack.size = s.thread.stack.size) : s'.Crewed pending := by
  unfold Crewed
  rw [frames, domains, size]
  exact crewed.mono fun _ _ runs => runs.firm firm

theorem Crewed.stays (crewed : s.Crewed pending) (stays : s.Stays S G s') : s'.Crewed pending := by
  refine crewed.firm stays.firm ?_ ?_ stays.size
  · rw [stays.thread]
  · rw [stays.thread]

/-- The value is local to the domain that the thread is in. -/
def here (G : Nat → Prop) (s : State) (v : Value) : Prop :=
  s.world.fits G s.thread.current.domain v

theorem here_stays (fits : s.here G v) (stays : s.Stays S G s') : s'.here G v := by
  have current : s'.thread.current = s.thread.current := by
    rw [stays.thread]
    rfl
  unfold here
  rw [current]
  exact stays.fits fits

end State

/-- How a machine stands under a focus. The windows on its stack are those of `contexts`. -/
def Stance (T : ListId) (G : Nat → Prop) (contexts : List DomainContext) (s : State)
    (pending : List Pending) : Focus → Prop
  | .code f _ _ => contexts = s.thread.domains ∧ s.Crewed pending ∧ ∃ below frames,
      pending = .frame f.argsBase :: below ∧ s.thread.frames = f :: frames
  | .native body => contexts = s.thread.domains ∧ s.Crewed pending
      ∧ (∃ base below, pending = .frame base :: below)
      ∧ ∃ known, body.Tame known ∧ ∀ v ∈ known, s.here G v
  | .result v => contexts = s.thread.domains ∧ s.Crewed pending ∧ s.here G v
  | .fault _ => contexts = s.thread.domains ∧ pending ≠ [] ∧ ∃ dropped, s.Crewed (dropped ++ pending)
  | .visiting domain _ args errand => contexts = s.thread.domains ∧ s.Crewed pending
      ∧ (∃ name, errand = .call name) ∧ domain < s.world.domains.size
      ∧ ∀ v ∈ args, s.world.heap.Suits G T v
  | .rollingBack next => contexts = s.thread.domains ∧ s.Crewed pending
      ∧ (next = .result .nil ∨ ∃ f, next = .fault f)
  | .returning v => contexts = s.thread.domains ∧ s.Crewed pending ∧ s.world.heap.Suits G T v
  | .unwinding mark next | .reentering mark next => s.thread.domains <:+ contexts
      ∧ (∃ before, Staffed s.world.Runs before s.thread.frames contexts s.thread.stack.size)
      ∧ mark = ⟨0, 0, 1⟩ ∧ pending = [.host mark] ∧ ∃ f trace, next = .done (.failed f trace)
  | .done _ => contexts = s.thread.domains ∧ s.Crewed pending
      ∧ ∃ mark, pending = [.host mark]

namespace Machine

/-- Machines that go together. -/
structure Twin (S T : ListId) (G : Nat → Prop) (contexts : List DomainContext) (m1 m2 : Machine) :
    Prop where
  state : State.Twin S T G contexts m1.toState m2.toState
  focus : m2.focus = m1.focus
  pending : m2.pending = m1.pending
  stance : Stance T G contexts m1.toState m1.pending m1.focus

/-- What the host is given lies outside the domains, if all it had before does. -/
def Hands (S : ListId) (G : Nat → Prop) (h : Heap) (G' : Nat → Prop) (m : Machine) : Prop :=
  ∀ v, m.focus = .done (.returned v) → h.Sealed S G → m.world.heap.Outside S v ∧ v.Avoids G'

/-- Steps that follow each other from machines whose first heap is `h`. -/
inductive Follows (S T : ListId) (G : Nat → Prop) (h : Heap) :
    Except Breach Machine → Except Breach Machine → Prop where
  | ok {m1 m2 : Machine} {G' : Nat → Prop} {contexts : List DomainContext}
      (passage : Passage S G h G' m1.world.heap) (hands : Hands S G h G' m1)
      (twin : Twin S T G' contexts m1 m2) : Follows S T G h (.ok m1) (.ok m2)
  | error (b : Breach) : Follows S T G h (.error b) (.error b)

variable {S T : ListId} {G G' : Nat → Prop} {h h' : Heap} {contexts : List DomainContext}
  {m m1 m2 : Machine} {r1 r2 : Except Breach Machine} {v : Value} {α : Type} {f : Frame}
  {args known : List Value} {frames : List Frame} {base : Nat} {pending : List Pending}
  {body : Native Value}

theorem Follows.after (follows : Follows S T G' h' r1 r2) (passage : Passage S G h G' h') :
    Follows S T G h r1 r2 := by
  cases follows with
  | ok later hands twin =>
    exact .ok (passage.trans later) (fun v returned closed => hands v returned (passage.sealed closed))
      twin
  | error b => exact .error b

/-- Two machines that are about to call or to answer. -/
structure Ready (S T : ListId) (G : Nat → Prop) (m1 m2 : Machine) : Prop where
  state : State.Twin S T G m1.thread.domains m1.toState m2.toState
  pending : m2.pending = m1.pending
  crewed : m1.toState.Crewed m1.pending

theorem answer_follows (ready : Ready S T G m1 m2) (fits : m1.toState.here G v) :
    Follows S T G m1.world.heap (.ok (m1.answer v)) (.ok (m2.answer v)) :=
  .ok (.refl S G _) nofun ⟨ready.state, rfl, ready.pending, rfl, ready.crewed, fits⟩

theorem raise_follows (ready : Ready S T G m1 m2) (f : Fault) :
    Follows S T G m1.world.heap (.ok (m1.raise f)) (.ok (m2.raise f)) :=
  .ok (.refl S G _) nofun ⟨ready.state, rfl, ready.pending, rfl, ready.crewed.ne_nil, [], ready.crewed⟩

theorem after_eq (m : Machine) (act : Exec α) (next : Machine → α → Except Breach Machine) :
    m.after act next = match act m.toState with
      | .ok a s => next { m with toState := s } a
      | .error (.fault f) s => .ok { m with toState := s, focus := .fault f }
      | .error (.breach b) _ => .error b := rfl

/-- After an action of the thread, the machines go on together. What waits for a fault of the action
need not be all that waits. -/
theorem after_goes (dropped : List Pending)
    (pending : m2.pending = m1.pending) (waits : m1.pending ≠ [])
    (crewed : m1.toState.Crewed (dropped ++ m1.pending))
    (couples : (coupling S T G m1.thread.domains).Couples m1.toState m2.toState Q act act)
    (next : ∀ a s1 s2, m1.toState.Stays S G s1 → Q a s1 →
      State.Twin S T G s1.thread.domains s1 s2 → s1.Crewed (dropped ++ m1.pending) →
      Follows S T G s1.world.heap (next1 { m1 with toState := s1 } a)
        (next2 { m2 with toState := s2 } a)) :
    Follows S T G m1.world.heap (m1.after act next1) (m2.after act next2) := by
  have domains : ∀ {s1 : State}, m1.toState.Stays S G s1 →
      s1.thread.domains = m1.thread.domains := fun stays => by rw [stays.thread]
  have passage : ∀ {s1 : State}, m1.toState.Stays S G s1 →
      Passage S G m1.world.heap G s1.world.heap := fun stays => stays.heap.carries.toPassage
  unfold Couples at couples
  rw [after_eq, after_eq]
  generalize act m1.toState = r1 at couples
  generalize act m2.toState = r2 at couples
  cases couples with
  | ok twin stays result =>
    exact (next _ _ _ stays result (domains stays ▸ twin) (crewed.stays stays)).after (passage stays)
  | @error e s1 s2 twin stays =>
    cases e with
    | fault f =>
      exact .ok (passage stays) nofun ⟨twin, rfl, pending, (domains stays).symm, waits, dropped,
        crewed.stays stays⟩
    | breach b => exact .error b

theorem after_follows (ready : Ready S T G m1 m2)
    (couples : (coupling S T G m1.thread.domains).Couples m1.toState m2.toState Q act act)
    (next : ∀ a s1 s2, m1.toState.Stays S G s1 → Q a s1 →
      Ready S T G { m1 with toState := s1 } { m2 with toState := s2 } →
      Follows S T G s1.world.heap (next1 { m1 with toState := s1 } a)
        (next2 { m2 with toState := s2 } a)) :
    Follows S T G m1.world.heap (m1.after act next1) (m2.after act next2) :=
  after_goes [] ready.pending ready.crewed.ne_nil ready.crewed couples
    fun a s1 s2 stays result twin crewed => next a s1 s2 stays result ⟨twin, ready.pending, crewed⟩

/-! ### Calls -/

theorem current_eq {c : DomainContext} {below : List DomainContext}
    (seated : m.thread.domains = c :: below) : m.thread.current = c := by
  simp [Thread.current, seated]

theorem pushFrame_slot {t : Thread} {i : Nat} (found : (pushFrame t f args).stack[i]? = some v) :
    t.stack[i]? = some v ∨ v ∈ args ∨ v = .nil := by
  unfold pushFrame at found
  rw [Array.getElem?_append] at found
  split at found
  · rw [Array.getElem?_append] at found
    split at found
    · exact .inl found
    · exact .inr (.inl (mem_of_getElem? (by simpa using found)))
  · rw [Array.getElem?_replicate] at found
    split at found
    · exact .inr (.inr (Option.some.inj found).symm)
    · simp at found

theorem pushFrame_ready (ready : Ready S T G m1 m2) (runs : m1.world.Runs m1.thread.current.domain f)
    (begins : f.argsBase = m1.thread.stack.size) (slots : args.length ≤ f.argSlots)
    (argc : f.argc = args.length) (locals : f.localsBase = f.argsBase + f.argSlots)
    (fits : ∀ v ∈ args, m1.toState.here G v) : Ready S T G
      { m1 with thread := pushFrame m1.thread f args, pending := .frame f.argsBase :: m1.pending }
      { m2 with
        thread := pushFrame m2.thread f args, pending := .frame f.argsBase :: m2.pending } := by
  obtain ⟨c, below, seated⟩ := ready.crewed.context
  have current := current_eq seated
  have twin := seated ▸ ready.state
  have starts := twin.tiled.1
  have size : (pushFrame m1.thread f args).stack.size = f.localsBase + f.localCount := by
    simp [pushFrame]
    omega
  refine ⟨?_, congrArg (.frame f.argsBase :: ·) ready.pending, ?_⟩
  · refine { ready.state with
      thread := by rw [ready.state.thread]
      tiled := ?_ }
    show Tiled _ (pushFrame m1.thread f args).stack m1.thread.domains _
    rw [seated]
    refine twin.tiled.renew (by simp [pushFrame]; omega) (fun i lower => ?_) fun i v low high found => ?_
    · have within := lower.trans_le starts
      unfold pushFrame
      rw [Array.getElem?_append_left (by simp; omega), Array.getElem?_append_left within]
    · rcases pushFrame_slot found with before | given | rfl
      · exact twin.fits_of_slot low before
      · exact current ▸ fits v given
      · exact suits_of_ref? rfl
  · show Staffed _ (.frame f.argsBase :: m1.pending) (f :: m1.thread.frames) m1.thread.domains _
    have crewed : Staffed m1.world.Runs m1.pending m1.thread.frames (c :: below)
        m1.thread.stack.size := seated ▸ ready.crewed
    rw [seated]
    refine .frame (begins ▸ crewed) (current ▸ runs) rfl (by omega) ?_
    exact size.ge

theorem beginNative_eq (m : Machine) (f : Frame) (body : Native Value) :
    m.beginNative f body =
      m.after (checkParameters f) fun m _ => .ok { m with focus := .native body } := by
  unfold beginNative
  rw [after_eq]
  rcases checkParameters f m.toState with ⟨_, s⟩ | ⟨_ | _, s⟩ <;> rfl

section

variable (ready : Ready S T G m1 m2)
include ready

theorem beginNative_follows (top : m1.pending = .frame base :: pending)
    (running : m1.thread.frames = f :: frames) (tame : body.Tame []) :
    Follows S T G m1.world.heap (m1.beginNative f body) (m2.beginNative f body) := by
  have crewed := ready.crewed
  unfold State.Crewed at crewed
  rw [top, running] at crewed
  obtain ⟨c, below, seated, runs, above, -⟩ := crewed.top
  rw [beginNative_eq, beginNative_eq]
  refine after_follows ready (seated ▸ ((companions S T G c below f).checkParameters_couples
    ⟨seated ▸ ready.state, runs, above, seated⟩).ofDuring) ?_
  intro _ s1 s2 _ _ ready
  exact .ok (.refl S G _) nofun
    ⟨ready.state, rfl, ready.pending, rfl, ready.crewed, ⟨base, pending, top⟩, [], tame, by simp⟩

theorem invoke_follows (runs : m1.world.Runs m1.thread.current.domain (m1.newFrame c args))
    (tame : c.function.Tame) (fits : ∀ v ∈ args, m1.toState.here G v) :
    Follows S T G m1.world.heap (m1.invoke c args) (m2.invoke c args) := by
  have same : m2.newFrame c args = m1.newFrame c args := by
    unfold newFrame
    rw [ready.state.thread, ready.state.alike.object]
  unfold invoke
  dsimp only
  rw [same, ready.state.alike.callDepth, ready.state.thread]
  split
  · exact raise_follows ready _
  cases reserve (m1.newFrame c args) with
  | error b => exact .error b
  | ok _ =>
    have pushed := pushFrame_ready ready runs rfl (Nat.le_max_left _ _) rfl rfl fits
    rw [ready.state.thread] at pushed
    cases body : c.function.body with
    | native native => exact beginNative_follows pushed rfl rfl (tame native body)
    | code instrs =>
      exact .ok (.refl S G _) nofun ⟨pushed.state, rfl, pushed.pending, rfl, pushed.crewed, _, _, rfl, rfl⟩
    | undefined => exact answer_follows pushed (suits_of_ref? rfl)

section

variable (valid : m1.thread.current.domain < m1.world.domains.size)
  (home : (m1.world.object object).domain = (m1.world.domain m1.thread.current.domain).id)
include valid home

theorem callComponent_follows (component function : Nat) (fits : ∀ v ∈ args, m1.toState.here G v) :
    Follows S T G m1.world.heap (m1.callComponent object component function args)
      (m2.callComponent object component function args) := by
  unfold callComponent
  rw [ready.state.alike.object]
  cases found : (m1.world.object object).program.component? component with
  | none => exact raise_follows ready _
  | some program =>
    dsimp only
    cases listed : program.functions[function]? with
    | none => exact raise_follows ready _
    | some f =>
      have isComponent := mem_of_getElem? found
      have isFunction := mem_of_getElem? listed
      have known : object < m1.world.objects.size := by
        by_contra missing
        have nobody : m1.world.object object = default := by
          simp [World.object, Array.getElem?_eq_none (Nat.le_of_not_lt missing)]
        rw [nobody] at isComponent
        obtain rfl : program = default := mem_singleton.mp isComponent
        exact not_mem_nil isFunction
      exact invoke_follows ready ⟨⟨valid, known, home⟩, .inl ⟨isComponent, isFunction⟩⟩
        (ready.state.tame.objects _ known program isComponent f isFunction) fits

theorem callObject_follows (name : String) (fits : ∀ v ∈ args, m1.toState.here G v) :
    Follows S T G m1.world.heap (m1.callObject object name args)
      (m2.callObject object name args) := by
  unfold callObject
  rw [ready.state.alike.object]
  split
  · exact answer_follows ready (suits_of_ref? rfl)
  · exact callComponent_follows ready valid home _ _ fits

end

end

/-- The top frame is in the domain that the thread is in. -/
def Manned (m : Machine) : Prop :=
  ∀ f frames, m.thread.frames = f :: frames → m.world.Runs m.thread.current.domain f

section

variable (ready : Ready S T G m1 m2) (manned : m1.Manned) (fits : ∀ v ∈ args, m1.toState.here G v)
include ready manned fits

theorem callFar_follows (component function : Nat) :
    Follows S T G m1.world.heap (m1.callFar component function args)
      (m2.callFar component function args) := by
  unfold callFar
  rw [ready.state.thread]
  cases running : m1.thread.frames with
  | nil => exact raise_follows ready _
  | cons f frames =>
    have houses := (manned f frames running).houses
    dsimp only
    rw [ready.state.alike.object]
    split
    · exact raise_follows ready _
    · exact callComponent_follows ready houses.domain houses.home _ _ fits

theorem callSelf_follows (name : String) :
    Follows S T G m1.world.heap (m1.callSelf name args) (m2.callSelf name args) := by
  unfold callSelf
  rw [ready.state.thread]
  cases running : m1.thread.frames with
  | nil => exact raise_follows ready _
  | cons f frames =>
    have houses := (manned f frames running).houses
    dsimp only
    rw [ready.state.alike.object]
    split
    · exact answer_follows ready (suits_of_ref? rfl)
    · split
      · exact raise_follows ready _
      · exact callComponent_follows ready houses.domain houses.home _ _ fits

theorem callEfun_follows (name : String) :
    Follows S T G m1.world.heap (m1.callEfun name args) (m2.callEfun name args) := by
  unfold callEfun
  rw [ready.state.thread, ready.state.alike.efuns]
  cases found : m1.world.efuns.find? name with
  | none => exact raise_follows ready _
  | some function =>
    have listed : function ∈ m1.world.efuns.functions := by
      simp only [EfunRegistry.find?, Option.bind_eq_bind, Option.bind_eq_some_iff] at found
      obtain ⟨number, -, listed⟩ := found
      exact mem_of_getElem? listed
    cases running : m1.thread.frames with
    | nil => exact raise_follows ready _
    | cons f frames =>
      exact invoke_follows ready ⟨(manned f frames running).houses, .inr ⟨rfl, listed⟩⟩
        (ready.state.tame.efuns function listed) fits

end

/-! ### Setting out for another domain -/

/-- Both worlds change a domain, and it keeps its identity, its list and its objects. -/
theorem Ready.modifyDomain (ready : Ready S T G m1 m2) (k : DomainKey)
    (commutes : ∀ d, (g d).skeleton = g d.skeleton)
    (kept : ∀ d, (g d).id = d.id ∧ (g d).values = d.values ∧ (g d).members = d.members) :
    Ready S T G { m1 with world := m1.world.modifyDomain k g }
      { m2 with world := m2.world.modifyDomain k g } :=
  ⟨ready.state.modifyDomain k commutes kept, ready.pending,
    ready.crewed.firm (.modifyDomain _ k kept) rfl rfl rfl⟩

theorem departHere_follows (ready : Ready S T G m1 m2) (valid : domain < m1.world.domains.size)
    (suits : ∀ v ∈ moved, m1.world.heap.Suits G T v) :
    Follows S T G m1.world.heap
      (do let m ← m1.departHere; return { m with focus := .visiting domain target moved (.call name) })
      (do let m ← m2.departHere
          return { m with focus := .visiting domain target moved (.call name) }) := by
  obtain ⟨⟨w2, t2⟩, focus2, pending2⟩ := m2
  obtain rfl : t2 = m1.thread := ready.state.thread
  unfold departHere
  dsimp only
  split
  · exact .error _
  have parked := ready.modifyDomain m1.thread.current.domain
    (g := (·.park ⟨m1.thread.key, m1.thread.domains.length - 1, m1.thread.window⟩)) (fun _ => rfl)
    fun _ => ⟨rfl, rfl, rfl⟩
  rcases parked.state.alike.leave m1.thread.current.domain m1.thread.key with
    ⟨b, first, second⟩ | ⟨first, second⟩
  · rw [first, second]
    exact .error b
  · have left := parked.modifyDomain m1.thread.current.domain (g := fun d => { d with holder := none })
      (fun _ => rfl) fun _ => ⟨rfl, rfl, rfl⟩
    rw [first, second]
    exact .ok (.refl S G _) nofun ⟨left.state, rfl, left.pending, rfl, left.crewed, ⟨name, rfl⟩,
      by simpa using valid, suits⟩

theorem visit_eq (m : Machine) (target : ObjectId) (args : List Value) (errand : Errand) :
    m.visit target args errand =
      if m.world.settings.domainDepth ≤ m.thread.domains.length then
        .ok (m.raise (.domainStackOverflow m.thread.domains.length))
      else
        match (m.world.findObject? target).bind fun o =>
          m.world.findDomain? (m.world.object o).domain with
        | none => .ok { m with focus := stay errand }
        | some domain =>
          m.after (onHeap (copyAll m.thread.transfer args)) fun m moved => do
            let m ← m.departHere
            return { m with focus := .visiting domain target moved errand } := by
  unfold visit
  dsimp only
  split
  · rfl
  cases (m.world.findObject? target).bind fun o => m.world.findDomain? (m.world.object o).domain with
  | none => rfl
  | some domain =>
    dsimp only
    rw [after_eq]
    rcases onHeap (copyAll m.thread.transfer args) m.toState with
      ⟨_, s⟩ | ⟨_ | _, s⟩ <;> rfl

section

variable (ready : Ready S T G m1 m2)
  (valid : m1.thread.current.domain < m1.world.domains.size)
  (fits : ∀ v ∈ args, m1.toState.here G v) (target : ObjectId)
include ready valid fits target

theorem visit_follows (name : String) :
    Follows S T G m1.world.heap (m1.visit target args (.call name))
      (m2.visit target args (.call name)) := by
  have same : (fun o => m2.world.findDomain? (m2.world.object o).domain) =
      fun o => m1.world.findDomain? (m1.world.object o).domain := by
    funext o
    rw [ready.state.alike.object, ready.state.alike.findDomain?]
  rw [visit_eq, visit_eq, same, ready.state.thread, ready.state.alike.domainDepth,
    ready.state.alike.findObject?, ready.state.transfer]
  split
  · exact raise_follows ready _
  split
  · exact answer_follows ready (suits_of_ref? rfl)
  rename_i domain found
  obtain ⟨o, -, found⟩ := Option.bind_eq_some_iff.mp found
  have known : domain < m1.world.domains.size := ready.state.orderly.keys.get? found
  have clean : ∀ v ∈ args, m1.world.heap.Clean v ∧ v.Avoids G := fun v listed =>
    ⟨ready.state.heap.clean (ready.state.orderly.scratch _ valid) (fits v listed),
      (fits v listed).avoids⟩
  refine after_follows ready (onHeap_couples ready.state
    (copyAll_couples ready.state.heap ready.state.wayList clean)) ?_
  intro moved s1 s2 stays suits ready
  exact departHere_follows ready (stays.firm.domains ▸ known) suits

theorem callOther_follows (name : String) :
    Follows S T G m1.world.heap (m1.callOther target name args)
      (m2.callOther target name args) := by
  unfold callOther
  rw [ready.state.alike.findObject?]
  cases m1.world.findObject? target with
  | none => exact answer_follows ready (suits_of_ref? rfl)
  | some key =>
    dsimp only
    rw [ready.state.alike.object, ready.state.thread, ready.state.alike.id]
    split
    · exact answer_follows ready (suits_of_ref? rfl)
    · split
      · rename_i home
        exact callObject_follows ready valid home name fits
      · exact visit_follows ready valid fits target name

end

theorem request_follows (ready : Ready S T G m1 m2) (manned : m1.Manned)
    (valid : m1.thread.current.domain < m1.world.domains.size)
    (fits : ∀ v ∈ r.args, m1.toState.here G v) :
    Follows S T G m1.world.heap (m1.request r) (m2.request r) := by
  cases r with
  | other target name args => exact callOther_follows ready valid fits target name
  | far component function args => exact callFar_follows ready manned fits component function
  | self name args => exact callSelf_follows ready manned fits name
  | efun name args => exact callEfun_follows ready manned fits name

/-! ### Code and native bodies -/

theorem Ready.running (ready : Ready S T G m1 m2) (top : m1.pending = .frame base :: pending)
    (running : m1.thread.frames = f :: frames) : ∃ c below, m1.toState.Running f c below := by
  have crewed := ready.crewed
  unfold State.Crewed at crewed
  rw [top, running] at crewed
  obtain ⟨c, below, seated, runs, above, -⟩ := crewed.top
  exact ⟨c, below, runs, above, seated⟩

theorem stepCode_follows (ready : Ready S T G m1 m2) (top : m1.pending = .frame f.argsBase :: pending)
    (running : m1.thread.frames = f :: frames) (instrs : Array Instruction) (pc : Nat) :
    Follows S T G m1.world.heap (m1.stepCode f instrs pc) (m2.stepCode f instrs pc) := by
  obtain ⟨c, below, runs⟩ := ready.running top running
  have couples := (companions S T G c below f).instruction_couples
    ⟨runs.seated ▸ ready.state, runs⟩ instrs pc
  refine after_follows ready (runs.seated ▸ couples.ofDuring) ?_
  intro effect s1 s2 stays holds ready
  have runs := runs.stays stays
  have current : s1.thread.current = c := by simp [Thread.current, runs.seated]
  have running : s1.thread.frames = f :: frames := by rw [stays.thread, ← running]
  rw [← current] at holds
  cases effect with
  | next pc =>
    exact .ok (.refl S G _) (fun _ returned => by cases returned)
      ⟨ready.state, rfl, ready.pending, rfl, ready.crewed, _, _, top, running⟩
  | ret v => exact answer_follows ready holds
  | call r target =>
    have crewed := ready.crewed
    unfold State.Crewed at crewed
    rw [top, running] at crewed
    have waiting : Ready S T G ⟨s1, m1.focus, .store f instrs (pc + 1) target :: m1.pending⟩
        ⟨s2, m2.focus, .store f instrs (pc + 1) target :: m2.pending⟩ := by
      refine ⟨ready.state, congrArg (_ :: ·) ready.pending, ?_⟩
      unfold State.Crewed
      rw [top, running]
      exact .store crewed
    refine request_follows waiting (fun g rest top => ?_) (current ▸ runs.runs.houses.domain) holds
    obtain rfl : f = g := (cons.inj (running.symm.trans top)).1
    exact current ▸ runs.runs

section

variable (ready : Ready S T G m1 m2) (top : m1.pending = .frame base :: pending)
include ready top

theorem native_follows (tame : body.Tame known) (fits : ∀ v ∈ known, m1.toState.here G v) :
    Follows S T G m1.world.heap (.ok { m1 with focus := .native body })
      (.ok { m2 with focus := .native body }) :=
  .ok (.refl S G _) nofun
    ⟨ready.state, rfl, ready.pending, rfl, ready.crewed, ⟨base, pending, top⟩, known, tame, fits⟩

theorem stepCommand_follows {next : c.Reply → _} (running : m1.thread.frames = f :: frames)
    (tame : (Native.act c next).Tame known) (fits : ∀ v ∈ known, m1.toState.here G v) :
    Follows S T G m1.world.heap (m1.stepCommand f c next) (m2.stepCommand f c next) := by
  obtain ⟨context, below, runs⟩ := ready.running top running
  have current := current_eq runs.seated
  have twin := runs.seated ▸ ready.state
  have later : ∀ {s1 : State}, m1.toState.Stays S G s1 → s1.thread.current = context :=
    fun stays => by simp [Thread.current, (runs.stays stays).seated]
  cases tame with
  | @args _ next goesOn =>
    have stepped : ∀ m : Machine, m.stepCommand f .args next =
      m.after (stackSlice f.argsBase (f.argsBase + f.argSlots)) fun m reply =>
        .ok { m with focus := .native (next reply) } := fun _ => rfl
    rw [stepped, stepped]
    refine after_follows ready (runs.seated ▸
      ((companions S T G context below f).arguments_couples ⟨twin, runs⟩).ofDuring) ?_
    intro args s1 s2 stays given ready
    refine native_follows ready top (goesOn args) fun v listed => ?_
    rcases mem_append.mp listed with new | old
    · have fits := given.2 v new
      rw [← later stays] at fits
      exact fits
    · exact here_stays (fits v old) stays
  | @thisObject _ next goesOn =>
    have stepped : ∀ m : Machine, m.stepCommand f .thisObject next =
      .ok { m with focus := .native (next (m.world.object f.object).id) } := fun _ => rfl
    rw [stepped, stepped, ready.state.alike.object]
    exact native_follows ready top (goesOn _) fits
  | @heap _ next same goesOn =>
    have stepped : ∀ m : Machine, m.stepCommand f .heap next =
      .ok { m with focus := .native (next m.world.heap) } := fun _ => rfl
    rw [stepped, stepped, same S G _ _ ready.state.heap fun v listed => (fits v listed).avoids]
    exact native_follows ready top (goesOn _) fits
  | @make _ text next goesOn =>
    have stepped : ∀ m : Machine, m.stepCommand f (.make .here (.string text)) next =
      m.after (make .here (.string text)) fun m reply =>
        .ok { m with focus := .native (next reply) } := fun _ => rfl
    rw [stepped, stepped]
    have placed := inDomain_couples twin runs.seated (fun owner => HeapM.place owner (.string text))
      (HeapM.place_couples twin.heap (twin.stocked.lists _ runs.runs.houses.domain) (by rintro v ⟨⟩))
    refine after_follows ready (Q := fun v s => s.world.fits G context.domain v) ?_ ?_
    · rw [runs.seated, Exec.make]
      split
      · exact couples_throw twin _
      · exact placed
    intro made s1 s2 stays given ready
    refine native_follows ready top (goesOn made) fun v listed => ?_
    rcases mem_cons.mp listed with rfl | old
    · rw [← later stays] at given
      exact given
    · exact here_stays (fits v old) stays
  | @output _ text next goesOn =>
    have alike : World.Alike { m1.world with output := text :: m1.world.output }
        { m2.world with output := text :: m2.world.output } :=
      (congrArg (fun w => { w with output := text :: w.output }) ready.state.alike :)
    have firm : m1.world.Firm { m1.world with output := text :: m1.world.output } :=
      { World.Firm.refl _ with }
    have written : Ready S T G
        { m1 with world := { m1.world with output := text :: m1.world.output } }
        { m2 with world := { m2.world with output := text :: m2.world.output } } :=
      ⟨ready.state.withWorld alike firm (fun _ => rfl) rfl rfl, ready.pending,
        ready.crewed.firm firm rfl rfl rfl⟩
    exact native_follows written top goesOn fits

theorem stepNative_follows (tame : body.Tame known) (fits : ∀ v ∈ known, m1.toState.here G v) :
    Follows S T G m1.world.heap (m1.stepNative body) (m2.stepNative body) := by
  cases body with
  | done v =>
    cases tame with
    | done returns =>
      refine answer_follows ready ?_
      rcases returns with listed | scalar
      · exact fits v listed
      · exact suits_of_ref? scalar
  | raise f => exact raise_follows ready f
  | act c next =>
    unfold stepNative
    rw [ready.state.thread]
    cases running : m1.thread.frames with
    | nil => exact raise_follows ready _
    | cons f frames => exact stepCommand_follows ready top running tame fits

end

end Machine

end Tenancy
