import Tenancy.Proofs.Heap.Copied
import Tenancy.Proofs.Machine.Companion
import Tenancy.Proofs.World.Tenants

/-!
Instructions on twin states.

Twin states have the same thread, alike worlds and twin heaps. An instruction of a frame that runs in
a domain reads and makes what is local to that domain only, so it does the same in both states and
leaves them twins.
-/

namespace Tenancy

open List

/-! ### Natives that do the same on twin heaps -/

/-- The body is tame; it knows the values in a list. -/
inductive Native.Tame : List Value → Native Value → Prop where
  | done {known : List Value} {v : Value} (returns : v ∈ known ∨ v.ref? = none) :
      Tame known (.done v)
  | raise {known : List Value} {f : Fault} : Tame known (.raise f)
  | args {known : List Value} {next : List Value → Native Value}
      (goesOn : ∀ args, Tame (args ++ known) (next args)) : Tame known (.act .args next)
  | thisObject {known : List Value} {next : ObjectId → Native Value}
      (goesOn : ∀ id, Tame known (next id)) : Tame known (.act .thisObject next)
  | heap {known : List Value} {next : Heap → Native Value}
      (same : ∀ (S : ListId) (G : Nat → Prop) (h1 h2 : Heap), h1.Twin S G h2 →
        (∀ v ∈ known, v.Avoids G) → next h2 = next h1)
      (goesOn : ∀ h, Tame known (next h)) : Tame known (.act .heap next)
  | make {known : List Value} {text : String} {next : Value → Native Value}
      (goesOn : ∀ v, Tame (v :: known) (next v)) : Tame known (.act (.make .here (.string text)) next)
  | output {known : List Value} {text : String} {next : Unit → Native Value}
      (goesOn : Tame known (next ())) : Tame known (.act (.output text) next)

theorem Native.Tame.disciplined {body : Native Value} (tame : body.Tame known) :
    body.Disciplined := by
  induction tame with
  | done | raise => trivial
  | args _ ih | thisObject _ ih | heap _ _ ih | make _ ih => exact ⟨trivial, ih⟩
  | output _ ih => exact ⟨trivial, fun _ => ih⟩

def Function.Tame (f : Function) : Prop := ∀ body, f.body = .native body → body.Tame []

theorem Function.Tame.disciplined {f : Function} (tame : f.Tame) : f.Disciplined :=
  fun body isNative => (tame body isNative).disciplined

namespace Efun

variable {S : ListId} {G : Nat → Prop} {h1 h2 : Heap} {v : Value}

theorem getD_known (args : List Value) (i : Nat) :
    args.getD i .nil ∈ args ∨ (args.getD i .nil).ref? = none := by
  rw [getD_eq_getElem?_getD]
  cases found : args[i]? with
  | none => exact .inr rfl
  | some v => exact .inl (mem_of_getElem? found)

theorem avoids_getD {args : List Value} (avoids : ∀ v ∈ args, v.Avoids G) (i : Nat) :
    (args.getD i .nil).Avoids G := by
  rcases getD_known args i with listed | scalar
  · exact avoids _ listed
  · exact Value.avoids_of_ref? scalar

theorem sizeOf_tame : sizeOf.Tame [] := by
  have unfolded : sizeOf = .act .args fun args : List Value => .act .heap fun h : Heap =>
      (size? h (args.getD 0 .nil)).elim (.raise .freedValue)
        fun n => .done (.integer (Int64.ofNat n)) := by
    refine congrArg (Native.act Command.args) (funext fun args : List Value =>
      congrArg (Native.act Command.heap) (funext fun h : Heap => ?_))
    dsimp only [Native.bind]
    cases size? h (args.getD 0 .nil) with
    | none => rfl
    | some n => rfl
  rw [unfolded]
  refine .args fun args => .heap (fun S G h1 h2 twin avoids => ?_) fun h => ?_
  · have avoids := avoids_getD (by simpa using avoids) 0
    unfold size?
    rw [twin.text?_eq avoids, twin.bytes?_eq avoids, twin.items?_eq avoids, twin.entries?_eq avoids]
  · cases size? h (args.getD 0 .nil) with
    | none => exact .raise
    | some n => exact .done (.inr rfl)

theorem typeOf_tame : typeOf.Tame [] := .args fun _ => .make fun _ => .done (.inl (.head _))

theorem toText_tame : toText.Tame [] := by
  have unfolded : toText = .act .args fun args : List Value =>
      if (args.getD 0 .nil).type = .payload .string then .done (args.getD 0 .nil)
      else .act .heap fun h : Heap =>
        .act (.make .here (.string (h.text (args.getD 0 .nil)))) .done := rfl
  rw [unfolded]
  refine .args fun args => ?_
  split
  · refine .done ?_
    simpa using getD_known args 0
  · refine .heap (fun S G h1 h2 twin avoids => ?_) fun h => .make fun _ => .done (.inl (.head _))
    rw [twin.text_eq (avoids_getD (by simpa using avoids) 0)]

theorem thisObject_tame : thisObject.Tame [] := .thisObject fun _ => .done (.inr rfl)

theorem print_tame : print.Tame [] := by
  refine .args fun args => .heap (fun S G h1 h2 twin avoids => ?_) fun h => .output (.done (.inr rfl))
  have same : args.map h2.text = args.map h1.text :=
    map_congr_left fun v listed => twin.text_eq (avoids v (by simp [listed]))
  show Native.act _ _ = Native.act _ _
  rw [same]

theorem builtins_tame : ∀ e ∈ builtins, e.1.Tame [] := by
  intro e listed
  simp only [builtins, mem_cons, not_mem_nil, or_false] at listed
  rcases listed with rfl | rfl | rfl | rfl | rfl
  · exact sizeOf_tame
  · exact typeOf_tame
  · exact toText_tame
  · exact thisObject_tame
  · exact print_tame

end Efun

structure World.Tame (w : World) : Prop where
  objects : ∀ o < w.objects.size, (w.object o).program.All Function.Tame
  efuns : ∀ f ∈ w.efuns.functions, f.Tame

theorem World.Tame.firm {w w' : World} (tame : w.Tame) (firm : w.Firm w') : w'.Tame where
  objects o valid := firm.program o ▸ tame.objects o (firm.objects ▸ valid)
  efuns f listed := tame.efuns f (firm.efuns ▸ listed)

/-! ### Twin states -/

open Tenancy.Action Coupling State

/-- The frame runs a function of its object, or an efun, in the domain of the object. -/
structure World.Runs (w : World) (k : DomainKey) (f : Frame) : Prop where
  houses : w.Houses k f.object
  known : (f.program ∈ (w.object f.object).program.components ∧ f.function ∈ f.program.functions)
    ∨ (f.program = Machine.efunProgram ∧ f.function ∈ w.efuns.functions)

namespace World.Runs

variable {w w' : World} {k : DomainKey} {f : Frame} {G : Nat → Prop} {v : Value}

theorem firm (runs : w.Runs k f) (firm : w.Firm w') : w'.Runs k f where
  houses := runs.houses.firm firm
  known := by
    rw [firm.program, firm.efuns]
    exact runs.known

theorem constant (runs : w.Runs k f) (stocked : w.Stocked G) (listed : v ∈ f.program.constants) :
    w.heap.Lasts G v := by
  rcases runs.known with ⟨component, -⟩ | ⟨efun, -⟩
  · refine stocked.literals _ runs.houses.object v (mem_flatMap.mpr ⟨_, component, ?_⟩)
    exact mem_append_left _ listed
  · rw [efun] at listed
    simp [Machine.efunProgram, Program.link] at listed

theorem default (runs : w.Runs k f) (stocked : w.Stocked G) (listed : v ∈ f.function.defaults) :
    w.heap.Lasts G v := by
  rcases runs.known with ⟨component, mem⟩ | ⟨-, efun⟩
  · refine stocked.literals _ runs.houses.object v (mem_flatMap.mpr ⟨_, component, ?_⟩)
    exact mem_append_right _ (mem_flatMap.mpr ⟨_, mem, listed⟩)
  · exact stocked.defaults _ efun v listed

end World.Runs

namespace State

/-- States with one thread, alike worlds and twin heaps. The values in play belong where they are;
`contexts` are those of the windows on the stack. -/
structure Twin (S T : ListId) (G : Nat → Prop) (contexts : List DomainContext) (s1 s2 : State) :
    Prop where
  thread : s2.thread = s1.thread
  scratch : s1.thread.scratch = S
  transfer : s1.thread.transfer = T
  alike : s1.world.Alike s2.world
  heap : s1.world.heap.Twin S G s2.world.heap
  orderly : s1.world.Orderly S T
  stocked : s1.world.Stocked G
  tame : s1.world.Tame
  ownList : S.number < s1.world.heap.lists.size
  wayList : T.number < s1.world.heap.lists.size
  home : s1.thread.home < s1.world.domains.size
  tiled : Tiled (s1.world.fits G) s1.thread.stack contexts s1.thread.stack.size

/-- What a frame does on its own leaves everything where it is. -/
structure Stays (S : ListId) (G : Nat → Prop) (s s' : State) : Prop where
  firm : s.world.Firm s'.world
  heap : s.world.heap.Respects S G s'.world.heap
  thread : s'.thread = { s.thread with stack := s'.thread.stack }
  size : s'.thread.stack.size = s.thread.stack.size

variable {S T : ListId} {G : Nat → Prop} {contexts below : List DomainContext} {c : DomainContext}
  {s s' s'' s1 s2 : State} {k : DomainKey} {v : Value}

theorem Stays.trans (first : s.Stays S G s') (second : s'.Stays S G s'') : s.Stays S G s'' where
  firm := first.firm.trans second.firm
  heap := first.heap.trans second.heap
  thread := by rw [second.thread, first.thread]
  size := second.size.trans first.size

theorem Stays.fits (stays : s.Stays S G s') (fits : s.world.fits G k v) : s'.world.fits G k v := by
  unfold World.fits at *
  rw [stays.firm.values]
  exact fits.keep stays.heap.toKeeps

structure Running (f : Frame) (c : DomainContext) (below : List DomainContext) (s : State) :
    Prop where
  runs : s.world.Runs c.domain f
  above : f.Above c.start
  seated : s.thread.domains = c :: below

theorem Running.owner_eq (running : s.Running f c below) :
    s.owner = (s.world.domain c.domain).values := by
  simp [owner, Thread.current, running.seated]

theorem Running.above_of_spans (running : s.Running f c below) (spans : f.Spans i) : c.start ≤ i :=
  spans.elim (fun args => running.above.args.trans args.1)
    fun locals => running.above.locals.trans locals.1

theorem Running.stays (running : s.Running f c below) (stays : s.Stays S G s') :
    s'.Running f c below where
  runs := running.runs.firm stays.firm
  above := running.above
  seated := by rw [stays.thread, ← running.seated]

def coupling (S T : ListId) (G : Nat → Prop) (contexts : List DomainContext) : Coupling State where
  Related := Twin S T G contexts
  Leads := Stays S G
  refl _ := ⟨.refl _, .refl S G _, rfl, rfl⟩
  trans := .trans

theorem Twin.withHeap (twin : Twin S T G contexts s1 s2) (heap : h1.Twin S G h2)
    (keeps : s1.world.heap.Keeps h1) :
    Twin S T G contexts { s1 with world := { s1.world with heap := h1 } }
      { s2 with world := { s2.world with heap := h2 } } where
  thread := twin.thread
  scratch := twin.scratch
  transfer := twin.transfer
  alike := twin.alike
  heap := heap
  orderly := twin.orderly.firm (.withHeap _ _)
  stocked := twin.stocked.keep (.withHeap _ _) (fun _ => rfl) keeps
  tame := twin.tame.firm (.withHeap _ _)
  ownList := twin.ownList.trans_le keeps.lists
  wayList := twin.wayList.trans_le keeps.lists
  home := twin.home
  tiled := twin.tiled.mono fun _ _ fits => fits.keep keeps

/-- The worlds change alike, and nobody moves. -/
theorem Twin.withWorld (twin : Twin S T G contexts s1 s2) (alike : w1.Alike w2)
    (firm : s1.world.Firm w1) (members : ∀ o, (w1.object o).members = (s1.world.object o).members)
    (first : w1.heap = s1.world.heap) (second : w2.heap = s2.world.heap) :
    Twin S T G contexts { s1 with world := w1 } { s2 with world := w2 } where
  thread := twin.thread
  scratch := twin.scratch
  transfer := twin.transfer
  alike := alike
  heap := by rw [first, second]; exact twin.heap
  orderly := twin.orderly.firm firm
  stocked := twin.stocked.keep firm members (by rw [first]; exact .refl _)
  tame := twin.tame.firm firm
  ownList := first ▸ twin.ownList
  wayList := first ▸ twin.wayList
  home := firm.domains ▸ twin.home
  tiled := twin.tiled.mono fun k v fits => by
    unfold World.fits at *
    rw [firm.values, first]
    exact fits

theorem Twin.modifyDomain (twin : Twin S T G contexts s1 s2) (k : DomainKey)
    (commutes : ∀ d, (f d).skeleton = f d.skeleton)
    (kept : ∀ d, (f d).id = d.id ∧ (f d).values = d.values ∧ (f d).members = d.members) :
    Twin S T G contexts { s1 with world := s1.world.modifyDomain k f }
      { s2 with world := s2.world.modifyDomain k f } :=
  twin.withWorld (twin.alike.modifyDomain k commutes) (.modifyDomain _ k kept) (fun _ => rfl) rfl rfl

/-- What stands in the window of the top context. -/
theorem Twin.fits_of_slot (twin : Twin S T G (c :: below) s1 s2) (above : c.start ≤ index)
    (found : s1.thread.stack[index]? = some v) : s1.world.fits G c.domain v :=
  twin.tiled.2.1 index v above (Array.getElem?_eq_some_iff.mp found).1 found

theorem Twin.setSlot (twin : Twin S T G (c :: below) s1 s2) (above : c.start ≤ i)
    (fits : s1.world.fits G c.domain v) :
    Twin S T G (c :: below) (s1.setSlot i v) (s2.setSlot i v) ∧ s1.Stays S G (s1.setSlot i v) := by
  refine ⟨{ twin with thread := ?_, tiled := ?_ }, .refl _, .refl S G _, rfl, ?_⟩
  · unfold State.setSlot
    rw [twin.thread]
  · refine twin.tiled.renew (by simpa [State.setSlot] using twin.tiled.1) (fun j before => ?_)
      fun j u low high found => ?_
    · rw [getElem?_setSlot, if_neg (by omega)]
    · rw [getElem?_setSlot] at found
      split at found
      · split at found
        · cases found
          exact fits
        · simp at found
      · exact twin.fits_of_slot low found
  · exact Array.size_setIfInBounds

theorem Twin.putMember (twin : Twin S T G contexts s1 s2) (houses : s1.world.Houses k object)
    (slot : Nat) (fits : s1.world.fits G k v) :
    Twin S T G contexts { s1 with world := s1.world.putMember object slot v }
        { s2 with world := s2.world.putMember object slot v } ∧
      s1.Stays S G { s1 with world := s1.world.putMember object slot v } := by
  have firm : s1.world.Firm (s1.world.putMember object slot v) :=
    .modifyObject _ _ fun _ => ⟨rfl, rfl⟩
  refine ⟨?_, firm, .refl S G _, rfl, rfl⟩
  exact { twin with
    alike := (congrArg (World.putMember · object slot v) twin.alike :)
    orderly := twin.orderly.firm firm
    stocked := twin.stocked.setMember twin.orderly houses fits slot
    tame := twin.tame.firm firm
    tiled := twin.tiled }

theorem Twin.lifts (twin : Twin S T G contexts s1 s2) :
    (Heap.coupling S G).Lifts (coupling S T G contexts) s1 s2 := fun _ _ heap respects =>
  ⟨twin.withHeap heap respects.toKeeps, .withHeap _ _, respects, rfl, rfl⟩

end State

namespace Exec

variable {S T : ListId} {G : Nat → Prop} {contexts below : List DomainContext} {c : DomainContext}
  {s1 s2 : State} {k : DomainKey} {v : Value} {α : Type}

theorem onHeap_couples (twin : Twin S T G contexts s1 s2)
    (couples : (Heap.coupling S G).Couples s1.world.heap s2.world.heap Q act act) :
    (coupling S T G contexts).Couples s1 s2 (fun a s => Q a s.world.heap) (onHeap act)
      (onHeap act) :=
  (twin.lifts.onHeap couples).mono fun _ _ _ result => result.1

theorem inDomain_couples (twin : Twin S T G (c :: below) s1 s2)
    (seated : s1.thread.domains = c :: below) (act : ListId → HeapM Value)
    (couples : (Heap.coupling S G).Couples s1.world.heap s2.world.heap
      (fun v h => h.Suits G (s1.world.domain c.domain).values v)
      (act (s1.world.domain c.domain).values) (act (s1.world.domain c.domain).values)) :
    (coupling S T G (c :: below)).Couples s1 s2 (fun v s => s.world.fits G c.domain v)
      (inDomain act) (inDomain act) := by
  have first : s1.owner = (s1.world.domain c.domain).values := by
    simp [owner, Thread.current, seated]
  have second : s2.owner = (s1.world.domain c.domain).values := by
    simp [owner, Thread.current, twin.thread, seated, twin.alike.values]
  unfold Couples
  rw [inDomain_apply, inDomain_apply, first, second]
  refine Meets.mono (onHeap_couples twin couples) fun v s stays suits => ?_
  unfold World.fits
  rw [stays.firm.values]
  exact suits

end Exec

/-- A frame that runs in a domain uses what is local to that domain. -/
def State.companions (S T : ListId) (G : Nat → Prop) (c : DomainContext) (below : List DomainContext)
    (f : Frame) : Companions f f where
  toCoupling := (coupling S T G (c :: below)).during (·.Running f c below)
  G
  kin l := Heap.kinship S l G
  Fits s v := s.world.fits G c.domain v
  scalar := Heap.suits_of_ref?
  keep stays fits := stays.fits fits
  same := rfl
  constant both listed := (both.2.runs.constant both.1.stocked listed).suits _
  default both listed := (both.2.runs.default both.1.stocked listed).suits _
  stack both := .inl (congrArg (·.stack.size) both.1.thread)
  slot both spans :=
    ⟨by rw [both.1.thread], fun _ => both.1.fits_of_slot (both.2.above_of_spans spans)⟩
  setSlot both spans fits := by
    obtain ⟨twin, stays⟩ := both.1.setSlot (both.2.above_of_spans spans) fits
    exact ⟨⟨twin, both.2.stays stays⟩, stays⟩
  field both _ := ⟨by rw [both.1.alike.object], fun v found =>
    both.1.stocked.storage _ _ both.2.runs.houses v (Array.mem_of_getElem? found)⟩
  setField both _ fits := by
    obtain ⟨twin, stays⟩ := both.1.putMember both.2.runs.houses _ fits
    exact ⟨⟨twin, both.2.stays stays⟩, stays⟩
  owner both := by
    simp [owner, Thread.current, both.1.thread, both.1.alike.values]
  valid both := by
    rw [both.2.owner_eq]
    exact both.1.stocked.lists _ both.2.runs.houses.domain
  heap both := both.1.heap
  deep both := by
    rw [both.2.owner_eq]
    exact fun twin => twin.child (both.1.orderly.scratch _ both.2.runs.houses.domain)
  fits both := by
    rw [both.2.owner_eq]
    rfl
  lifts both _ _ heap respects := by
    obtain ⟨twin, stays⟩ := both.1.lifts _ _ heap respects
    exact ⟨⟨twin, both.2.stays stays⟩, stays⟩

end Tenancy
