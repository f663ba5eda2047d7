import Tenancy.Proofs.Machine.Mirror

/-!
What code of a frame can get at.

A frame has slots on the stack, the storage of its component, and the literals of its program. Code
of the frame comes by the payloads that these lead to and by no others. Instructions do the same in
states that differ in anything else, and they leave everything else as it is.
-/

namespace Tenancy

open Array

/-! ### Payloads out of reach -/

namespace Heap

variable {G : Nat → Prop} {l : ListId} {h h' h'' h1 h2 h1' h2' : Heap} {v : Value}

theorem ref_of_keepsDigest (keeps : v.keepsDigest i = true) : ∃ r, v = .ref r ∧ r.id = i := by
  unfold Value.keepsDigest at keeps
  split at keeps
  · exact ⟨_, rfl, eq_of_beq keeps⟩
  · exact ⟨_, rfl, eq_of_beq keeps⟩
  · simp at keeps

/-- Heaps that agree but for payloads in `G`, which no other payload holds. -/
structure Veiled (G : Nat → Prop) (h1 h2 : Heap) : Prop extends Agree G h1 h2 where
  within : ∀ id, G id → id < h1.cells.size
  closed : ∀ id v, ¬ G id → h1.Holds id v → v.Avoids G

/-- Payloads in `G` are as they were, and so are all lists but `l`. -/
structure Leaves (G : Nat → Prop) (l : ListId) (h h' : Heap) : Prop where
  cells : h.cells.size ≤ h'.cells.size
  lists : h'.lists.size = h.lists.size
  payloads : ∀ id, G id → h'.aspect? id = h.aspect? id
  others : ∀ other, other ≠ l → h'.list other = h.list other

namespace Leaves

theorem refl (G : Nat → Prop) (l : ListId) (h : Heap) : h.Leaves G l h :=
  ⟨le_rfl, rfl, fun _ _ => rfl, fun _ _ => rfl⟩

theorem trans (first : h.Leaves G l h') (second : h'.Leaves G l h'') : h.Leaves G l h'' where
  cells := first.cells.trans second.cells
  lists := second.lists.trans first.lists
  payloads id veiled := (second.payloads id veiled).trans (first.payloads id veiled)
  others other ne := (second.others other ne).trans (first.others other ne)

theorem mapped {f : Nat → Aspect → Aspect} (seen : ∀ i, h'.aspect? i = (h.aspect? i).map (f i))
    (lists : h'.lists = h.lists) (same : ∀ i a, G i → f i a = a) : h.Leaves G l h' where
  cells := (size_eq_of_mapped seen).ge
  lists := congrArg size lists
  payloads id veiled := by
    rw [seen]
    cases h.aspect? id with
    | none => rfl
    | some a => exact congrArg some (same id a veiled)
  others other _ := by
    unfold list
    rw [lists]

theorem place (within : ∀ id, G id → id < h.cells.size) (payload : Payload) :
    h.Leaves G l (h.place l payload).2 where
  cells := (extended_place h l payload).cells ▸ Nat.le_succ _
  lists := (extended_place h l payload).lists
  payloads id veiled := (extended_place h l payload).aspect?_old (within id veiled).ne
  others _ ne := list_place_of_ne ne payload

end Leaves

theorem Veiled.mapped {f : Nat → Aspect → Aspect} (veiled : Veiled G h1 h2)
    (seen : ∀ i, h1'.aspect? i = (h1.aspect? i).map (f i))
    (seenToo : ∀ i, h2'.aspect? i = (h2.aspect? i).map (f i))
    (holds : ∀ i v, h1'.Holds i v → h1.Holds i v ∨ v.Avoids G) : Veiled G h1' h2' where
  cells := by rw [size_eq_of_mapped seen, size_eq_of_mapped seenToo, veiled.cells]
  agree id kept := by rw [seen, seenToo, veiled.agree id kept]
  within id inG := size_eq_of_mapped seen ▸ veiled.within id inG
  closed id v kept held := (holds id v held).elim (veiled.closed id v kept) fun avoids => avoids

theorem Veiled.place (veiled : Veiled G h1 h2) {payload : Payload}
    (holds : ∀ v, payload.Holds v → v.Avoids G) :
    Veiled G (h1.place l payload).2 (h2.place l payload).2 := by
  have more := extended_place h1 l payload
  have moreToo := extended_place h2 l payload
  constructor
  · constructor
    · rw [more.cells, moreToo.cells, veiled.cells]
    · intro id kept
      rw [more.seen, moreToo.seen, veiled.cells, veiled.agree id kept]
  · intro id inG
    rw [more.cells]
    exact Nat.lt_succ_of_lt (veiled.within id inG)
  · intro id v kept held
    by_cases new : id = h1.cells.size
    · subst new
      obtain ⟨p, isPayload, held⟩ := more.holds_new.mp held
      cases isPayload
      exact holds v held
    · exact veiled.closed id v kept ((more.holds_old new).mp held)

/-- Code uses values that refer to no payload in `G`. -/
def veiling (G : Nat → Prop) (l : ListId) : Kinship G l where
  Related := Veiled G
  Leads := Leaves G l
  refl := .refl G l
  trans := .trans
  Fits _ v := v.Avoids G
  agree veiled := veiled.toAgree
  closed veiled kept held := veiled.closed _ _ kept held
  avoids fits := fits
  scalar := Value.avoids_of_ref?
  keep _ fits := fits
  place {h1 _ payload} veiled _ holds := by
    refine ⟨veiled.place holds, .place veiled.within payload, ?_⟩
    rintro r same inG
    cases same
    exact Nat.lt_irrefl _ (veiled.within _ inG)
  write {_ _ r} payload veiled fits holds := by
    refine ⟨veiled.mapped (aspect?_write _ _ _) (aspect?_write _ _ _) fun i v held => ?_,
      .mapped (aspect?_write _ _ _) rfl fun i a inG => if_neg ?_⟩
    · rcases holds_of_write held with ⟨rfl, new⟩ | before
      · exact (holds v new).imp_right And.right
      · exact .inl before
    · rintro rfl
      exact fits r rfl inG
  note {h1 h2 v} veiled avoids := by
    have seenToo := aspect?_note h2 v
    rw [veiled.digest_eq avoids] at seenToo
    refine ⟨veiled.mapped (aspect?_note h1 v) seenToo fun i u held => .inl ?_,
      .mapped (aspect?_note h1 v) (lists_note h1 v) fun i a inG => if_neg ?_⟩
    · unfold Holds at *
      rwa [payload?_note] at held
    · intro keeps
      obtain ⟨r, same, rfl⟩ := ref_of_keepsDigest keeps
      exact avoids r same inG
  forgetDigest {h1 _ r} veiled fits := by
    refine ⟨veiled.mapped (aspect?_forgetDigest _ _) (aspect?_forgetDigest _ _) fun i u held => .inl ?_,
      .mapped (aspect?_forgetDigest _ _) rfl fun i a inG => if_neg ?_⟩
    · unfold Holds at *
      rwa [payload?_forgetDigest] at held
    · rintro rfl
      exact fits r rfl inG

end Heap

/-! ### Frames -/

open Tenancy.Action Coupling World State

namespace Frame

/-- The slots of the frame on the stack, for arguments and for locals. -/
def Slot (f : Frame) (i : Nat) : Prop :=
  f.argsBase ≤ i ∧ i < f.argsBase + f.argSlots ∨ f.localsBase ≤ i ∧ i < f.localsBase + f.localCount

/-- The slots in the storage of its object for the variables of its component. -/
def Field (f : Frame) (x : Nat) : Prop := f.memberOffset ≤ x ∧ x < f.memberOffset + f.memberCount

/-- The values that code of the frame begins with; it may have been given some. -/
inductive Names (f : Frame) (given : List Value) (s : State) : Value → Prop where
  | slot {i : Nat} {v : Value} (own : f.Slot i) (found : s.thread.stack[i]? = some v) :
      Names f given s v
  | field {x : Nat} {v : Value} (own : f.Field x)
      (found : (s.world.object f.object).members[x]? = some v) : Names f given s v
  | constant {v : Value} (listed : v ∈ f.program.constants) : Names f given s v
  | default {v : Value} (listed : v ∈ f.function.defaults) : Names f given s v
  | given {v : Value} (listed : v ∈ given) : Names f given s v

/-- A payload that code of the frame can get at. -/
def Reaches (f : Frame) (given : List Value) (s : State) (id : Nat) : Prop :=
  ∃ v, f.Names given s v ∧ s.world.heap.Accessible v id

def Misses (f : Frame) (given : List Value) (s : State) (id : Nat) : Prop :=
  id < s.world.heap.cells.size ∧ ¬ f.Reaches given s id

/-- States that are the same in all that code of the frame can get at. New payloads are numbered
alike in both, and belong to the same list. -/
structure Alike (f : Frame) (given : List Value) (s1 s2 : State) : Prop where
  window : f.localsBase + f.localCount ≤ s2.thread.stack.size
  slots : ∀ i, f.Slot i → s2.thread.stack[i]? = s1.thread.stack[i]?
  fields : ∀ x, f.Field x →
    (s2.world.object f.object).members[x]? = (s1.world.object f.object).members[x]?
  payloads : ∀ id, f.Reaches given s1 id → s2.world.heap.aspect? id = s1.world.heap.aspect? id
  cells : s2.world.heap.cells.size = s1.world.heap.cells.size
  owner : s2.owner = s1.owner

/-- Slots and fields of the frame may have changed, payloads that are not in `G`, and the list `l` of
new payloads. All else is as it was. -/
structure Alters (f : Frame) (G : Nat → Prop) (l : ListId) (s s' : State) : Prop where
  thread : s'.thread = { s.thread with stack := s'.thread.stack }
  size : s'.thread.stack.size = s.thread.stack.size
  slots : ∀ i, ¬ f.Slot i → s'.thread.stack[i]? = s.thread.stack[i]?
  rest : s'.world.rest = s.world.rest
  objects : s'.world.objects.size = s.world.objects.size
  fields : s.world.Confined f.object f.Field s'.world
  heap : s.world.heap.Leaves G l s'.world.heap

/-- Nothing has changed but what code of the frame can get at. -/
def Touches (f : Frame) (given : List Value) (s s' : State) : Prop :=
  f.Alters (f.Misses given s) s.owner s s'

end Frame

def Effect.handed : Effect → List Value
  | .next _ => []
  | .ret v => [v]
  | .call request _ => request.args

/-- One action has ended in the same way in two states, and what it has left behind and handed on is
the same to code of the frame. -/
inductive Frame.Same (f : Frame) :
    EStateM.Result Trouble State Effect → EStateM.Result Trouble State Effect → Prop where
  | ok {e : Effect} {t1 t2 : State} (alike : f.Alike e.handed t1 t2) : Same f (.ok e t1) (.ok e t2)
  | error {trouble : Trouble} {t1 t2 : State} (alike : f.Alike [] t1 t2) :
      Same f (.error trouble t1) (.error trouble t2)

/-- In a state, the action writes and reads only what code of the frame can get at. -/
structure Frame.Confines (f : Frame) (given : List Value) (s : State) (act : Exec Effect) : Prop where
  writes : f.Touches given s (left (act s))
  reads : ∀ s', f.Alike given s s' → f.Same (act s) (act s')

theorem World.Confined.trans {start w w' : World} (first : start.Confined key slots w)
    (second : w.Confined key slots w') : start.Confined key slots w' where
  shell k := by rw [second.shell, first.shell]
  others k other := (second.others k other).trans (first.others k other)
  kept x closed := (second.kept x closed).trans (first.kept x closed)

namespace Frame.Alters

variable {f : Frame} {G : Nat → Prop} {l : ListId} {s s' s'' : State}

theorem refl (f : Frame) (G : Nat → Prop) (l : ListId) (s : State) : f.Alters G l s s :=
  ⟨rfl, rfl, fun _ _ => rfl, rfl, rfl, .refl _ _ _, .refl G l _⟩

theorem trans (first : f.Alters G l s s') (second : f.Alters G l s' s'') : f.Alters G l s s'' where
  thread := by rw [second.thread, first.thread]
  size := second.size.trans first.size
  slots i other := (second.slots i other).trans (first.slots i other)
  rest := second.rest.trans first.rest
  objects := second.objects.trans first.objects
  fields := first.fields.trans second.fields
  heap := first.heap.trans second.heap

theorem setSlot (own : f.Slot i) (v : Value) : f.Alters G l s (s.setSlot i v) :=
  { refl f G l s with
    thread := rfl
    size := size_setIfInBounds
    slots := fun j other => getElem?_setIfInBounds_ne (by rintro rfl; exact other own) }

theorem putMember (own : f.Field x) (v : Value) :
    f.Alters G l s { s with world := s.world.putMember f.object x v } :=
  { refl f G l s with
    objects := by simp [World.putMember, World.modifyObject]
    fields := (World.Confined.refl _ _ _).putMember x v own }

end Frame.Alters

/-- States that differ only in what code of the frame cannot get at. -/
structure State.Veiled (f : Frame) (G : Nat → Prop) (l : ListId) (s1 s2 : State) : Prop where
  first : f.Lies s1.thread.stack.size
  second : f.Lies s2.thread.stack.size
  slots : ∀ i, f.Slot i → s2.thread.stack[i]? = s1.thread.stack[i]?
  fields : ∀ x, f.Field x →
    (s2.world.object f.object).members[x]? = (s1.world.object f.object).members[x]?
  held : ∀ i v, f.Slot i → s1.thread.stack[i]? = some v → v.Avoids G
  stored : ∀ x v, f.Field x → (s1.world.object f.object).members[x]? = some v → v.Avoids G
  heap : s1.world.heap.Veiled G s2.world.heap
  owner : s1.owner = l
  ownerToo : s2.owner = l
  valid : l.number < s1.world.heap.lists.size

def State.veiling (f : Frame) (G : Nat → Prop) (l : ListId) : Coupling State where
  Related := Veiled f G l
  Leads := f.Alters G l
  refl := .refl f G l
  trans := .trans

namespace State.Veiled

variable {f : Frame} {G : Nat → Prop} {l : ListId} {s1 s2 : State} {v : Value} {i : Nat}

section

variable (veiled : Veiled f G l s1 s2)
include veiled

theorem withHeap (heap : h1.Veiled G h2) (leaves : s1.world.heap.Leaves G l h1) :
    Veiled f G l { s1 with world := { s1.world with heap := h1 } }
      { s2 with world := { s2.world with heap := h2 } } :=
  { veiled with
    heap
    fields := veiled.fields
    stored := veiled.stored
    owner := veiled.owner
    ownerToo := veiled.ownerToo
    valid := leaves.lists ▸ veiled.valid }

theorem slot_of_spans (spans : f.Spans i) : f.Slot i := by
  have given := veiled.first.given
  unfold Frame.Spans at spans
  unfold Frame.Slot
  omega

theorem there (own : f.Slot i) : i < s1.thread.stack.size ∧ i < s2.thread.stack.size := by
  have locals := veiled.first.locals
  have fits := veiled.first.fits
  have fitsToo := veiled.second.fits
  unfold Frame.Slot at own
  omega

theorem setSlot (own : f.Slot i) (avoids : v.Avoids G) :
    Veiled f G l (s1.setSlot i v) (s2.setSlot i v) := by
  obtain ⟨first, second⟩ := veiled.there own
  refine { veiled with
    first := veiled.first.grow size_setIfInBounds.ge
    second := veiled.second.grow size_setIfInBounds.ge
    slots := fun j other => ?_
    held := fun j u other found => ?_ }
  · rw [getElem?_setSlot, getElem?_setSlot, if_pos second, if_pos first, veiled.slots j other]
  · rw [getElem?_setSlot, if_pos first] at found
    split at found
    · cases found
      exact avoids
    · exact veiled.held j u other found

theorem within_iff (own : f.Field x) :
    x < (s2.world.object f.object).members.size ↔ x < (s1.world.object f.object).members.size := by
  have same := congrArg Option.isSome (veiled.fields x own)
  rw [Bool.eq_iff_iff] at same
  simpa using same

theorem putMember (own : f.Field x) (avoids : v.Avoids G) :
    Veiled f G l { s1 with world := s1.world.putMember f.object x v }
      { s2 with world := s2.world.putMember f.object x v } := by
  refine { veiled with
    fields := fun y other => ?_
    stored := fun y u other found => ?_
    heap := veiled.heap
    owner := veiled.owner
    ownerToo := veiled.ownerToo
    valid := veiled.valid }
  · rw [object_putMember, object_putMember, getElem?_setIfInBounds,
      getElem?_setIfInBounds, veiled.fields y other]
    simp only [veiled.within_iff own]
  · rw [object_putMember, getElem?_setIfInBounds] at found
    split at found
    · split at found
      · cases found
        exact avoids
      · simp at found
    · exact veiled.stored y u other found

end

end State.Veiled

/-- Code of a frame whose literals refer to no payload in `G`. -/
def State.veiledPair {f : Frame} {G : Nat → Prop} (constants : ∀ v ∈ f.program.constants, v.Avoids G)
    (defaults : ∀ v ∈ f.function.defaults, v.Avoids G) (l : ListId) : Companions f f where
  toCoupling := veiling f G l
  G
  kin := Heap.veiling G
  Fits _ v := v.Avoids G
  scalar := Value.avoids_of_ref?
  keep _ fits := fits
  same := rfl
  constant _ listed := constants _ listed
  default _ listed := defaults _ listed
  stack veiled := .inr ⟨veiled.first, veiled.second⟩
  slot veiled spans := by
    have own := veiled.slot_of_spans spans
    exact ⟨veiled.slots _ own, fun v => veiled.held _ v own⟩
  setSlot veiled spans fits := by
    have own := veiled.slot_of_spans spans
    exact ⟨veiled.setSlot own fits, .setSlot own _⟩
  field veiled within := by
    have own : f.Field (f.memberOffset + _) := ⟨Nat.le_add_right _ _, Nat.add_lt_add_left within _⟩
    exact ⟨veiled.fields _ own, fun v => veiled.stored _ v own⟩
  setField veiled within fits := by
    have own : f.Field (f.memberOffset + _) := ⟨Nat.le_add_right _ _, Nat.add_lt_add_left within _⟩
    exact ⟨veiled.putMember own fits, .putMember own _⟩
  owner veiled := veiled.ownerToo.trans veiled.owner.symm
  valid veiled := by
    rw [veiled.owner]
    exact veiled.valid
  heap veiled := veiled.heap
  deep _ := fun veiled fits held => veiled.closed _ _ (fits _ rfl) held
  fits _ := Iff.rfl
  lifts veiled _ _ heap leaves := by
    rw [veiled.owner] at leaves
    exact ⟨veiled.withHeap heap leaves,
      { Frame.Alters.refl f G l _ with fields := (Confined.refl _ _ _).congr rfl, heap := leaves }⟩

theorem Effect.holds_iff {e : Effect} : e.Holds p ↔ ∀ v ∈ e.handed, p v := by
  cases e with
  | next => simp [Effect.Holds, Effect.handed]
  | ret v => simp [Effect.Holds, Effect.handed]
  | call request target => rfl

namespace Frame

variable {f : Frame} {G : Nat → Prop} {l : ListId} {given : List Value} {s s1 s2 : State} {v : Value}

theorem Names.avoids (names : f.Names given s v) : v.Avoids (f.Misses given s) := by
  rintro r rfl missed
  exact missed.2 ⟨_, names, .here rfl⟩

theorem avoids_of_holds {id : Nat} (kept : ¬ f.Misses given s id) (held : s.world.heap.Holds id v) :
    v.Avoids (f.Misses given s) := by
  have reached : f.Reaches given s id := by
    by_contra missed
    exact kept ⟨Heap.within_of_holds held, missed⟩
  obtain ⟨u, names, accessible⟩ := reached
  rintro r rfl missed
  exact missed.2 ⟨u, names, .within accessible held⟩

theorem Alike.veiled (alike : f.Alike given s1 s2) (lies : f.Lies s1.thread.stack.size)
    (valid : s1.owner.number < s1.world.heap.lists.size) :
    Veiled f (f.Misses given s1) s1.owner s1 s2 where
  first := lies
  second := { lies with fits := alike.window }
  slots := alike.slots
  fields := alike.fields
  held _ _ own found := (Names.slot own found).avoids
  stored _ _ own found := (Names.field own found).avoids
  heap.cells := alike.cells
  heap.agree id kept := by
    by_cases within : id < s1.world.heap.cells.size
    · exact alike.payloads id (by_contra fun missed => kept ⟨within, missed⟩)
    · rw [Heap.aspect?_eq_none.mpr (Nat.not_lt.mp within),
        Heap.aspect?_eq_none.mpr (alike.cells ▸ Nat.not_lt.mp within)]
  heap.within _ missed := missed.1
  heap.closed _ _ kept held := avoids_of_holds kept held
  owner := rfl
  ownerToo := alike.owner
  valid := valid

theorem alike_of_veiled (veiled : Veiled f G l s1 s2)
    (constants : ∀ v ∈ f.program.constants, v.Avoids G)
    (defaults : ∀ v ∈ f.function.defaults, v.Avoids G) (handed : ∀ v ∈ given, v.Avoids G) :
    f.Alike given s1 s2 where
  window := veiled.second.fits
  slots := veiled.slots
  fields := veiled.fields
  payloads id reached := by
    obtain ⟨v, names, accessible⟩ := reached
    have avoids : v.Avoids G := by
      cases names with
      | slot own found => exact veiled.held _ v own found
      | field own found => exact veiled.stored _ v own found
      | constant listed => exact constants v listed
      | default listed => exact defaults v listed
      | given listed => exact handed v listed
    exact veiled.heap.agree id (Heap.kept_of_accessible veiled.heap.closed avoids accessible)
  cells := veiled.heap.cells
  owner := veiled.ownerToo.trans veiled.owner.symm

section

variable (lies : f.Lies s.thread.stack.size) (valid : s.owner.number < s.world.heap.lists.size)
include lies valid

theorem confines_of_couples (couples : ∀ s', Veiled f (f.Misses given s) s.owner s s' →
      (veiling f (f.Misses given s) s.owner).Couples s s'
        (fun e _ => e.Holds (·.Avoids (f.Misses given s))) act act) : f.Confines given s act := by
  constructor
  · have alike : f.Alike given s s :=
      ⟨lies.fits, fun _ _ => rfl, fun _ _ => rfl, fun _ _ => rfl, rfl, rfl⟩
    have meets := couples s (alike.veiled lies valid)
    unfold Couples at meets
    generalize act s = r at meets ⊢
    cases meets with
    | ok _ alters _ | error _ alters => exact alters
  · intro s' alike
    have meets := couples s' (alike.veiled lies valid)
    have literals : ∀ {given' : List Value} {t1 t2 : State},
        Veiled f (f.Misses given s) s.owner t1 t2 →
        (∀ v ∈ given', v.Avoids (f.Misses given s)) → f.Alike given' t1 t2 :=
      fun veiled handed => alike_of_veiled veiled (fun _ listed => (Names.constant listed).avoids)
        (fun _ listed => (Names.default listed).avoids) handed
    unfold Couples at meets
    generalize act s = r at meets ⊢
    generalize act s' = r' at meets ⊢
    cases meets with
    | ok veiled _ handed => exact .ok (literals veiled (Effect.holds_iff.mp handed))
    | error veiled _ => exact .error (literals veiled (by simp))

theorem instruction_confines (instrs : Array Instruction) (pc : Nat) :
    f.Confines [] s (Exec.instruction f instrs pc) :=
  confines_of_couples lies valid fun _ veiled =>
    (veiledPair (fun _ listed => (Names.constant listed).avoids)
      (fun _ listed => (Names.default listed).avoids) s.owner).instruction_couples veiled instrs pc

theorem store_confines (target : Operand) (v : Value) (pc : Nat) :
    f.Confines [v] s (do Exec.write f target v; return .next pc) := by
  have given : v.Avoids (f.Misses [v] s) := Names.avoids (.given (.head _))
  refine confines_of_couples lies valid fun s' veiled => ?_
  exact (veiledPair (fun _ listed => (Names.constant listed).avoids)
    (fun _ listed => (Names.default listed).avoids) s.owner).store_couples veiled given target pc

end

end Frame

end Tenancy
