import Mathlib.Logic.Relation
import Tenancy.Heap.Draft
import Tenancy.Proofs.Heap.Collection

/-!
Heaps that come about.

A heap changes by a few operations, which are listed here once. Each of them keeps it consistent and
leaves no owned payload without contents, so this holds of every heap that they lead to.
-/

namespace Tenancy

open Option Heap

/-- Whether hashing the value keeps a digest at a payload. -/
def Value.keepsDigest : Value → Nat → Bool
  | .ref ⟨.string, id⟩, i | .ref ⟨.buffer, id⟩, i => id == i
  | _, _ => false

def Aspect.exempted (exemption : Exemption) (a : Aspect) : Aspect :=
  match exemption with
  | .constant => { a with constant := true }
  | .shared => { a with shared := true }

namespace Heap

variable {h h' : Heap} {l : ListId} {id : Nat}

theorem aspect?_write (h : Heap) (id : Nat) (payload : Payload) (i : Nat) :
    (h.write id payload).aspect? i = (h.aspect? i).map fun a =>
      if i = id then { a with payload := some payload, digest := none } else a := by
  rw [write_eq]
  exact aspect?_modifyCell h id i fun _ => rfl

theorem payload?_write (h : Heap) (id i : Nat) (payload : Payload) :
    (h.write id payload).payload? i =
      if i = id ∧ i < h.cells.size then some payload else h.payload? i := by
  rw [payload?_eq, aspect?_write, payload?_eq]
  by_cases within : i < h.cells.size
  · obtain ⟨a, seen⟩ := isSome_iff_exists.mp (aspect?_isSome.mpr within)
    by_cases here : i = id
    · subst here
      simp [seen, within]
    · simp [seen, here]
  · rw [aspect?_eq_none.mpr (by omega)]
    simp [within]

/-- A payload that is written holds what has been written into it. -/
theorem holds_of_write
    (held : (h.write id payload).Holds i v) : i = id ∧ payload.Holds v ∨ h.Holds i v := by
  obtain ⟨p, found, held⟩ := held
  rw [payload?_write] at found
  split at found
  · cases found
    exact .inl ⟨And.left ‹_›, held⟩
  · exact .inr ⟨p, found, held⟩

theorem Consistent.write (sane : h.Consistent) (id : Nat) (payload : Payload) :
    (h.write id payload).Consistent := by
  rw [write_eq]
  exact sane.modifyCell id ⟨fun _ => rfl, fun _ => rfl⟩

theorem aspect?_forgetDigest (h : Heap) (id i : Nat) :
    (h.forgetDigest id).aspect? i =
      (h.aspect? i).map fun a => if i = id then { a with digest := none } else a :=
  aspect?_modifyCell h id i fun _ => rfl

theorem payload?_forgetDigest (h : Heap) (id i : Nat) :
    (h.forgetDigest id).payload? i = h.payload? i := by
  rw [payload?_eq, payload?_eq, aspect?_forgetDigest]
  cases h.aspect? i with
  | none => rfl
  | some a =>
    simp only [map_some, bind_some]
    split <;> rfl

theorem aspect?_note (h : Heap) (v : Value) (i : Nat) :
    (h.note v).aspect? i = (h.aspect? i).map fun a =>
      if v.keepsDigest i then { a with digest := some (h.digest v) } else a := by
  have noted : ∀ id d, (h.modifyCell id fun c => { c with digest := some d }).aspect? i =
      (h.aspect? i).map fun a => if i = id then { a with digest := some d } else a :=
    fun id d => aspect?_modifyCell h id i fun _ => rfl
  rcases v with _ | _ | _ | _ | ⟨kind, id⟩
  case ref =>
    cases kind <;> simp [note, keepDigest, Value.keepsDigest, noted, eq_comm (a := i)]
  all_goals simp [note, keepDigest, Value.keepsDigest]

theorem payload?_note (h : Heap) (v : Value) (i : Nat) : (h.note v).payload? i = h.payload? i := by
  rw [payload?_eq, payload?_eq, aspect?_note]
  cases h.aspect? i with
  | none => rfl
  | some a =>
    simp only [map_some, bind_some]
    split <;> rfl

theorem constant_note (h : Heap) (v : Value) (i : Nat) : (h.note v).constant i = h.constant i := by
  rw [constant_eq, constant_eq, aspect?_note]
  cases h.aspect? i with
  | none => rfl
  | some a =>
    simp only [map_some, any_some]
    split <;> rfl

theorem lists_note (h : Heap) (v : Value) : (h.note v).lists = h.lists := by
  unfold note keepDigest
  split <;> rfl

theorem Consistent.note (sane : h.Consistent) (v : Value) : (h.note v).Consistent := by
  unfold Heap.note keepDigest
  split
  · exact sane.modifyCell _ ⟨fun _ => rfl, fun _ => rfl⟩
  · exact sane.modifyCell _ ⟨fun _ => rfl, fun _ => rfl⟩
  · exact sane

theorem aspect?_exempted (h : Heap) (id : Nat) (exemption : Exemption) (i : Nat) :
    (h.modifyCell id (exempted exemption)).aspect? i =
      (h.aspect? i).map fun a => if i = id then a.exempted exemption else a := by
  apply aspect?_modifyCell
  intro c
  cases exemption <;> rfl

theorem Consistent.exempted (sane : h.Consistent) (unbound : h.binding? id = none)
    (exemption : Exemption) : (h.modifyCell id (exempted exemption)).Consistent := by
  have bindings : ∀ c, (Heap.exempted exemption c).binding = c.binding := by
    intro c
    cases exemption <;> rfl
  refine sane.congr (fun _ => rfl) (fun i => binding?_modifyCell h id i bindings) ?_
  intro i exempt
  by_cases same : i = id
  · exact .inr (same ▸ unbound)
  · exact .inl (by simpa [unowned, Ne.symm same] using exempt)

/-- What the list owns is given up by vacating its slot; all else is left as it is. -/
theorem unbind_cases (h : Heap) (l : ListId) (id : Nat) :
    (h.unbind l id).2 = h ∨ ∃ b, h.binding? id = some b ∧ b.list = l ∧
      (h.unbind l id).2 = (h.modifyCell id fun c => { c with binding := none }).modifyList l
        (·.vacate b.slot) := by
  unfold unbind
  split
  · rename_i b owned bound
    refine .inr ⟨b, bound, ?_, rfl⟩
    simp only [owns, bound, Bool.and_eq_true, beq_iff_eq] at owned
    exact owned.1
  · exact .inl rfl

theorem aspect?_unbind (h : Heap) (l : ListId) (id i : Nat) :
    (h.unbind l id).2.aspect? i = h.aspect? i ∨
      (h.unbind l id).2.aspect? i = (h.aspect? i).map fun a => { a with owner := none } := by
  rcases h.unbind_cases l id with same | ⟨b, -, -, given⟩
  · exact .inl (by rw [same])
  · rw [given, aspect?_modifyList, aspect?_modifyCell _ _ _
      (g := fun a => { a with owner := none }) (by exact fun _ => rfl)]
    by_cases here : i = id
    · exact .inr (by simp [here])
    · exact .inl (by simp [here])

theorem Consistent.unbind (sane : h.Consistent) (l : ListId) (id : Nat) :
    (h.unbind l id).2.Consistent := by
  rcases h.unbind_cases l id with same | ⟨b, bound, rfl, given⟩
  · rwa [same]
  rw [given]
  have found := sane.occupied bound
  have valid := sane.list_valid bound
  generalize result : modifyList _ b.list (·.vacate b.slot) = h'
  have newList : h'.list b.list = (h.list b.list).vacate b.slot := by
    rw [← result, list_modifyList (by simpa using valid), list_modifyCell]
  have oldList : ∀ other, other ≠ b.list → h'.list other = h.list other := by
    intro other ne
    rw [← result, list_modifyList_of_ne ne, list_modifyCell]
  have bindings : ∀ i, h'.binding? i = if i = id then none else h.binding? i := by
    intro i
    rw [← result, binding?, cells_modifyList, getElem?_modifyCell, binding?]
    by_cases here : i = id
    · subst here
      cases h.cells[i]? <;> simp
    · simp [here, Ne.symm here]
  refine ⟨fun other => ?_, fun {other slot generation i} held => ?_, fun {i c} holds => ?_,
    fun {i} exempt => ?_⟩
  · by_cases same : other = b.list
    · rw [same, newList]
      exact (sane.tidy _).vacate found
    · rw [oldList other same]
      exact sane.tidy other
  · -- The vacated slot has no occupant, and no other slot has this payload.
    have before : (h.list other).slots[slot]? = some ⟨generation, some i⟩ ∧
        ¬ (other = b.list ∧ slot = b.slot) := by
      by_cases same : other = b.list
      · rw [same, newList, ValueList.getElem?_vacate] at held
        by_cases here : b.slot = slot
        · rw [if_pos here, ← here, found] at held
          simp [vacated] at held
        · rw [if_neg here] at held
          exact ⟨same ▸ held, fun both => here both.2.symm⟩
      · rw [oldList other same] at held
        exact ⟨held, fun both => same both.1⟩
    have binding := sane.bound before.1
    rw [bindings, if_neg, binding]
    rintro rfl
    rw [bound] at binding
    have same := some.inj binding
    exact before.2 (by simp [same])
  · rw [bindings] at holds
    by_cases here : i = id
    · simp [here] at holds
    · rw [if_neg here] at holds
      have held := sane.occupied holds
      by_cases same : c.list = b.list
      · rw [same] at held
        rw [same, newList, ValueList.getElem?_vacate, if_neg]
        · exact held
        · intro slots
          rw [← slots, found] at held
          simp [Ne.symm here] at held
      · rw [oldList _ same]
        exact held
  · rw [bindings]
    split
    · rfl
    · rename_i here
      apply sane.exempt
      simpa [← result, unowned, Ne.symm here] using exempt

inductive Change : Heap → Heap → Prop where
  | create (h : Heap) (payload : Payload) (constant shared : Bool) :
      Change h (h.create payload constant shared).2
  | newList (h : Heap) : Change h h.newList.2
  | adopt {h : Heap} {l : ListId} {id : Nat} (valid : l.number < h.lists.size)
      (live : h.live id = true) : Change h (h.adopt l id)
  | bind {h h' : Heap} {l : ListId} {id : Nat} (valid : l.number < h.lists.size)
      (live : h.live id = true) (bound : h.bind l id = .ok h') : Change h h'
  | unbind (h : Heap) (l : ListId) (id : Nat) : Change h (h.unbind l id).2
  | takeAll (h : Heap) (l : ListId) : Change h (h.takeAll l).2
  | append {h : Heap} {target : ListId} (valid : target.number < h.lists.size)
      (source : ListId) : Change h (h.append target source)
  | freeAll (h : Heap) (l : ListId) : Change h (h.freeAll l)
  | resetAllocated (h : Heap) (l : ListId) : Change h (h.resetAllocated l)
  | exempt {h h' : Heap} {id : Nat} {exemption : Exemption}
      (exempted : h.exempt id exemption = .ok h') : Change h h'
  | write (h : Heap) (id : Nat) (payload : Payload) : Change h (h.write id payload)
  | note (h : Heap) (v : Value) : Change h (h.note v)
  | forgetDigest (h : Heap) (id : Nat) : Change h (h.forgetDigest id)
  | record (h : Heap) (stage : Stage) (b : Buffer) : Change h (h.record stage b)
  | collect (h : Heap) (l : ListId) (roots : List Value) : Change h (h.collect l roots).2

abbrev Changes : Heap → Heap → Prop := Relation.ReflTransGen Change

def Possible (h : Heap) : Prop := Changes {} h

/-- A consistent heap in which owned payloads are live. -/
structure Sound (h : Heap) : Prop where
  consistent : h.Consistent
  live : ∀ {i : Nat} {a : Aspect}, h.aspect? i = some a → a.owner.isSome → a.payload.isSome

theorem Sound.of_aspect? {f : Nat → Aspect → Aspect} (sound : h.Sound)
    (sane : h'.Consistent) (seen : ∀ i, h'.aspect? i = (h.aspect? i).map (f i))
    (kept : ∀ i a, (a.owner.isSome → a.payload.isSome) →
      (f i a).owner.isSome → (f i a).payload.isSome) : h'.Sound where
  consistent := sane
  live {i a} found owned := by
    rw [seen] at found
    obtain ⟨b, before, rfl⟩ := map_eq_some_iff.mp found
    exact kept i b (sound.live before) owned

theorem sound_empty : Sound {} := ⟨consistent_empty, by simp [aspect?]⟩

theorem live_eq (h : Heap) (id : Nat) :
    h.live id = (h.aspect? id).any fun a => a.payload.isSome := by
  rw [live, payload?_eq]
  cases h.aspect? id <;> rfl

theorem within_of_live (live : h.live id = true) : id < h.cells.size := by
  rw [← aspect?_isSome]
  rw [live_eq] at live
  cases seen : h.aspect? id <;> simp_all

theorem Sound.create (sound : h.Sound) (payload : Payload) (constant shared : Bool) :
    (h.create payload constant shared).2.Sound := by
  refine ⟨sound.consistent.create payload constant shared, fun {i a} seen owned => ?_⟩
  rw [aspect?_create] at seen
  split at seen
  · cases seen
    simp at owned
  · exact sound.live seen owned

theorem Sound.newList (sound : h.Sound) : h.newList.2.Sound :=
  ⟨sound.consistent.newList, fun {i _} seen => sound.live (i := i) seen⟩

theorem Sound.adopt (sound : h.Sound) (valid : l.number < h.lists.size)
    (live : h.live id = true) : (h.adopt l id).Sound := by
  refine ⟨sound.consistent.adopt valid (within_of_live live), fun {i a} seen owned => ?_⟩
  rw [aspect?_adopt] at seen
  obtain ⟨b, before, rfl⟩ := map_eq_some_iff.mp seen
  by_cases same : i = id
  · subst same
    rw [live_eq, before] at live
    rw [if_pos rfl, Aspect.adopted]
    split <;> exact live
  · rw [if_neg same] at owned ⊢
    exact sound.live before owned

/-- Binding adopts, where it does not refuse. -/
theorem eq_adopt_of_bind (bound : h.bind l id = .ok h') : h' = h.adopt l id := by
  unfold bind at bound
  unfold adopt
  split at bound
  · simp_all
  · split at bound
    · simp_all
    · split at bound
      · simp_all
      · simp at bound

section

variable (sound : h.Sound)
include sound

theorem Sound.takeAll (l : ListId) : (h.takeAll l).2.Sound :=
  sound.of_aspect? (sound.consistent.takeAll l) (sound.consistent.aspect?_takeAll l)
    fun _ a live owned => by
      unfold Aspect.released at *
      split at owned
      · simp at owned
      · rw [if_neg ‹_›]
        exact live owned

theorem Sound.append {target : ListId} (valid : target.number < h.lists.size)
    (source : ListId) : (h.append target source).Sound :=
  sound.of_aspect? (sound.consistent.append valid source)
    (sound.consistent.aspect?_append target source) fun _ a live owned => by
      unfold Aspect.moved at *
      split
      · exact live (by simp [*])
      · rw [if_neg ‹_›] at owned
        exact live owned

theorem Sound.freeAll (l : ListId) : (h.freeAll l).Sound :=
  sound.of_aspect? (sound.consistent.freeAll l) (sound.consistent.aspect?_freeAll l)
    fun _ a live owned => by
      unfold Aspect.cleared at *
      split at owned
      · simp [Aspect.freed] at owned
      · rw [if_neg ‹_›]
        exact live owned

theorem Sound.collect (l : ListId) (roots : List Value) : (h.collect l roots).2.Sound := by
  classical
  refine sound.of_aspect? (sound.consistent.collect l roots)
    (fun i => sound.consistent.aspect?_collect l roots i) fun i a live owned => ?_
  split at owned
  · simp [Aspect.freed] at owned
  · rw [if_neg ‹_›]
    exact live owned

end

/-- Each operation keeps a heap sound. -/
theorem Change.sound (change : Change h h') (sound : h.Sound) : h'.Sound := by
  cases change with
  | create payload constant shared => exact sound.create payload constant shared
  | newList => exact sound.newList
  | adopt valid live => exact sound.adopt valid live
  | bind valid live bound =>
    rw [eq_adopt_of_bind bound]
    exact sound.adopt valid live
  | unbind l id =>
    refine ⟨sound.consistent.unbind l id, fun {i a} seen owned => ?_⟩
    rcases h.aspect?_unbind l id i with same | given
    · exact sound.live (same ▸ seen) owned
    · rw [given] at seen
      obtain ⟨b, -, rfl⟩ := map_eq_some_iff.mp seen
      simp at owned
  | takeAll l => exact sound.takeAll l
  | append valid source => exact sound.append valid source
  | freeAll l => exact sound.freeAll l
  | resetAllocated l =>
    exact ⟨sound.consistent.resetAllocated l, fun {i _} seen => sound.live (i := i) seen⟩
  | @exempt _ id exemption allowed =>
    unfold Heap.exempt at allowed
    split at allowed
    · simp at allowed
    · rename_i unbound
      cases allowed
      refine sound.of_aspect? (sound.consistent.exempted (by simpa using unbound) exemption)
        (aspect?_exempted h id exemption) fun i a live owned => ?_
      cases exemption <;> split at owned <;> simp_all [Aspect.exempted]
  | write id payload =>
    refine sound.of_aspect? (sound.consistent.write id payload) (aspect?_write h id payload)
      fun i a live owned => ?_
    split at owned <;> simp_all
  | note v =>
    refine sound.of_aspect? (sound.consistent.note v) (aspect?_note h v) fun i a live owned => ?_
    split at owned <;> simp_all
  | forgetDigest id =>
    refine sound.of_aspect? (sound.consistent.modifyCell id ⟨fun _ => rfl, fun _ => rfl⟩)
      (aspect?_forgetDigest h id) fun i a live owned => ?_
    split at owned <;> simp_all
  | record stage b =>
    refine ⟨sound.consistent.congr (fun _ => by simp [list]) (fun _ => by simp [binding?])
      fun _ exempt => .inl (by simpa [unowned] using exempt), fun {i _} seen => ?_⟩
    exact sound.live (i := i) (by simpa using seen)
  | collect l roots => exact sound.collect l roots

theorem Change.size_le (change : Change h h') (sound : h.Sound) :
    h.cells.size ≤ h'.cells.size ∧ h.lists.size ≤ h'.lists.size := by
  cases change with
  | create payload constant shared => simp [Heap.create]
  | newList => simp [Heap.newList]
  | bind valid live bound => simp [eq_adopt_of_bind bound]
  | unbind l id => rcases h.unbind_cases l id with same | ⟨_, -, -, given⟩ <;> simp [*]
  | @exempt _ id exemption allowed =>
    unfold Heap.exempt at allowed
    split at allowed
    · simp at allowed
    · cases allowed
      simp
  | note v =>
    unfold Heap.note keepDigest
    split <;> simp
  | collect l roots =>
    simp [sound.consistent.size_cells_collect l roots, sound.consistent.size_lists_collect l roots]
  | adopt | takeAll | append | freeAll | record => simp
  | resetAllocated => simp [Heap.resetAllocated]
  | write => simp [write_eq]
  | forgetDigest => simp [Heap.forgetDigest]

theorem Changes.sound (changes : Changes h h') (sound : h.Sound) : h'.Sound := by
  induction changes with
  | refl => exact sound
  | tail _ change ih => exact change.sound ih

theorem Changes.size_le (changes : Changes h h') (sound : h.Sound) :
    h.cells.size ≤ h'.cells.size ∧ h.lists.size ≤ h'.lists.size := by
  induction changes with
  | refl => exact ⟨le_rfl, le_rfl⟩
  | tail before change ih =>
    have grown := change.size_le (Changes.sound before sound)
    exact ⟨ih.1.trans grown.1, ih.2.trans grown.2⟩

theorem Possible.sound (possible : h.Possible) : h.Sound := Changes.sound possible sound_empty

end Heap

/-! ### Digests that are kept -/

/-- A scalar, or a reference to one of the first `n` payloads. -/
def Value.Within (n : Nat) (v : Value) : Prop := ∀ r, v = .ref r → r.id < n

theorem Value.Within.mono {v : Value} (within : v.Within n) (less : n ≤ m) :
    v.Within m := fun r same => (within r same).trans_le less

/-- What the digest of a string or a buffer is found to be. -/
def Payload.digest : Payload → Digest
  | .string text => Heap.digestBytes text.toUTF8.toList
  | .buffer b => Heap.digestBytes b.bytes
  | _ => .spent

namespace Aspect

/-- The digest of a string or a buffer, kept or found anew. -/
def hash (x : Aspect) : Digest := x.digest.getD (x.payload.elim .spent Payload.digest)

/-- A live payload has the digest that would be found. -/
def UpToDate (x : Aspect) : Prop := ∀ p, x.payload = some p → x.hash = p.digest

theorem UpToDate.of_freed (x : Aspect) : x.freed.UpToDate := by
  simp [UpToDate, freed]

theorem UpToDate.of_forgotten {x : Aspect} (forgotten : x.digest = none) : x.UpToDate := by
  intro p payload
  simp [hash, forgotten, payload]

end Aspect

namespace Heap

variable {h h' : Heap} {id : Nat} {v : Value}

/-- No digest is kept at a live payload but the one that it would have now. -/
def UpToDate (h : Heap) : Prop := ∀ i x, h.aspect? i = some x → x.UpToDate

theorem digest_ref (kind : r.kind = .string ∨ r.kind = .buffer) :
    h.digest (.ref r) = (h.aspect? r.id).elim .spent Aspect.hash := by
  have looked : h.digest (.ref r) =
      ((h.aspect? r.id).bind Aspect.digest).getD (h.freshDigest r.id) := by
    rw [← digest_cell_eq]
    obtain ⟨k, id⟩ := r
    rcases kind with rfl | rfl <;> rfl
  have fresh : h.freshDigest r.id = (h.payload? r.id).elim .spent Payload.digest := by
    unfold freshDigest
    cases h.payload? r.id with
    | none => rfl
    | some p => cases p <;> rfl
  rw [looked, fresh, payload?_eq]
  cases h.aspect? r.id <;> rfl

theorem digest_congr (same : ∀ r, v = .ref r →
    (h'.aspect? r.id).elim .spent Aspect.hash = (h.aspect? r.id).elim .spent Aspect.hash) :
    h'.digest v = h.digest v := by
  cases v with
  | ref r =>
    by_cases kind : r.kind = .string ∨ r.kind = .buffer
    · rw [digest_ref kind, digest_ref kind, same r rfl]
    · obtain ⟨k, id⟩ := r
      cases k <;> first | rfl | simp at kind
  | nil | integer _ | real _ | object _ => rfl

theorem UpToDate.digest_eq (upToDate : h.UpToDate) (kind : r.kind = .string ∨ r.kind = .buffer)
    (found : h.payload? r.id = some p) : h.digest (.ref r) = p.digest := by
  rw [payload?_eq] at found
  obtain ⟨x, seen, payload⟩ := bind_eq_some_iff.mp found
  rw [digest_ref kind, seen]
  exact upToDate r.id x seen p payload

theorem hash_note {i : Nat} {x : Aspect} (seen : h.aspect? i = some x) (keeps : v.keepsDigest i) :
    h.digest v = x.hash := by
  unfold Value.keepsDigest at keeps
  split at keeps <;> simp only [beq_iff_eq, Bool.false_eq_true] at keeps <;> subst keeps
  · rw [digest_ref (.inl rfl), seen]
    rfl
  · rw [digest_ref (.inr rfl), seen]
    rfl

theorem digest_note (h : Heap) (v w : Value) : (h.note v).digest w = h.digest w := by
  refine digest_congr fun r _ => ?_
  rw [aspect?_note]
  cases seen : h.aspect? r.id with
  | none => rfl
  | some x =>
    simp only [map_some, elim_some]
    split
    · rename_i keeps
      exact hash_note seen keeps
    · rfl

theorem UpToDate.digest_write (upToDate : h.UpToDate)
    (found : h.payload? id = some old) (spent : old.digest = .spent) (spent' : new.digest = .spent)
    (w : Value) : (h.write id new).digest w = h.digest w := by
  refine digest_congr fun r _ => ?_
  rw [aspect?_write]
  cases seen : h.aspect? r.id with
  | none => rfl
  | some x =>
    simp only [map_some, elim_some]
    split
    · rename_i here
      have payload : x.payload = some old := by
        rw [← here, payload?_eq, seen] at found
        exact found
      rw [upToDate r.id x seen old payload, spent]
      exact spent'
    · rfl

theorem UpToDate.of_aspect? {f : Nat → Aspect → Aspect} (upToDate : h.UpToDate)
    (seen : ∀ i, h'.aspect? i = (h.aspect? i).map (f i))
    (kept : ∀ i x, h.aspect? i = some x → x.UpToDate → (f i x).UpToDate) : h'.UpToDate := by
  intro i y found
  rw [seen] at found
  obtain ⟨x, before, rfl⟩ := map_eq_some_iff.mp found
  exact kept i x before (upToDate i x before)

section

variable (upToDate : h.UpToDate)
include upToDate

theorem UpToDate.note (v : Value) : (h.note v).UpToDate := by
  refine upToDate.of_aspect? (aspect?_note h v) fun i x seen current => ?_
  split
  · rename_i keeps
    exact fun p payload => (hash_note seen keeps).trans (current p payload)
  · exact current

theorem UpToDate.write (id : Nat) (payload : Payload) : (h.write id payload).UpToDate := by
  refine upToDate.of_aspect? (aspect?_write h id payload) fun i x _ current => ?_
  split
  · exact .of_forgotten rfl
  · exact current

theorem UpToDate.create (payload : Payload) (constant shared : Bool) :
    (h.create payload constant shared).2.UpToDate := by
  intro i x seen
  rw [aspect?_create] at seen
  split at seen
  · cases seen
    exact .of_forgotten rfl
  · exact upToDate i x seen

theorem UpToDate.adopt (l : ListId) (id : Nat) : (h.adopt l id).UpToDate := by
  refine upToDate.of_aspect? (aspect?_adopt h l id) fun i x _ current => ?_
  unfold Aspect.adopted
  split
  · split <;> exact current
  · exact current

end

theorem Change.upToDate (change : Change h h') (sane : h.Consistent)
    (upToDate : h.UpToDate) : h'.UpToDate := by
  classical
  cases change with
  | create payload constant shared => exact upToDate.create payload constant shared
  | newList => exact upToDate
  | @adopt l id => exact upToDate.adopt l id
  | @bind _ l id valid live bound =>
    rw [eq_adopt_of_bind bound]
    exact upToDate.adopt l id
  | unbind l id =>
    intro i x seen
    rcases h.aspect?_unbind l id i with same | given
    · exact upToDate i x (same ▸ seen)
    · rw [given] at seen
      obtain ⟨y, before, rfl⟩ := map_eq_some_iff.mp seen
      exact upToDate i y before
  | takeAll l =>
    refine upToDate.of_aspect? (sane.aspect?_takeAll l) fun i x _ current => ?_
    unfold Aspect.released
    split <;> exact current
  | @append target valid source =>
    refine upToDate.of_aspect? (sane.aspect?_append target source) fun i x _ current => ?_
    unfold Aspect.moved
    split <;> exact current
  | freeAll l =>
    refine upToDate.of_aspect? (sane.aspect?_freeAll l) fun i x _ current => ?_
    unfold Aspect.cleared
    split
    · exact .of_freed x
    · exact current
  | resetAllocated l => exact upToDate
  | @exempt _ id exemption allowed =>
    unfold Heap.exempt at allowed
    split at allowed
    · simp at allowed
    · cases allowed
      refine upToDate.of_aspect? (aspect?_exempted h id exemption) fun i x _ current => ?_
      split
      · cases exemption <;> exact current
      · exact current
  | write id payload => exact upToDate.write id payload
  | note v => exact upToDate.note v
  | forgetDigest id =>
    refine upToDate.of_aspect? (aspect?_forgetDigest h id) fun i x _ current => ?_
    split
    · exact .of_forgotten rfl
    · exact current
  | record stage b => exact fun i x seen => upToDate i x (by simpa using seen)
  | collect l roots =>
    refine upToDate.of_aspect? (fun i => sane.aspect?_collect l roots i) fun i x _ current => ?_
    split
    · exact .of_freed x
    · exact current

theorem Changes.upToDate (changes : Changes h h') (sound : h.Sound) (upToDate : h.UpToDate) :
    h'.UpToDate := by
  induction changes with
  | refl => exact upToDate
  | tail before change ih => exact change.upToDate (Changes.sound before sound).consistent ih

theorem Possible.upToDate (possible : h.Possible) : h.UpToDate :=
  Changes.upToDate possible sound_empty (by simp [UpToDate, aspect?])

end Heap

end Tenancy
