import Tenancy.Proofs.Heap.Change

/-!
What values belong to.

A value is steady when all that it leads to is constant. It is local to a list when it is steady or
when the list owns its payload. Lists are guarded, save for one that the host draws from; payloads of
guarded lists are inside, all others outside. These notions last while payloads keep their owners and
constant payloads keep what they hold.
-/

namespace Tenancy

def Value.Avoids (G : Nat → Prop) (v : Value) : Prop := ∀ r, v = .ref r → ¬ G r.id

theorem Value.avoids_of_ref? {v : Value} (scalar : v.ref? = none) : v.Avoids G := by
  rintro r rfl
  simp [Value.ref?] at scalar

namespace Heap

variable {h h' : Heap} {l S : ListId} {v u : Value} {id : Nat} {r : Ref}

inductive Accessible (h : Heap) (v : Value) : Nat → Prop where
  | here {r : Ref} : v = .ref r → Accessible h v r.id
  | within {id : Nat} {r : Ref} : Accessible h v id → h.Holds id (.ref r) → Accessible h v r.id

theorem not_accessible (scalar : v.ref? = none) : ¬ h.Accessible v id := by
  intro accessible
  induction accessible with
  | here same => simp [same, Value.ref?] at scalar
  | within _ _ ih => exact ih

/-- What leads out of a set of payloads never leads into it. -/
theorem kept_of_accessible (closed : ∀ id v, ¬ G id → h.Holds id v → v.Avoids G)
    (avoids : v.Avoids G) (accessible : h.Accessible v id) : ¬ G id := by
  induction accessible with
  | here same => exact avoids _ same
  | within _ held ih => exact closed _ _ ih held _ rfl

theorem Accessible.trans (first : h.Accessible v r.id)
    (second : h.Accessible (.ref r) other) : h.Accessible v other := by
  induction second with
  | here same =>
    cases same
    exact first
  | within _ held ih => exact .within ih held

theorem within_of_holds (held : h.Holds id v) : id < h.cells.size := by
  obtain ⟨p, found, -⟩ := held
  exact within_of_live (by simp [live, found])

theorem within_of_accessible (accessible : h.Accessible (.ref r) other)
    (within : other < h.cells.size) : r.id < h.cells.size := by
  induction accessible with
  | here same =>
    cases same
    exact within
  | within _ held ih => exact ih (within_of_holds held)

theorem Accessible.child (held : h.Holds r.id u) (accessible : h.Accessible u id) :
    h.Accessible (.ref r) id := by
  cases u with
  | ref s => exact .trans (.within (.here rfl) held) accessible
  | nil | integer _ | real _ | object _ => exact absurd accessible (not_accessible rfl)

/-- All that the value leads to is constant. -/
def Steady (h : Heap) (v : Value) : Prop := ∀ id, h.Accessible v id → h.constant id = true

theorem Steady.constant (steady : h.Steady (.ref r)) : h.constant r.id = true :=
  steady r.id (.here rfl)

theorem Steady.child (steady : h.Steady (.ref r)) (held : h.Holds r.id u) :
    h.Steady u := fun id accessible => steady id (.child held accessible)

/-- The value is steady, or the list owns its payload. -/
def Local (h : Heap) (l : ListId) (v : Value) : Prop :=
  h.Steady v ∨ ∃ r, v = .ref r ∧ h.owner? r.id = some l

/-- A payload of a list other than the one that the host draws from. -/
def Guarded (h : Heap) (S : ListId) (id : Nat) : Prop := ∃ l, h.owner? id = some l ∧ l ≠ S

/-- The value has no payload, or one that is not guarded. -/
def Outside (h : Heap) (S : ListId) (v : Value) : Prop :=
  ∀ r, v = .ref r → r.id < h.cells.size ∧ ¬ h.Guarded S r.id

/-- Nothing outside leads inside, save for payloads in a set. -/
def Sealed (h : Heap) (S : ListId) (G : Nat → Prop) : Prop :=
  ∀ id v, ¬ G id → ¬ h.Guarded S id → h.Holds id v → h.Outside S v

/-- The value leads to payloads only. Those that nobody may own are constant, and constant ones hold
constant ones. -/
def Clean (h : Heap) (v : Value) : Prop :=
  ∀ id, h.Accessible v id → ∃ a, h.aspect? id = some a ∧ (a.unowned = true → a.constant = true) ∧
    (a.constant = true → ∀ r, h.Holds id (.ref r) → h.constant r.id = true)

theorem Clean.steady (clean : h.Clean (.ref r)) (unowned : h.unowned r.id = true) :
    h.Steady (.ref r) := by
  intro id accessible
  induction accessible with
  | here same =>
    cases same
    obtain ⟨a, seen, constant, -⟩ := clean r.id (.here rfl)
    rw [unowned_eq, seen] at unowned
    rw [constant_eq, seen]
    exact constant unowned
  | within reached held ih =>
    obtain ⟨a, seen, -, children⟩ := clean _ reached
    rw [constant_eq, seen] at ih
    exact children ih _ held

theorem within_of_constant (constant : h.constant id = true) : id < h.cells.size := by
  rw [← aspect?_isSome]
  rw [constant_eq] at constant
  cases seen : h.aspect? id <;> simp_all

theorem within_of_unowned (exempt : h.unowned id = true) : id < h.cells.size := by
  by_contra outside
  simp [unowned, Array.getElem?_eq_none (Nat.le_of_not_lt outside)] at exempt

theorem within_of_owner? (owned : h.owner? id = some l) : id < h.cells.size := by
  rw [← aspect?_isSome]
  rw [owner?_eq] at owned
  cases seen : h.aspect? id <;> simp_all

theorem Consistent.owner?_of_constant (sane : h.Consistent) (constant : h.constant id = true) :
    h.owner? id = none := by
  cases owned : h.owner? id with
  | none => rfl
  | some l =>
    have ownable := sane.not_unowned owned
    rw [unowned_eq] at ownable
    rw [constant_eq] at constant
    cases seen : h.aspect? id <;> simp_all [Aspect.unowned]

theorem Local.outside (isLocal : h.Local S v) (sane : h.Consistent) : h.Outside S v := by
  rcases isLocal with steady | ⟨r, rfl, owned⟩
  · rintro r rfl
    refine ⟨within_of_constant steady.constant, ?_⟩
    rintro ⟨l, owned, -⟩
    rw [sane.owner?_of_constant steady.constant] at owned
    simp at owned
  · rintro s same
    cases same
    refine ⟨within_of_owner? owned, ?_⟩
    rintro ⟨l, also, guarded⟩
    exact guarded (Option.some.inj (also.symm.trans owned))

/-- Payloads keep their owners, and constant ones keep what they hold. -/
structure Keeps (h h' : Heap) : Prop where
  cells : h.cells.size ≤ h'.cells.size
  lists : h.lists.size ≤ h'.lists.size
  owner : ∀ id < h.cells.size, h'.owner? id = h.owner? id
  constant : ∀ id < h.cells.size, h'.constant id = h.constant id
  fixed : ∀ id v, h.constant id = true → h'.Holds id v → h.Holds id v

theorem Keeps.refl (h : Heap) : h.Keeps h :=
  ⟨le_rfl, le_rfl, fun _ _ => rfl, fun _ _ => rfl, fun _ _ _ held => held⟩

theorem Keeps.trans (first : h.Keeps h') (second : h'.Keeps h'') : h.Keeps h'' where
  cells := first.cells.trans second.cells
  lists := first.lists.trans second.lists
  owner id within :=
    (second.owner id (within.trans_le first.cells)).trans (first.owner id within)
  constant id within :=
    (second.constant id (within.trans_le first.cells)).trans (first.constant id within)
  fixed id v constant held := by
    have still := (first.constant id (within_of_constant constant)).trans constant
    exact first.fixed id v constant (second.fixed id v still held)

theorem Steady.of_fixed (steady : h.Steady v)
    (constant : ∀ id, h.constant id = true → h'.constant id = true)
    (fixed : ∀ id v, h.constant id = true → h'.Holds id v → h.Holds id v) : h'.Steady v := by
  intro id accessible
  have before : h.Accessible v id := by
    induction accessible with
    | here same => exact .here same
    | within _ held ih => exact .within ih (fixed _ _ (steady _ ih) held)
  exact constant id (steady id before)

theorem Steady.keep (steady : h.Steady v) (keeps : h.Keeps h') : h'.Steady v :=
  steady.of_fixed (fun id isConstant =>
    (keeps.constant id (within_of_constant isConstant)).trans isConstant) keeps.fixed

theorem Local.keep (isLocal : h.Local l v) (keeps : h.Keeps h') : h'.Local l v := by
  rcases isLocal with steady | ⟨r, rfl, owned⟩
  · exact .inl (steady.keep keeps)
  · exact .inr ⟨r, rfl, (keeps.owner _ (within_of_owner? owned)).trans owned⟩

theorem Outside.keep (outside : h.Outside S v) (keeps : h.Keeps h') : h'.Outside S v := by
  rintro r rfl
  obtain ⟨within, unguarded⟩ := outside r rfl
  refine ⟨within.trans_le keeps.cells, ?_⟩
  unfold Guarded
  rw [keeps.owner _ within]
  exact unguarded

/-- A change after which what was sealed is so still. -/
structure Respects (S : ListId) (G : Nat → Prop) (h h' : Heap) : Prop extends h.Keeps h' where
  sealed : h.Sealed S G → h'.Sealed S G

theorem Respects.refl (S : ListId) (G : Nat → Prop) (h : Heap) : h.Respects S G h := ⟨.refl h, id⟩

theorem Respects.trans (first : h.Respects S G h')
    (second : h'.Respects S G h'') : h.Respects S G h'' :=
  ⟨first.toKeeps.trans second.toKeeps, second.sealed ∘ first.sealed⟩

section Mapped

variable {f : Nat → Aspect → Aspect}

section

variable (seen : ∀ i, h'.aspect? i = (h.aspect? i).map (f i))
include seen

theorem size_eq_of_mapped : h'.cells.size = h.cells.size := by
  have within : ∀ i, i < h'.cells.size ↔ i < h.cells.size := by
    intro i
    rw [← aspect?_isSome, ← aspect?_isSome, seen, Option.isSome_map]
  exact Nat.le_antisymm (Nat.le_of_not_lt fun less => Nat.lt_irrefl _ ((within _).mp less))
    (Nat.le_of_not_lt fun less => Nat.lt_irrefl _ ((within _).mpr less))

theorem owner?_eq_of_mapped
    (owner : ∀ i a, (f i a).owner = a.owner) (i : Nat) : h'.owner? i = h.owner? i := by
  rw [owner?_eq, owner?_eq, seen]
  cases h.aspect? i <;> simp [owner]

theorem constant_eq_of_mapped (constant : ∀ i a, (f i a).constant = a.constant) (i : Nat) :
    h'.constant i = h.constant i := by
  rw [constant_eq, constant_eq, seen]
  cases h.aspect? i <;> simp [constant]

end

theorem respects_of_mapped (S : ListId) (G : Nat → Prop) (sane : h.Consistent)
    (seen : ∀ i, h'.aspect? i = (h.aspect? i).map (f i)) (lists : h'.lists = h.lists)
    (owner : ∀ i a, (f i a).owner = a.owner) (constant : ∀ i a, (f i a).constant = a.constant)
    (holds : ∀ i v, h'.Holds i v → h.Holds i v ∨ ∃ l, h.owner? i = some l ∧ h.Local l v) :
    h.Respects S G h' := by
  have size := size_eq_of_mapped seen
  have owners := owner?_eq_of_mapped seen owner
  have keeps : h.Keeps h' := by
    refine ⟨size.ge, Nat.le_of_eq (by rw [lists]), fun i _ => owners i,
      fun i _ => constant_eq_of_mapped seen constant i, fun i v isConstant held => ?_⟩
    rcases holds i v held with before | ⟨l, owned, -⟩
    · exact before
    · rw [sane.owner?_of_constant isConstant] at owned
      simp at owned
  refine ⟨keeps, fun closed i v kept unguarded held => ?_⟩
  unfold Guarded at unguarded
  rw [owners] at unguarded
  rcases holds i v held with before | ⟨l, owned, isLocal⟩
  · exact (closed i v kept unguarded before).keep keeps
  · obtain rfl : l = S := by
      by_contra ne
      exact unguarded ⟨l, owned, ne⟩
    exact (isLocal.outside sane).keep keeps

end Mapped

section Extended

variable {a : Aspect}

structure Extended (a : Aspect) (h h' : Heap) : Prop where
  cells : h'.cells.size = h.cells.size + 1
  lists : h'.lists.size = h.lists.size
  seen : ∀ i, h'.aspect? i = if i = h.cells.size then some a else h.aspect? i

namespace Extended

section

variable (extended : h.Extended a h')
include extended

theorem aspect?_old (old : id ≠ h.cells.size) :
    h'.aspect? id = h.aspect? id := by rw [extended.seen, if_neg old]

theorem aspect?_new : h'.aspect? h.cells.size = some a := by
  rw [extended.seen, if_pos rfl]

theorem holds_old (old : id ≠ h.cells.size) : h'.Holds id v ↔ h.Holds id v := by
  unfold Holds
  rw [payload?_eq, payload?_eq, extended.aspect?_old old]

theorem owner?_old (old : id ≠ h.cells.size) :
    h'.owner? id = h.owner? id := by rw [owner?_eq, owner?_eq, extended.aspect?_old old]

theorem owner?_new : h'.owner? h.cells.size = a.owner := by
  rw [owner?_eq, extended.aspect?_new, Option.bind_some]

theorem holds_new : h'.Holds h.cells.size v ↔ ∃ p, a.payload = some p ∧ p.Holds v := by
  unfold Holds
  rw [payload?_eq, extended.aspect?_new, Option.bind_some]

theorem keeps : h.Keeps h' where
  cells := by rw [extended.cells]; exact Nat.le_succ _
  lists := extended.lists.ge
  owner id within := extended.owner?_old within.ne
  constant id within := by
    rw [constant_eq, constant_eq, extended.aspect?_old within.ne]
  fixed id v constant := (extended.holds_old (within_of_constant constant).ne).mp

/-- The new payload holds what is local to its owner or outside. -/
theorem respects (sane : h.Consistent) (holds : ∀ p v, a.payload = some p → p.Holds v →
      (∃ l, a.owner = some l ∧ h.Local l v) ∨ h.Outside S v) : h.Respects S G h' := by
  refine ⟨extended.keeps, fun closed i v kept unguarded held => ?_⟩
  refine Outside.keep ?_ extended.keeps
  by_cases old : i = h.cells.size
  · subst old
    obtain ⟨p, isPayload, held⟩ := extended.holds_new.mp held
    rcases holds p v isPayload held with ⟨l, owned, isLocal⟩ | outside
    · obtain rfl : l = S := by
        by_contra ne
        exact unguarded ⟨l, extended.owner?_new.trans owned, ne⟩
      exact isLocal.outside sane
    · exact outside
  · unfold Guarded at unguarded
    rw [extended.owner?_old old] at unguarded
    exact closed i v kept unguarded ((extended.holds_old old).mp held)

end

end Extended

theorem extended_create (h : Heap) (payload : Payload) (constant shared : Bool) :
    h.Extended ⟨some payload, constant, shared, none, none⟩
      (h.create payload constant shared).2 where
  cells := by simp [create]
  lists := rfl
  seen := aspect?_create h payload constant shared

theorem extended_place (h : Heap) (l : ListId) (payload : Payload) :
    h.Extended ⟨some payload, false, false, some l, none⟩ (h.place l payload).2 where
  cells := by simp [place, create]
  lists := by simp [place, create]
  seen i := by
    show ((h.create payload false false).2.adopt l h.cells.size).aspect? i = _
    rw [aspect?_adopt, aspect?_create]
    by_cases new : i = h.cells.size
    · simp [new, Aspect.adopted, Aspect.unowned]
    · cases h.aspect? i <;> simp [new]

end Extended

end Heap

/-! ### Heaps that agree on all payloads but some -/

namespace Heap

variable {G : Nat → Prop} {h1 h2 : Heap} {v : Value} {id : Nat}

structure Agree (G : Nat → Prop) (h1 h2 : Heap) : Prop where
  cells : h2.cells.size = h1.cells.size
  agree : ∀ id, ¬ G id → h2.aspect? id = h1.aspect? id

namespace Agree

variable {key : Value}

section

variable (agree : Agree G h1 h2) (kept : ¬ G id)
include agree kept

theorem payload?_eq : h2.payload? id = h1.payload? id := by
  rw [Heap.payload?_eq, Heap.payload?_eq, agree.agree id kept]

theorem owner?_eq : h2.owner? id = h1.owner? id := by
  rw [Heap.owner?_eq, Heap.owner?_eq, agree.agree id kept]

theorem constant_eq : h2.constant id = h1.constant id := by
  rw [Heap.constant_eq, Heap.constant_eq, agree.agree id kept]

theorem unowned_eq : h2.unowned id = h1.unowned id := by
  rw [Heap.unowned_eq, Heap.unowned_eq, agree.agree id kept]

theorem holds_iff : h2.Holds id v ↔ h1.Holds id v := by
  unfold Holds
  rw [agree.payload?_eq kept]

end

section

variable (agree : Agree G h1 h2)
include agree

theorem text?_eq (avoids : v.Avoids G) : h2.text? v = h1.text? v := by
  unfold text?
  split
  · rw [agree.payload?_eq (avoids _ rfl)]
  · rfl

theorem bytes?_eq (avoids : v.Avoids G) : h2.bytes? v = h1.bytes? v := by
  unfold bytes?
  split
  · rw [agree.payload?_eq (avoids _ rfl)]
  · rfl

theorem items?_eq (avoids : v.Avoids G) : h2.items? v = h1.items? v := by
  unfold items?
  split
  · rw [agree.payload?_eq (avoids _ rfl)]
  · rfl

theorem entries?_eq (avoids : v.Avoids G) : h2.entries? v = h1.entries? v := by
  unfold entries?
  split
  · rw [agree.payload?_eq (avoids _ rfl)]
  · rfl

theorem equals_eq (left : a.Avoids G) (right : b.Avoids G) : h2.equals a b = h1.equals a b := by
  unfold equals
  split <;> try rfl
  rename_i r s
  unfold sameContents
  rw [agree.payload?_eq (left r rfl), agree.payload?_eq (right s rfl)]

theorem digest_eq (avoids : v.Avoids G) : h2.digest v = h1.digest v := by
  have read : ∀ id, ¬ G id → (h2.cells[id]?.bind Cell.digest).getD (h2.freshDigest id) =
      (h1.cells[id]?.bind Cell.digest).getD (h1.freshDigest id) := by
    intro id kept
    rw [digest_cell_eq, digest_cell_eq, agree.agree id kept]
    unfold freshDigest
    rw [agree.payload?_eq kept]
  unfold digest
  split <;> try rfl
  · exact read _ (avoids _ rfl)
  · exact read _ (avoids _ rfl)

theorem matchesAt_eq (avoids : key.Avoids G) (entry : e.key.Avoids G)
    (digest : Digest) : h2.matchesAt digest key e = h1.matchesAt digest key e := by
  unfold matchesAt
  rw [agree.equals_eq avoids entry]

theorem find?_eq (avoids : key.Avoids G)
    (keys : ∀ e ∈ entries, e.key.Avoids G) : h2.find? key entries = h1.find? key entries := by
  have found : ∀ {p q : Entry → Bool}, (∀ e ∈ entries, p e = q e) →
      entries.find? p = entries.find? q := by
    intro p q same
    induction entries with
    | nil => rfl
    | cons e rest ih =>
      rw [List.find?_cons, List.find?_cons, same e (.head _),
        ih (fun e' later => keys e' (.tail _ later)) fun e' later => same e' (.tail _ later)]
  unfold find?
  rw [agree.digest_eq avoids]
  rw [found fun e entry => agree.matchesAt_eq avoids (keys e entry) _,
    found fun e entry => agree.equals_eq avoids (keys e entry)]

theorem put_eq (avoids : key.Avoids G) (keys : ∀ e ∈ entries, e.key.Avoids G) (value : Value) :
    h2.put key value entries = h1.put key value entries := by
  unfold put
  rw [agree.digest_eq avoids]
  generalize h1.digest key = digest
  induction entries with
  | nil => rfl
  | cons e rest ih =>
    unfold putAt
    rw [agree.matchesAt_eq avoids (keys e (.head _)), ih fun e' later => keys e' (.tail _ later)]

end

end Agree

end Heap

end Tenancy
