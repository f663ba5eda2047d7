import Tenancy.Operator.Typed

/-!
Actions at a state.

An action that may fail leaves a state behind in either case. A motion says which states an action
may begin in and where it may lead; composed actions lead where their parts do.
-/

namespace Tenancy

open List

namespace Action

variable {ε σ α β : Type}

/-- The state that an action leaves behind. -/
def left : EStateM.Result ε σ α → σ
  | .ok _ s => s
  | .error _ s => s

@[simp] theorem left_ok (a : α) (s : σ) : left (.ok a s : EStateM.Result ε σ α) = s := rfl

@[simp] theorem left_error (e : ε) (s : σ) : left (.error e s : EStateM.Result ε σ α) = s := rfl

theorem bind_apply (x : EStateM ε σ α) (f : α → EStateM ε σ β) (s : σ) :
    (x >>= f) s = match x s with
      | .ok a t => f a t
      | .error e t => .error e t := rfl

@[simp] theorem get_bind_apply (f : σ → EStateM ε σ β) (s : σ) : (get >>= f) s = f s s := rfl

@[simp] theorem modify_bind_apply (g : σ → σ) (f : PUnit → EStateM ε σ β) (s : σ) :
    ((modify g : EStateM ε σ PUnit) >>= f) s = f () (g s) := rfl

@[simp] theorem ofExcept_ok_apply (a : α) (s : σ) :
    (ofExcept (.ok a : Except ε α) : EStateM ε σ α) s = .ok a s := rfl

end Action

open Tenancy.Action

namespace HeapM

theorem place_apply (owner : ListId) (payload : Payload) (h : Heap) :
    place owner payload h = .ok (h.place owner payload).1 (h.place owner payload).2 := rfl

theorem updateArray_apply (id : Nat) (f : List Value → Except Fault (List Value)) (h : Heap) :
    updateArray (.ref ⟨.array, id⟩) f h =
      if h.constant id then .error (.readOnly (.payload .array)) h
      else
        match h.items? (.ref ⟨.array, id⟩) with
        | none => .error .freedValue h
        | some items =>
          match f items with
          | .ok items => .ok () (h.write id (.array items))
          | .error e => .error e h := by
  unfold updateArray
  simp only [get_bind_apply]
  split
  · rfl
  · cases h.items? (.ref ⟨.array, id⟩) with
    | none => rfl
    | some items =>
      dsimp only
      rw [bind_apply]
      cases f items <;> rfl

theorem mappingInsert_apply (id : Nat) (key value : Value) (h : Heap) :
    mappingInsert (.ref ⟨.mapping, id⟩) key value h =
      if h.constant id then .error (.readOnly (.payload .mapping)) h
      else
        match h.entries? (.ref ⟨.mapping, id⟩) with
        | none => .error .freedValue h
        | some entries => .ok () ((h.note key).write id (.mapping (h.put key value entries))) := by
  unfold mappingInsert
  simp only [get_bind_apply]
  split
  · rfl
  · cases h.entries? (.ref ⟨.mapping, id⟩) <;> rfl

theorem lookup_apply (entries : List Entry) (key : Value) (h : Heap) : lookup entries key h =
      .ok (h.find? key entries) (if Heap.searched entries then h.note key else h) := by
  unfold lookup
  simp only [get_bind_apply]
  split <;> rfl

end HeapM

theorem Operator.setByte_apply (id : Nat) (container key : Value) (byte : UInt8) (h : Heap) :
    setByte id container key byte h = match (h.forgetDigest id).payload? id with
      | some (.buffer b) =>
        match position container key b.bytes.length with
        | .ok i => .ok () ((h.forgetDigest id).write id (.buffer { b with bytes := b.bytes.set i byte }))
        | .error e => .error e (h.forgetDigest id)
      | _ => .error .freedValue (h.forgetDigest id) := by
  unfold setByte
  simp only [modify_bind_apply, get_bind_apply]
  cases (h.forgetDigest id).payload? id with
  | none => rfl
  | some payload =>
    cases payload with
    | buffer b =>
      dsimp only
      rw [bind_apply]
      cases position container key b.bytes.length <;> rfl
    | string _ | array _ | mapping _ | function _ _ => rfl

namespace Action

variable {ε σ α β : Type} {s : σ} {E : ε → σ → Prop}

/-- How an action ends: with an answer or with an error. -/
def Ends (P : α → σ → Prop) (E : ε → σ → Prop) : EStateM.Result ε σ α → Prop
  | .ok a s => P a s
  | .error e s => E e s

theorem Ends.mono (ends : Ends P E r) (weaker : ∀ a s, P a s → Q a s) : Ends Q E r := by
  cases r with
  | ok a s => exact weaker a s ends
  | error e s => exact ends

theorem Ends.bind {P : α → σ → Prop} {Q : β → σ → Prop} {x : EStateM ε σ α}
    {f : α → EStateM ε σ β} (first : Ends P E (x s)) (next : ∀ a t, P a t → Ends Q E (f a t)) :
    Ends Q E ((x >>= f) s) := by
  rw [bind_apply]
  cases ran : x s with
  | ok a t => exact next a t (by rwa [ran] at first)
  | error e t => rwa [ran] at first

/-- What holds of the items done so far holds of all of them in the end. -/
theorem ends_forM {I : List α → σ → Prop} {f : α → EStateM ε σ PUnit} (items : List α)
    (each : ∀ before a after s, items = before ++ a :: after → I before s →
      Ends (fun _ t => I (before ++ [a]) t) E (f a s))
    (start : I [] s) : Ends (fun _ t => I items t) E (items.forM f s) := by
  have rest : ∀ after before s, items = before ++ after → I before s →
      Ends (fun _ t => I items t) E (after.forM f s) := by
    intro after
    induction after with
    | nil =>
      intro before s split holds
      rw [append_nil] at split
      exact split ▸ holds
    | cons a after ih =>
      intro before s split holds
      refine (each before a after s split holds).bind fun _ t later => ?_
      exact ih (before ++ [a]) t (by simpa using split) later
  exact rest items [] s rfl start

theorem ends_mapM {I : List α → List β → σ → Prop} {f : α → EStateM ε σ β} (items : List α)
    (each : ∀ before a after done s, items = before ++ a :: after → I before done s →
      Ends (fun b t => I (before ++ [a]) (done ++ [b]) t) E (f a s))
    (start : I [] [] s) : Ends (fun done t => I items done t) E (items.mapM f s) := by
  have rest : ∀ after before done s, items = before ++ after → I before done s →
      Ends (fun more t => I items (done ++ more) t) E (after.mapM f s) := by
    intro after
    induction after with
    | nil =>
      intro before done s split holds
      rw [append_nil] at split
      show I items (done ++ []) s
      rw [append_nil, split]
      exact holds
    | cons a after ih =>
      intro before done s split holds
      rw [mapM_cons]
      refine (each before a after done s split holds).bind fun b t later => ?_
      refine (ih (before ++ [a]) (done ++ [b]) t (by simpa using split) later).bind ?_
      intro more u all
      show I items (done ++ b :: more) u
      rwa [append_cons]
  exact rest items [] [] s rfl start

end Action

/-- Where actions may begin and where they may lead. -/
structure Motion (σ : Type) where
  Ready : σ → Prop
  Leads : σ → σ → Prop
  refl : ∀ s, Leads s s
  trans : ∀ {s t u}, Leads s t → Leads t u → Leads s u
  ready : ∀ {s t}, Ready s → Leads s t → Ready t

namespace Motion

variable {ε σ α β : Type} {M : Motion σ} {x : EStateM ε σ α} {f : α → EStateM ε σ β}

def Moves (M : Motion σ) (act : EStateM ε σ α) : Prop :=
  ∀ s, M.Ready s → M.Leads s (left (act s))

theorem moves_pure (a : α) : M.Moves (pure a : EStateM ε σ α) := fun s _ => M.refl s

theorem moves_throw (e : ε) : M.Moves (throw e : EStateM ε σ α) := fun s _ => M.refl s

theorem moves_ofExcept (r : Except ε α) : M.Moves (ofExcept r : EStateM ε σ α) := by
  cases r with
  | ok a => exact moves_pure a
  | error e => exact moves_throw e

theorem leads_bind (first : M.Leads s (left (x s)))
    (next : ∀ a t, x s = .ok a t → M.Leads t (left (f a t))) : M.Leads s (left ((x >>= f) s)) := by
  rw [bind_apply]
  cases ran : x s with
  | ok a t =>
    rw [ran] at first
    exact M.trans first (next a t ran)
  | error e t =>
    rw [ran] at first
    exact first

theorem Moves.bind_where {Q : α → Prop} (first : M.Moves x)
    (answer : ∀ s a t, M.Ready s → x s = .ok a t → Q a) (next : ∀ a, Q a → M.Moves (f a)) :
    M.Moves (x >>= f) := by
  intro s ready
  have moved := first s ready
  refine leads_bind moved fun a t ran => next a (answer s a t ready ran) t (M.ready ready ?_)
  rwa [ran] at moved

theorem Moves.bind (first : M.Moves x) (next : ∀ a, M.Moves (f a)) : M.Moves (x >>= f) :=
  first.bind_where (Q := fun _ => True) (fun _ _ _ _ _ => trivial) fun a _ => next a

theorem moves_get_bind {f : σ → EStateM ε σ β} (next : ∀ s, M.Moves (f s)) :
    M.Moves (get >>= f) := fun s ready => next s s ready

theorem moves_forM {f : α → EStateM ε σ PUnit} (each : ∀ a, M.Moves (f a)) (as : List α) :
    M.Moves (as.forM f) := by
  induction as with
  | nil => exact moves_pure _
  | cons a rest ih => exact (each a).bind fun _ => ih

theorem moves_mapM (each : ∀ a, M.Moves (f a)) (as : List α) : M.Moves (as.mapM f) := by
  induction as with
  | nil => exact moves_pure _
  | cons a rest ih =>
    rw [mapM_cons]
    exact (each a).bind fun _ => ih.bind fun _ => moves_pure _

end Motion

/-! ### Two runs of one action -/

section

open Tenancy.Action

/-- Which states go together, and where the first of them may lead. -/
structure Coupling (σ : Type) where
  Related : σ → σ → Prop
  Leads : σ → σ → Prop
  refl : ∀ s, Leads s s
  trans : ∀ {s t u}, Leads s t → Leads t u → Leads s u

namespace Coupling

variable {ε σ α β : Type} {C : Coupling σ} {s s1 s2 : σ} {P Q : α → σ → Prop} {R : β → σ → Prop}
  {r1 r2 : EStateM.Result ε σ α} {I : σ → Prop}

/-- Two ends of runs that go together, the first one led to from `s`. -/
inductive Meets (C : Coupling σ) (s : σ) (Q : α → σ → Prop) :
    EStateM.Result ε σ α → EStateM.Result ε σ α → Prop where
  | ok {a : α} {t1 t2 : σ} (related : C.Related t1 t2) (leads : C.Leads s t1) (result : Q a t1) :
      Meets C s Q (.ok a t1) (.ok a t2)
  | error {e : ε} {t1 t2 : σ} (related : C.Related t1 t2) (leads : C.Leads s t1) :
      Meets C s Q (.error e t1) (.error e t2)

def Couples (C : Coupling σ) (s1 s2 : σ) (Q : α → σ → Prop) (x1 x2 : EStateM ε σ α) : Prop :=
  C.Meets s1 Q (x1 s1) (x2 s2)

theorem Meets.mono (meets : C.Meets s P r1 r2) (weaker : ∀ a t, C.Leads s t → P a t → Q a t) :
    C.Meets s Q r1 r2 := by
  cases meets with
  | ok rel leads result => exact .ok rel leads (weaker _ _ leads result)
  | error rel leads => exact .error rel leads

theorem Meets.after (meets : C.Meets t Q r1 r2) (leads : C.Leads s t) : C.Meets s Q r1 r2 := by
  cases meets with
  | ok rel later result => exact .ok rel (C.trans leads later) result
  | error rel later => exact .error rel (C.trans leads later)

theorem Meets.and (meets : C.Meets s P r1 r2) (known : ∀ a t, r1 = .ok a t → Q a t) :
    C.Meets s (fun a t => P a t ∧ Q a t) r1 r2 := by
  cases meets with
  | ok rel leads result => exact .ok rel leads ⟨result, known _ _ rfl⟩
  | error rel leads => exact .error rel leads

/-- The states that go together while a condition on the first one holds. -/
def during (C : Coupling σ) (I : σ → Prop) : Coupling σ :=
  { C with Related := fun s1 s2 => C.Related s1 s2 ∧ I s1 }

theorem Meets.ofDuring (meets : (C.during I).Meets s Q r1 r2) : C.Meets s Q r1 r2 := by
  cases meets with
  | ok rel leads result => exact .ok rel.1 leads result
  | error rel leads => exact .error rel.1 leads

theorem couples_pure (rel : C.Related s1 s2) (result : Q a s1) :
    C.Couples s1 s2 Q (pure a : EStateM ε σ α) (pure a) := .ok rel (C.refl _) result

theorem couples_throw (rel : C.Related s1 s2) (e : ε) :
    C.Couples s1 s2 Q (throw e : EStateM ε σ α) (throw e) := .error rel (C.refl _)

theorem couples_ofExcept (rel : C.Related s1 s2) (result : ∀ a, r = .ok a → Q a s1) :
    C.Couples s1 s2 Q (ofExcept r : EStateM ε σ α) (ofExcept r) := by
  cases r with
  | ok a => exact couples_pure rel (result a rfl)
  | error e => exact couples_throw rel e

theorem couples_get_bind
    (next : C.Couples s1 s2 R (f1 s1) (f2 s2)) : C.Couples s1 s2 R (get >>= f1) (get >>= f2) := next

theorem Couples.bind (first : C.Couples s1 s2 P x1 x2)
    (next : ∀ a t1 t2, C.Related t1 t2 → C.Leads s1 t1 → P a t1 → C.Couples t1 t2 R (f1 a) (f2 a)) :
    C.Couples s1 s2 R (x1 >>= f1) (x2 >>= f2) := by
  unfold Couples at first ⊢
  rw [bind_apply, bind_apply]
  generalize x1 s1 = r1 at first
  generalize x2 s2 = r2 at first
  cases first with
  | ok rel leads result => exact (next _ _ _ rel leads result).after leads
  | error rel leads => exact .error rel leads

/-- A loop whose rounds keep an invariant. -/
theorem couples_forM {as : List α} (rel : C.Related s1 s2) (start : I s1)
    (each : ∀ a ∈ as, ∀ t1 t2, C.Related t1 t2 → C.Leads s1 t1 → I t1 →
      C.Couples t1 t2 (fun _ => I) (f a) (f a)) :
    C.Couples s1 s2 (fun _ => I) (as.forM f) (as.forM f) := by
  induction as generalizing s1 s2 with
  | nil => exact couples_pure rel start
  | cons a rest ih =>
    refine (each a (.head _) s1 s2 rel (C.refl _) start).bind fun _ t1 t2 together leads holds => ?_
    exact ih together holds fun b later u1 u2 relatedToo leadsToo =>
      each b (.tail _ later) u1 u2 relatedToo (C.trans leads leadsToo)

theorem couples_mapM {as : List α} (rel : C.Related s1 s2)
    (lasts : ∀ b t u, C.Leads t u → R b t → R b u)
    (each : ∀ a ∈ as, ∀ t1 t2, C.Related t1 t2 → C.Leads s1 t1 → C.Couples t1 t2 R (f a) (f a)) :
    C.Couples s1 s2 (fun bs t => ∀ b ∈ bs, R b t) (as.mapM f) (as.mapM f) := by
  induction as generalizing s1 s2 with
  | nil => exact couples_pure rel (by simp)
  | cons a rest ih =>
    rw [mapM_cons]
    refine (each a (.head _) s1 s2 rel (C.refl _)).bind fun b t1 t2 together leads holds => ?_
    refine (ih together fun a' later u1 u2 relatedToo leadsToo =>
      each a' (.tail _ later) u1 u2 relatedToo (C.trans leads leadsToo)).bind
      fun bs u1 u2 togetherToo later others => ?_
    refine couples_pure togetherToo fun b' listed => ?_
    rcases mem_cons.mp listed with rfl | other
    · exact lasts b' t1 u1 later holds
    · exact others b' other

end Coupling

end

end Tenancy
