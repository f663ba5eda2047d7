import Tenancy.Proofs.Heap.Copied
import Tenancy.Proofs.Heap.Exchange

/-!
Making payloads on twin heaps.

Whoever is outside the guarded lists makes payloads of any contents there. If both heaps have the
contents, twins stay so. A payload made from what is outside leaves the guarded lists sealed.
-/

namespace Tenancy

def Draft.values : Draft → List Value
  | .array items => items
  | .mapping entries => entries.flatMap fun e => [e.1, e.2]
  | .string _ | .buffer _ | .instances _ _ | .function _ _ => []

namespace Heap

variable {S l : ListId} {G : Nat → Prop} {h h1 h2 : Heap} {v : Value}

theorem Twin.enterFrom (entries : List (Value × Value)) (done : List Entry)
    (twin : Twin S G h1 h2) (avoids : ∀ e ∈ entries, e.1.Avoids G)
    (keys : ∀ e ∈ done, e.key.Avoids G) :
    let enter := fun (acc : List Entry × Heap) (e : Value × Value) =>
      (acc.2.put e.1 e.2 acc.1, acc.2.note e.1)
    let first := entries.foldl enter (done, h1)
    let second := entries.foldl enter (done, h2)
    second.1 = first.1 ∧ Twin S G first.2 second.2 ∧ h1.Respects S G first.2 := by
  induction entries generalizing h1 h2 done with
  | nil => exact ⟨rfl, twin, .refl S G h1⟩
  | cons e rest ih =>
    have key := avoids e (.head _)
    obtain ⟨noted, leads⟩ := twin.note key
    have put := twin.put_eq key keys e.2
    have later : ∀ d ∈ h1.put e.1 e.2 done, d.key.Avoids G := by
      intro d mem
      rcases (mem_putAt mem).1 with same | ⟨d', before, same⟩
      · exact same ▸ key
      · exact same ▸ keys d' before
    have goesOn := ih _ noted (fun d listed => avoids d (.tail _ listed)) later
    simp only [List.foldl_cons, put]
    exact ⟨goesOn.1, goesOn.2.1, leads.trans goesOn.2.2⟩

theorem holds_enter
    (held : (Payload.mapping (h.enter entries).1).Holds v) : ∃ e ∈ entries, v = e.1 ∨ v = e.2 := by
  unfold enter at held
  have given : ∀ (entries : List (Value × Value)) (done : List Entry) (h : Heap),
      (Payload.mapping (entries.foldl (fun (acc : List Entry × Heap) (e : Value × Value) =>
        (acc.2.put e.1 e.2 acc.1, acc.2.note e.1)) (done, h)).1).Holds v →
        (Payload.mapping done).Holds v ∨ ∃ e ∈ entries, v = e.1 ∨ v = e.2 := by
    intro entries
    induction entries with
    | nil => exact fun _ _ => .inl
    | cons e rest ih =>
      intro done h held
      rcases ih _ _ held with before | ⟨d, listed, same⟩
      · rcases holds_put before with before | new
        · exact .inl before
        · exact .inr ⟨e, .head _, new⟩
      · exact .inr ⟨d, .tail _ listed, same⟩
  rcases given entries [] h held with before | found
  · cases before with
    | key mem | value mem => simp at mem
  · exact found

theorem Twin.draftPayload (twin : Twin S G h1 h2) (avoids : ∀ v ∈ draft.values, v.Avoids G) :
    (h2.draftPayload draft).1 = (h1.draftPayload draft).1 ∧
      Twin S G (h1.draftPayload draft).2 (h2.draftPayload draft).2 ∧
      h1.Respects S G (h1.draftPayload draft).2 := by
  cases draft with
  | instances c count => exact ⟨rfl, twin.record .constructed (.ofClass c count)⟩
  | mapping entries =>
    have keys : ∀ e ∈ entries, e.1.Avoids G := fun e listed =>
      avoids e.1 (List.mem_flatMap.mpr ⟨e, listed, by simp⟩)
    obtain ⟨same, twin, respects⟩ := twin.enterFrom entries [] keys (by simp)
    exact ⟨congrArg Payload.mapping same, twin, respects⟩
  | string | buffer | array | function => exact ⟨rfl, twin, .refl S G h1⟩

theorem mem_values_of_holds (held : (h.draftPayload draft).1.Holds v) : v ∈ draft.values := by
  cases draft with
  | array items =>
    cases held with
    | item mem => exact mem
  | mapping entries =>
    obtain ⟨e, listed, same⟩ := holds_enter held
    refine List.mem_flatMap.mpr ⟨e, listed, ?_⟩
    rcases same with rfl | rfl <;> simp
  | string | buffer | instances | function => cases held

end Heap

def Ownership.aspect (ownership : Ownership) (payload : Payload) : Aspect :=
  match ownership with
  | .owned l => ⟨some payload, false, false, some l, none⟩
  | .loose => ⟨some payload, false, false, none, none⟩
  | .exempt e => ⟨some payload, e = .constant, e = .shared, none, none⟩

/-- The payload is not put into a list of others than the host. -/
def Ownership.Outer (S : ListId) (ownership : Ownership) : Prop := ∀ l, ownership = .owned l → l = S

namespace Heap

variable {S : ListId} {G : Nat → Prop} {h h1 h2 : Heap} {ownership : Ownership} {draft : Draft}

theorem extended_make (h : Heap) (ownership : Ownership) (draft : Draft) :
    (h.draftPayload draft).2.Extended (ownership.aspect (h.draftPayload draft).1)
      (h.make ownership draft).2 := by
  cases ownership with
  | owned l => exact extended_place _ l _
  | loose | exempt => exact extended_create _ _ _ _

theorem make_eq (h : Heap) (ownership : Ownership) (draft : Draft) : (h.make ownership draft).1 =
    .ref ⟨(h.draftPayload draft).1.kind, (h.draftPayload draft).2.cells.size⟩ := by
  cases ownership <;> rfl

theorem payload_aspect (ownership : Ownership) (payload : Payload) :
    (ownership.aspect payload).payload = some payload := by
  cases ownership <;> rfl

theorem owner_aspect (outer : ownership.Outer S)
    (owned : (ownership.aspect payload).owner = some l) : l = S := by
  cases ownership with
  | owned l' =>
    obtain rfl : l' = l := Option.some.inj owned
    exact outer l' rfl
  | loose | exempt => cases owned

theorem Twin.make (twin : Twin S G h1 h2) (valid : S.number < h1.lists.size)
    (outer : ownership.Outer S) (avoids : ∀ v ∈ draft.values, v.Avoids G) :
    (h2.make ownership draft).1 = (h1.make ownership draft).1 ∧
      Twin S G (h1.make ownership draft).2 (h2.make ownership draft).2 ∧
      h1.Keeps (h1.make ownership draft).2 := by
  obtain ⟨same, drafted, respects⟩ := twin.draftPayload avoids
  have extended := extended_make h1 ownership draft
  have other := extended_make h2 ownership draft
  have lists : ∀ {h : Heap}, S.number < h.lists.size →
      ∀ l, ownership = .owned l → l.number < h.lists.size := fun valid l owned => by
    rw [outer l owned]
    exact valid
  rw [same] at other
  refine ⟨?_, drafted.extended (Changes.sound (make_changes twin.first (lists valid) draft) twin.first)
    (Changes.sound (make_changes twin.second (lists (twin.lists ▸ valid)) draft) twin.second)
    extended other ?_,
    respects.toKeeps.trans extended.keeps⟩
  · rw [make_eq, make_eq, same, drafted.cells]
  · intro p v isPayload held
    rw [payload_aspect] at isPayload
    cases isPayload
    exact ⟨avoids v (mem_values_of_holds held), fun l owned ne =>
      absurd (owner_aspect outer owned) ne⟩

theorem Twin.make_outside (twin : Twin S G h1 h2) (outer : ownership.Outer S)
    (avoids : ∀ v ∈ draft.values, v.Avoids G) (outside : ∀ v ∈ draft.values, h1.Outside S v) :
    h1.Respects S G (h1.make ownership draft).2 ∧
      (h1.make ownership draft).2.Outside S (h1.make ownership draft).1 ∧
      (h1.make ownership draft).1.Avoids G := by
  obtain ⟨-, drafted, respects⟩ := twin.draftPayload avoids
  have extended := extended_make h1 ownership draft
  refine ⟨respects.trans (extended.respects drafted.first.consistent ?_), ?_, ?_⟩
  · intro p v isPayload held
    rw [payload_aspect] at isPayload
    cases isPayload
    exact .inr ((outside v (mem_values_of_holds held)).keep respects.toKeeps)
  · rw [make_eq]
    rintro r ⟨⟩
    refine ⟨by rw [extended.cells]; exact Nat.lt_succ_self _, ?_⟩
    rintro ⟨l, owned, ne⟩
    rw [extended.owner?_new] at owned
    exact ne (owner_aspect outer owned)
  · rw [make_eq]
    rintro r ⟨⟩ listed
    exact Nat.lt_irrefl _ (drafted.within _ listed)

theorem newList_respects (S : ListId) (G : Nat → Prop) (h : Heap) : h.Respects S G h.newList.2 :=
  ⟨⟨le_rfl, by simp [newList], fun _ _ => rfl, fun _ _ => rfl, fun _ _ _ held => held⟩, id⟩

theorem Twin.newList (twin : Twin S G h1 h2) : Twin S G h1.newList.2 h2.newList.2 where
  first := (Change.newList h1).sound twin.first
  second := (Change.newList h2).sound twin.second
  cells := twin.cells
  lists := by simp [Heap.newList, twin.lists]
  within := twin.within
  agree := twin.agree
  closed := twin.closed
  inside id l v kept owned ne held :=
    (twin.inside id l v kept owned ne held).keep (newList_respects S G h1).toKeeps
  apart := twin.apart

end Heap

end Tenancy
