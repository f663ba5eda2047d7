import Tenancy.Heap.Basic

/-!
Value lists as owners.

A payload belongs to at most one list. Its cell names the list, the slot and the generation of the
slot, and the slot names the payload. Whenever a slot is vacated its generation goes up, so that a
stale binding does not match.
-/

namespace Tenancy

/-- The slot for the next payload, which is the one vacated last or else a new one, and the
generation of that slot. -/
def ValueList.nextSlot (list : ValueList) : Nat × UInt32 :=
  match list.free with
  | slot :: _ => (slot, (list.slots[slot]?.getD {}).generation)
  | [] => (list.slots.size, 0)

def ValueList.insert (list : ValueList) (id : Nat) : ValueList :=
  match list.free with
  | slot :: free =>
    { slots := list.slots.modify slot fun s => { s with occupant := some id }
      free
      size := list.size + 1
      allocated := list.allocated + 1 }
  | [] =>
    { slots := list.slots.push ⟨0, some id⟩
      free := []
      size := list.size + 1
      allocated := list.allocated + 1 }

namespace Heap

def occupy (h : Heap) (l : ListId) (id : Nat) : Heap :=
  let (slot, generation) := (h.list l).nextSlot
  (h.modifyList l (·.insert id)).modifyCell id fun c =>
    { c with binding := some ⟨l, slot, generation⟩ }

def adopt (h : Heap) (l : ListId) (id : Nat) : Heap :=
  if h.unowned id || (h.binding? id).isSome then h else h.occupy l id

/-- As `adopt`, but a payload of another list is refused. -/
def bind (h : Heap) (l : ListId) (id : Nat) : Except Breach Heap :=
  if h.unowned id then .ok h
  else
    match h.binding? id with
    | none => .ok (h.occupy l id)
    | some b => if b.list = l then .ok h else .error .boundElsewhere

def place (h : Heap) (l : ListId) (payload : Payload) : Value × Heap :=
  let (id, h) := h.create payload false false
  (.ref ⟨payload.kind, id⟩, h.adopt l id)

def owns (h : Heap) (l : ListId) (id : Nat) : Bool :=
  match h.binding? id with
  | none => false
  | some b =>
    b.list == l
      && (h.list l).slots[b.slot]?.any fun s => s.generation == b.generation && s.occupant.isSome

def vacated (s : ListSlot) : ListSlot := ⟨s.generation + 1, none⟩

/-- Gives up a payload without freeing it. The answer says whether the list owned it. -/
def unbind (h : Heap) (l : ListId) (id : Nat) : Bool × Heap :=
  match h.owns l id, h.binding? id with
  | true, some b =>
    let h := h.modifyCell id fun c => { c with binding := none }
    (true, h.modifyList l fun list =>
      { list with
        slots := list.slots.modify b.slot vacated
        free := b.slot :: list.free
        size := list.size - 1 })
  | _, _ => (false, h)

def members (h : Heap) (l : ListId) : List Nat :=
  (h.list l).slots.toList.filterMap ListSlot.occupant

def release (h : Heap) (ids : List Nat) : Heap :=
  ids.foldl (fun h id => h.modifyCell id fun c => { c with binding := none }) h

def takeAll (h : Heap) (l : ListId) : List Nat × Heap :=
  let ids := h.members l
  (ids, (h.release ids).modifyList l fun list =>
    { slots := list.slots.map fun s => if s.occupant.isSome then vacated s else s
      free := List.range list.slots.size
      size := 0
      allocated := 0 })

def adoptAll (h : Heap) (l : ListId) (ids : List Nat) : Heap := ids.foldl (·.adopt l ·) h

def append (h : Heap) (target source : ListId) : Heap :=
  let (ids, h) := h.takeAll source
  h.adoptAll target ids

def free (h : Heap) (id : Nat) : Heap :=
  let h :=
    match h.payload? id with
    | some (.buffer b) => h.record .destructed b
    | _ => h
  h.modifyCell id fun c => { c with payload := none, binding := none }

def freeEach (h : Heap) (ids : List Nat) : Heap := ids.foldl free h

def freeAll (h : Heap) (l : ListId) : Heap :=
  let (ids, h) := h.takeAll l
  h.freeEach ids

def resetAllocated (h : Heap) (l : ListId) : Heap :=
  h.modifyList l fun list => { list with allocated := 0 }

def exempted (exemption : Exemption) (c : Cell) : Cell :=
  match exemption with
  | .constant => { c with constant := true }
  | .shared => { c with shared := true }

def exempt (h : Heap) (id : Nat) (exemption : Exemption) : Except Breach Heap :=
  if (h.binding? id).isSome then .error (.ownedExemption exemption)
  else .ok (h.modifyCell id (exempted exemption))

end Heap

abbrev OwnerM := EStateM Breach Heap

def OwnerM.change (f : Heap → Except Breach Heap) : OwnerM Unit := fun h =>
  match f h with
  | .ok h => .ok () h
  | .error b => .error b h

def OwnerM.bind (l : ListId) : Value → OwnerM Unit
  | .ref r => change (·.bind l r.id)
  | _ => pure ()

def OwnerM.exempt (exemption : Exemption) : Value → OwnerM Unit
  | .ref r => change (·.exempt r.id exemption)
  | _ => pure ()

end Tenancy
