import Tenancy.Block
import Tenancy.Heap.Container

/-!
Making payloads from plain descriptions.
-/

namespace Tenancy

inductive Draft where
  | string (text : String)
  | buffer (bytes : List UInt8)
  | instances (cls : BufferClass) (count : Nat)
  | array (items : List Value)
  | mapping (entries : List (Value × Value))
  | function (object : ObjectId) (name : String)

def Draft.reserve : Draft → Except Breach Unit
  | .instances c count => do Block.reserve 1 (← Size.mul c.instanceSize count)
  | _ => .ok ()

inductive Ownership where
  | owned (list : ListId)
  | loose
  | exempt (exemption : Exemption)

def Heap.enter (h : Heap) (entries : List (Value × Value)) : List Entry × Heap :=
  entries.foldl (fun (done, h) e => (h.put e.1 e.2 done, h.note e.1)) ([], h)

def Heap.draftPayload (h : Heap) : Draft → Payload × Heap
  | .string text => (.string text, h)
  | .buffer bytes => (.buffer ⟨bytes, none⟩, h)
  | .instances c count =>
    let b := Buffer.ofClass c count
    (.buffer b, h.record .constructed b)
  | .array items => (.array items, h)
  | .mapping entries =>
    let (entries, h) := h.enter entries
    (.mapping entries, h)
  | .function object name => (.function object name, h)

def Heap.make (h : Heap) (ownership : Ownership) (draft : Draft) : Value × Heap :=
  let (payload, h) := h.draftPayload draft
  match ownership with
  | .owned list => h.place list payload
  | .loose =>
    let (id, h) := h.create payload false false
    (.ref ⟨payload.kind, id⟩, h)
  | .exempt exemption =>
    let (id, h) := h.create payload (exemption = .constant) (exemption = .shared)
    (.ref ⟨payload.kind, id⟩, h)

end Tenancy
