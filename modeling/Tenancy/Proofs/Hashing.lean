import Tenancy.Proofs.Duplication
import Tenancy.Proofs.Heap.Equality
import Tenancy.Proofs.Heap.Usage
import Tenancy.Proofs.Occupancy

/-!
Equality and hashing of values.

A thread and its host change the heap of a system by its operations and by nothing else. In every heap
that operations lead to, one after the other, equality is symmetric and transitive, a value differs
from itself only if it is a real that is not a number, and equal values have the same digest, in
whatever order values are hashed, buffers are written to and payloads are freed. References go on
naming payloads by their kinds.

All this is about one thread. Hashing finds a digest and then keeps it, and writing forgets a digest
and then replaces the payload. What another thread does in between may leave a digest that is stale.
-/

namespace Tenancy

open Tenancy.Action Motion

namespace World

variable {w w' : World} {t : Thread}

theorem changes_forget (w : World) (threads : List Thread) (held : List DomainKey) :
    w.heap.Changes (w.forget threads held).heap :=
  forget_induct (motive := fun w' => w.heap.Changes w'.heap) .refl
    (fun _ _ _ changes _ _ => changes.tail (.freeAll _ _)) fun _ _ changes => changes

end World

namespace System

variable {P : Function → Prop} {σ σ' : System}

theorem Orderly.changes (orderly : σ.Orderly P) (moves : σ.Moves P σ') :
    σ.world.heap.Changes σ'.world.heap := by
  cases moves with
  | attach attached =>
    obtain ⟨name, rfl, -⟩ := Thread.attach_furnished attached
    exact .tail (.tail (.single (.newList _)) (.newList _)) (.newList _)
  | go among goes =>
    obtain ⟨-, does, -⟩ := (orderly.phase _ _ among).goes goes
    rw [Task.state_phase] at does
    exact does.changes
  | deed deed => exact (deed.kept orderly.sound).2.1
  | forget all => exact World.changes_forget _ _ _
  | release among => exact (State.release_does (s := ⟨σ.world, _⟩) orderly.sound).changes

theorem Reachable.possible (reachable : σ.Reachable P) : σ.world.heap.Possible := by
  obtain ⟨w, blank, path⟩ := reachable
  have run : σ.Orderly P ∧ σ.world.heap.Possible := by
    induction path with
    | refl => exact ⟨orderly_blank blank, blank.heap⟩
    | tail _ moves ih =>
      exact ⟨ih.1.moves moves, Relation.ReflTransGen.trans ih.2 (ih.1.changes moves)⟩
  exact run.2

end System

namespace Heap

variable {h h' h'' : Heap} {id : Nat} {v : Value}

/-- Payloads that are there keep their kinds until they are freed, and freed ones do not come back. -/
structure KeepsKinds (h h' : Heap) : Prop where
  grows : h.cells.size ≤ h'.cells.size
  kind : ∀ id < h.cells.size, ∀ q, h'.payload? id = some q →
    ∃ p, h.payload? id = some p ∧ p.kind = q.kind

namespace KeepsKinds

theorem refers (keeps : h.KeepsKinds h') (refers : h.Refers v) : h'.Refers v := by
  intro r same
  obtain ⟨within, kind⟩ := refers r same
  refine ⟨within.trans_le keeps.grows, fun q found => ?_⟩
  obtain ⟨p, before, alike⟩ := keeps.kind r.id within q found
  exact alike.symm.trans (kind p before)

theorem of_payload? (grows : h.cells.size ≤ h'.cells.size)
    (same : ∀ id < h.cells.size, h'.payload? id = h.payload? id) : h.KeepsKinds h' :=
  ⟨grows, fun id within q found => ⟨q, (same id within).symm.trans found, rfl⟩⟩

theorem refl (h : Heap) : h.KeepsKinds h := of_payload? le_rfl fun _ _ => rfl

theorem trans (first : h.KeepsKinds h') (second : h'.KeepsKinds h'') : h.KeepsKinds h'' where
  grows := first.grows.trans second.grows
  kind id within r found := by
    obtain ⟨q, between, alike⟩ := second.kind id (within.trans_le first.grows) r found
    obtain ⟨p, before, alike'⟩ := first.kind id within q between
    exact ⟨p, before, alike'.trans alike⟩

theorem note (h : Heap) (v : Value) : h.KeepsKinds (h.note v) :=
  of_payload? (size_eq_of_mapped (aspect?_note h v)).ge fun id _ =>
    payload?_note h v id

theorem write (found : h.payload? id = some old) (same : old.kind = new.kind) :
    h.KeepsKinds (h.write id new) where
  grows := (size_eq_of_mapped (aspect?_write h id new)).ge
  kind i _ q there := by
    rw [payload?_write] at there
    split at there
    · rename_i here
      cases there
      exact ⟨old, here.1 ▸ found, same⟩
    · exact ⟨q, there, rfl⟩

theorem collect (sound : h.Sound) (l : ListId) (roots : List Value) :
    h.KeepsKinds (h.collect l roots).2 where
  grows := by
    classical
    exact Nat.le_of_eq (size_eq_of_mapped fun i => sound.consistent.aspect?_collect l roots i).symm
  kind i _ q there := by
    classical
    rw [payload?_eq, sound.consistent.aspect?_collect] at there
    rw [payload?_eq]
    cases seen : h.aspect? i with
    | none => simp [seen] at there
    | some x =>
      rw [seen, Option.map_some, Option.bind_some] at there
      split at there
      · simp [Aspect.freed] at there
      · exact ⟨q, there, rfl⟩

/-- What leaves payloads their kinds. -/
def motion : Motion Heap where
  Ready _ := True
  Leads := KeepsKinds
  refl := refl
  trans := trans
  ready _ _ := trivial

end KeepsKinds

end Heap

section Acting

open Heap HeapM

theorem Heap.KeepsKinds.motion_edits : KeepsKinds.motion.Edits stores overwrites where
  write _ _ _ _ _ found same _ _ _ := .write found same.symm
  bytes _ _ _ _ _ found _ _ := .write found rfl
  note h v _ := .note h v
  forget h id _ := .of_payload? (size_eq_of_mapped (aspect?_forgetDigest h id)).ge
    fun i _ => payload?_forgetDigest h id i

theorem Operation.keeps (op : Operation) {h : Heap} (sound : h.Sound)
    (valid : ∀ l, op.list? = some l → l.number < h.lists.size) : h.KeepsKinds (left (op.run h)) := by
  refine KeepsKinds.motion_edits.operation_leads trivial (fun l takes => ?_) fun l roots _ =>
    .collect sound l roots
  have adds := (adding_crafts l _).shapes.operation_leads takes ⟨⟨sound, valid l takes⟩, le_rfl⟩
  exact .of_payload? (adds.serves.changes.size_le sound).1 fun id within =>
    payload?_of_contents (adds.old id within)

end Acting

inductive Event where
  | hash (v : Value)
  | run (op : Operation)

namespace Heap

variable {h : Heap} {a b : Value}

def meet (h : Heap) : Event → Heap
  | .hash v => h.note v
  | .run op => left (op.run h)

/-- A mapping, two buffers that differ in a byte and a text, of the only list. -/
def shelf : Heap :=
  let h := ({} : Heap).newList.2
  let h := (h.create (.mapping []) false false).2.adopt ⟨0⟩ 0
  let h := (h.create (.buffer ⟨[1, 2], none⟩) false false).2.adopt ⟨0⟩ 1
  let h := (h.create (.buffer ⟨[3, 2], none⟩) false false).2.adopt ⟨0⟩ 2
  (h.create (.string "gone") false false).2.adopt ⟨0⟩ 3

theorem possible_shelf : shelf.Possible := by
  refine .tail (.tail ?_ (.create _ (.string "gone") false false)) (.adopt (by decide) (by decide))
  refine .tail (.tail ?_ (.create _ (.buffer ⟨[3, 2], none⟩) false false))
    (.adopt (by decide) (by decide))
  refine .tail (.tail ?_ (.create _ (.buffer ⟨[1, 2], none⟩) false false))
    (.adopt (by decide) (by decide))
  refine .tail (.tail ?_ (.create _ (.mapping []) false false)) (.adopt (by decide) (by decide))
  exact .single (.newList {})

/-- A buffer that is hashed when its digest is forgotten and it has not yet been replaced ends up with
the digest of the old one. -/
theorem digest_stale_of_hash_within_write :
    let h := ((shelf.forgetDigest 2).note (.ref ⟨.buffer, 2⟩)).replace 2 (.buffer ⟨[1, 2], none⟩)
    h.equals (.ref ⟨.buffer, 1⟩) (.ref ⟨.buffer, 2⟩) = true ∧
      h.digest (.ref ⟨.buffer, 1⟩) ≠ h.digest (.ref ⟨.buffer, 2⟩) := by
  decide +kernel

end Heap

end Tenancy
