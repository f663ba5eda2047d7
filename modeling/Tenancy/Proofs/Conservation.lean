import Tenancy.Proofs.Heap.Loss
import Tenancy.Proofs.Heap.Usage
import Tenancy.Proofs.Heap.Duplicate

/-!
Instances are conserved.

Buffers with a class are made for value lists, copied into others, written to, moved with their lists,
and freed with their lists, by collections and when domains end. What is on record of their instances
can be put down to buffers so that every buffer is born once, dies once at most, and is as long as it
was at its birth until then. So what was constructed or copied has been destructed, or is there.
-/

namespace Tenancy

open Tenancy.Action Motion Relation Option

/-- What is on record of the instances in a buffer. -/
structure Notice where
  id : Nat
  cls : BufferClass
  length : Nat
  stage : Stage

def Notice.event (n : Notice) : ClassEvent := ⟨n.cls.name, n.stage, n.length / n.cls.instanceSize⟩

/-- The notices of one buffer, the latest first, and its class and length if it is there. -/
inductive Notice.Life (id : Nat) : Option (BufferClass × Nat) → List Notice → Prop where
  | none : Life id none []
  | born {c : BufferClass} {n : Nat} {stage : Stage} (whole : c.instanceSize ∣ n)
      (birth : stage ≠ .destructed) : Life id (some (c, n)) [⟨id, c, n, stage⟩]
  | died {c : BufferClass} {n : Nat} {stage : Stage} (birth : stage ≠ .destructed) :
      Life id none [⟨id, c, n, .destructed⟩, ⟨id, c, n, stage⟩]

/-- How many instances of the classes of one name come to a stage. -/
def Notice.total (name : String) (stage : Stage) (log : List Notice) : Nat :=
  (log.map fun n => if n.cls.name = name ∧ n.stage = stage then n.event.count else 0).sum

/-- The class of a buffer that has one, and its length. -/
def Payload.batch? : Payload → Option (BufferClass × Nat)
  | .buffer b => b.cls.map (·, b.bytes.length)
  | _ => none

def Aspect.batch? (a : Aspect) : Option (BufferClass × Nat) := a.payload.bind Payload.batch?

theorem Payload.batch?_of_kind {p : Payload} (solid : p.kind ≠ .buffer) : p.batch? = none := by
  cases p with
  | buffer b => exact absurd rfl solid
  | string _ | array _ | mapping _ | function _ _ => rfl

namespace Heap

variable {h h' : Heap} {log : List Notice} {id : Nat} {l : ListId} {c : BufferClass} {n : Nat}
  {f : Nat → Aspect → Aspect} {a : Aspect}

def batch? (h : Heap) (id : Nat) : Option (BufferClass × Nat) := (h.aspect? id).bind Aspect.batch?

/-- How many instances of the classes of one name are in buffers that have not been freed. -/
def population (h : Heap) (name : String) : Nat :=
  ∑ id ∈ Finset.range h.cells.size, match h.batch? id with
    | some (c, n) => if c.name = name then n / c.instanceSize else 0
    | none => 0

/-- The books on the instances of a heap, the latest first. -/
structure Books (h : Heap) (log : List Notice) : Prop where
  events : h.events = log.map Notice.event
  lives : ∀ id, Notice.Life id (h.batch? id) (log.filter (·.id = id))
  within : ∀ n ∈ log, n.id < h.cells.size

theorem batch?_eq (h : Heap) (id : Nat) : h.batch? id = (h.payload? id).bind Payload.batch? := by
  rw [payload?_eq, batch?, bind_assoc]
  rfl

theorem batch?_buffer {b : Buffer} (found : h.payload? id = some (.buffer b)) (isClass : b.cls = some c) :
    h.batch? id = some (c, b.bytes.length) := by
  rw [batch?_eq, found, bind_some, Payload.batch?, isClass, map_some]

/-! ### The balance -/

/-- What is on record is the sum of what is on record for each buffer. -/
theorem sum_total (name : String) (stage : Stage) (within : ∀ n ∈ log, n.id < size) :
    ∑ id ∈ Finset.range size, Notice.total name stage (log.filter (·.id = id)) =
      Notice.total name stage log := by
  induction log with
  | nil => simp [Notice.total]
  | cons n rest ih =>
    rw [List.forall_mem_cons] at within
    have apart : ∀ id, Notice.total name stage ((n :: rest).filter (·.id = id)) =
        (if n.id = id then Notice.total name stage [n] else 0) +
          Notice.total name stage (rest.filter (·.id = id)) := by
      intro id
      by_cases here : n.id = id <;> simp [Notice.total, here]
    rw [Finset.sum_congr rfl fun id _ => apart id, Finset.sum_add_distrib, ih within.2,
      Finset.sum_ite_eq, if_pos (Finset.mem_range.mpr within.1)]
    simp [Notice.total]

theorem events_adopt (h : Heap) (l : ListId) (id : Nat) : (h.adopt l id).events = h.events := by
  unfold adopt
  split <;> rfl

namespace Books

variable (books : h.Books log)
include books

theorem tally_eq (name : String) (stage : Stage) :
    h.tally name stage = Notice.total name stage log := by
  rw [tally, books.events, Notice.total, List.sum_eq_foldl, List.foldl_map, List.foldl_filter,
    List.foldl_map]
  congr 1
  funext x n
  by_cases counts : n.cls.name = name ∧ n.stage = stage <;> simp [Notice.event, counts]

/-- What has been constructed or copied has been destructed or is there. -/
theorem balance (name : String) : h.tally name .constructed + h.tally name .copied =
    h.tally name .destructed + h.population name := by
  simp only [books.tally_eq, ← sum_total name _ books.within, population, ← Finset.sum_add_distrib]
  refine Finset.sum_congr rfl fun id _ => ?_
  have life := books.lives id
  generalize log.filter (·.id = id) = notices, h.batch? id = batch at life
  cases life with
  | none => rfl
  | @born c _ stage _ birth | @died c _ stage birth =>
    by_cases named : c.name = name <;>
      cases stage <;> simp [Notice.total, Notice.event, named] at birth ⊢

/-! ### Births and deaths -/

/-- A buffer with a class was born as it is. -/
theorem born (found : h.batch? id = some (c, n)) : c.instanceSize ∣ n ∧
    ∃ stage, stage ≠ .destructed ∧ log.filter (·.id = id) = [⟨id, c, n, stage⟩] := by
  have life := books.lives id
  rw [found] at life
  generalize log.filter (·.id = id) = notices at life
  cases life with
  | born whole birth => exact ⟨whole, _, birth, rfl⟩

theorem quiet (events : h'.events = h.events) (size : h.cells.size ≤ h'.cells.size)
    (same : ∀ id, h'.batch? id = h.batch? id) : h'.Books log where
  events := events.trans books.events
  lives id := same id ▸ books.lives id
  within n listed := (books.within n listed).trans_le size

theorem mapped (events : h'.events = h.events) (seen : ∀ i, h'.aspect? i = (h.aspect? i).map (f i))
    (kept : ∀ i a, h.aspect? i = some a → (f i a).batch? = a.batch?) : h'.Books log := by
  refine books.quiet events (size_eq_of_mapped seen).ge fun id => ?_
  rw [batch?, seen, batch?]
  cases found : h.aspect? id with
  | none => rfl
  | some a => exact kept id a found

/-- A new payload without instances changes nothing. -/
theorem extended (events : h'.events = h.events) (extended : h.Extended a h')
    (solid : a.batch? = none) : h'.Books log := by
  refine books.quiet events (by rw [extended.cells]; omega) fun id => ?_
  rw [batch?, extended.seen, batch?]
  split
  · rename_i new
    rw [aspect?_eq_none.mpr new.ge]
    exact solid
  · rfl

/-- A new buffer with as many instances as have been recorded is born. -/
theorem birth {stage : Stage} (isBirth : stage ≠ .destructed) (whole : c.instanceSize ∣ n)
    (events : h'.events = Notice.event ⟨h.cells.size, c, n, stage⟩ :: h.events)
    (extended : h.Extended a h') (batch : a.batch? = some (c, n)) :
    h'.Books (⟨h.cells.size, c, n, stage⟩ :: log) where
  events := by rw [events, books.events, List.map_cons]
  lives i := by
    rw [batch?, extended.seen]
    by_cases here : i = h.cells.size
    · have none : log.filter (·.id = i) = [] := List.filter_eq_nil_iff.mpr fun n listed => by
        simpa [here] using (books.within n listed).ne
      rw [List.filter_cons_of_pos (by simp [here]), none, if_pos here, bind_some, batch, ← here]
      exact .born whole isBirth
    · rw [List.filter_cons_of_neg (by simpa using Ne.symm here), if_neg here]
      exact books.lives i
  within := by
    rw [extended.cells]
    exact List.forall_mem_cons.mpr
      ⟨Nat.lt_succ_self _, fun n listed => Nat.lt_succ_of_lt (books.within n listed)⟩

/-- What is freed dies, if it has instances. -/
theorem free (id : Nat) : ∃ log, (h.free id).Books log := by
  have seen := aspect?_free h id
  have events : (h.free id).events = match h.batch? id with
      | some (c, n) => Notice.event ⟨id, c, n, .destructed⟩ :: h.events
      | none => h.events := by
    rw [batch?_eq, Heap.free]
    cases h.payload? id with
    | none => rfl
    | some p =>
      cases p with
      | buffer b => cases isClass : b.cls <;>
          simp [record, Payload.batch?, isClass, Buffer.instanceCount, Notice.event, modifyCell]
      | string _ | array _ | mapping _ | function _ _ => rfl
  cases found : h.batch? id with
  | none =>
    rw [found] at events
    refine ⟨log, books.mapped events seen fun i a before => ?_⟩
    split
    · rename_i here
      rw [batch?, ← here, before, bind_some] at found
      exact found.symm
    · rfl
  | some known =>
    obtain ⟨c, n⟩ := known
    obtain ⟨-, stage, birth, notices⟩ := books.born found
    rw [found] at events
    refine ⟨⟨id, c, n, .destructed⟩ :: log, ?_, fun i => ?_, ?_⟩
    · rw [events, books.events, List.map_cons]
    · rw [batch?, seen]
      by_cases here : i = id
      · rw [here, List.filter_cons_of_pos (by simp), notices]
        have gone : ((h.aspect? id).map fun a => if id = id then a.freed else a).bind Aspect.batch? =
            none := by
          cases h.aspect? id <;> simp [Aspect.batch?, Aspect.freed]
        rw [gone]
        exact .died birth
      · simp only [here, if_false, map_id']
        rw [List.filter_cons_of_neg (by simpa using Ne.symm here)]
        exact books.lives i
    · rw [size_cells_free]
      refine List.forall_mem_cons.mpr ⟨?_, books.within⟩
      have listed : (⟨id, c, n, stage⟩ : Notice) ∈ log.filter (·.id = id) := notices ▸ .head _
      exact books.within ⟨id, c, n, stage⟩ (List.mem_of_mem_filter listed)

theorem freeEach (ids : List Nat) : ∃ log, (h.freeEach ids).Books log := by
  induction ids generalizing h log with
  | nil => exact ⟨log, books⟩
  | cons id rest ih =>
    obtain ⟨log, books⟩ := books.free id
    exact ih books

theorem takeAll (sane : h.Consistent) (l : ListId) : (h.takeAll l).2.Books log := by
  have events : (h.takeAll l).2.events = h.events :=
    view_foldl Heap.events (fun _ _ => by rfl) (h.members l) h
  refine books.mapped events (sane.aspect?_takeAll l) fun i a _ => ?_
  unfold Aspect.released
  split <;> rfl

theorem adoptAll (l : ListId) (ids : List Nat) : (h.adoptAll l ids).Books log := by
  refine books.mapped (view_foldl Heap.events (events_adopt · l ·) ids h) (aspect?_adoptAll h l ids)
    fun i a _ => ?_
  unfold Aspect.adopted
  split_ifs <;> rfl

end Books

/-! ### What is done with payloads -/

/-- The books are in order, buffers with a class are owned, and there are that many lists at least. -/
structure Tended (h : Heap) (count : Nat) : Prop where
  sound : h.Sound
  lists : count ≤ h.lists.size
  books : ∃ log, h.Books log
  housed : ∀ {id : Nat} {a : Aspect}, h.aspect? id = some a → a.batch?.isSome → a.owner.isSome

namespace Tended

variable {count : Nat} (tended : h.Tended count)
include tended

theorem mapped (change : h.Change h') (books : ∃ log, h'.Books log)
    (seen : ∀ i, h'.aspect? i = (h.aspect? i).map (f i))
    (kept : ∀ i a, h.aspect? i = some a → (f i a).batch?.isSome →
      a.batch?.isSome ∧ (a.owner.isSome → (f i a).owner.isSome)) : h'.Tended count where
  sound := change.sound tended.sound
  lists := tended.lists.trans (change.size_le tended.sound).2
  books := books
  housed {i a'} found batch := by
    rw [seen] at found
    obtain ⟨a, before, rfl⟩ := map_eq_some_iff.mp found
    obtain ⟨batch, owned⟩ := kept i a before batch
    exact owned (tended.housed before batch)

/-- Nothing becomes of owners and instances. -/
theorem quiet (change : h.Change h') (events : h'.events = h.events)
    (seen : ∀ i, h'.aspect? i = (h.aspect? i).map (f i))
    (kept : ∀ i a, h.aspect? i = some a → (f i a).batch? = a.batch? ∧ (f i a).owner = a.owner) :
    h'.Tended count := by
  refine tended.mapped change ?_ seen fun i a found batch => ?_
  · exact tended.books.imp fun _ books => books.mapped events seen fun i a found => (kept i a found).1
  · rwa [(kept i a found).1, (kept i a found).2, imp_self, and_true] at *

theorem note (v : Value) : (h.note v).Tended count := by
  refine tended.quiet (.note h v) ?_ (aspect?_note h v) fun i a _ => ?_
  · unfold Heap.note Heap.keepDigest
    split <;> rfl
  · split <;> exact ⟨rfl, rfl⟩

theorem forgetDigest (id : Nat) : (h.forgetDigest id).Tended count :=
  tended.quiet (.forgetDigest h id) rfl (aspect?_forgetDigest h id) fun i a _ => by
    split <;> exact ⟨rfl, rfl⟩

/-- A payload is replaced by one that has as many instances of the same class. -/
theorem write {old payload : Payload} (found : h.payload? id = some old)
    (same : payload.batch? = old.batch?) : (h.write id payload).Tended count := by
  refine tended.quiet (.write h id payload) rfl (aspect?_write h id payload) fun i a before => ?_
  split
  · rename_i here
    rw [← here, payload?_eq, before, bind_some] at found
    rw [Aspect.batch?, Aspect.batch?, found]
    exact ⟨same, rfl⟩
  · exact ⟨rfl, rfl⟩

theorem writeSolid {old payload : Payload} (found : h.payload? id = some old)
    (same : payload.kind = old.kind) (solid : old.kind ≠ .buffer) : (h.write id payload).Tended count :=
  tended.write found (by rw [Payload.batch?_of_kind solid, Payload.batch?_of_kind (same ▸ solid)])

theorem append {target : ListId} (valid : target.number < h.lists.size) (source : ListId) :
    (h.append target source).Tended count := by
  have sane := tended.sound.consistent
  obtain ⟨log, books⟩ := tended.books
  refine tended.mapped (.append valid source) ⟨log, (books.takeAll sane source).adoptAll _ _⟩
    (sane.aspect?_append target source) fun i a _ batch => ?_
  unfold Aspect.moved at batch ⊢
  split at batch
  · exact ⟨batch, fun _ => by simp [*]⟩
  · exact ⟨batch, by simp [*]⟩

theorem freeAll (l : ListId) : (h.freeAll l).Tended count := by
  have sane := tended.sound.consistent
  obtain ⟨log, books⟩ := tended.books
  refine tended.mapped (.freeAll h l) ((books.takeAll sane l).freeEach _)
    (sane.aspect?_freeAll l) fun i a _ batch => ?_
  unfold Aspect.cleared at batch ⊢
  split at batch
  · cases batch
  · exact ⟨batch, by simp [*]⟩

theorem collect (l : ListId) (roots : List Value) : (h.collect l roots).2.Tended count := by
  classical
  have sane := tended.sound.consistent
  obtain ⟨log, books⟩ := tended.books
  obtain ⟨marked, waiting, -, -, result, -⟩ := sane.collect_parts l roots
  obtain ⟨log, books⟩ := ((books.takeAll sane l).adoptAll l marked).freeEach waiting
  refine tended.mapped (.collect h l roots) ⟨log, result ▸ books.quiet rfl le_rfl fun _ => rfl⟩
    (fun i => sane.aspect?_collect l roots i) fun i a _ batch => ?_
  split at batch
  · cases batch
  · exact ⟨batch, by simp [*]⟩

/-- A new payload has no instances, or its owner has it from birth. -/
theorem extended (changes : h.Changes h') (extended : h.Extended a h')
    (books : ∀ log, h.Books log → ∃ log, h'.Books log) (owned : a.batch?.isSome → a.owner.isSome) :
    h'.Tended count where
  sound := changes.sound tended.sound
  lists := tended.lists.trans (changes.size_le tended.sound).2
  books := tended.books.elim books
  housed {i a'} found batch := by
    rw [extended.seen] at found
    split at found
    · cases found
      exact owned batch
    · exact tended.housed found batch

theorem solid (changes : h.Changes h') (extended : h.Extended a h') (events : h'.events = h.events)
    (solid : a.batch? = none) : h'.Tended count :=
  tended.extended changes extended (fun log books => ⟨log, books.extended events extended solid⟩)
    (by simp [solid])

theorem place (valid : l.number < h.lists.size) {payload : Payload} (solid : payload.batch? = none) :
    (h.place l payload).2.Tended count :=
  tended.solid (place_changes valid payload) (extended_place h l payload) (events_adopt _ _ _) solid

/-- Instances that are recorded are born into the list that takes their buffer. -/
theorem birth (valid : l.number < h.lists.size) {stage : Stage} (isBirth : stage ≠ .destructed)
    {source b : Buffer} (isClass : source.cls = some c) (same : b.cls = some c)
    (whole : (∃ log, h.Books log) →
      c.instanceSize ∣ b.bytes.length ∧ source.bytes.length = b.bytes.length) :
    ((h.record stage source).place l (.buffer b)).2.Tended count := by
  have extended : h.Extended ⟨some (.buffer b), false, false, some l, none⟩
      ((h.record stage source).place l (.buffer b)).2 := by
    have placed := extended_place (h.record stage source) l (.buffer b)
    exact ⟨by simpa using placed.cells, by simpa using placed.lists, by simpa using placed.seen⟩
  refine tended.extended (.head (.record h stage source) (place_changes (by rwa [lists_record]) _))
    extended (fun log books => ?_) fun _ => rfl
  obtain ⟨whole, length⟩ := whole ⟨log, books⟩
  refine ⟨_, books.birth isBirth whole ?_ extended (by simp [Aspect.batch?, Payload.batch?, same])⟩
  rw [← length]
  refine (events_adopt _ _ _).trans ?_
  simp [record, isClass, Notice.event, Buffer.instanceCount]

/-- A copy of a buffer has as many instances. -/
theorem duplicate (valid : l.number < h.lists.size) {b : Buffer}
    (found : h.payload? id = some (.buffer b)) :
    ((h.record .copied b).place l (.buffer b.duplicate)).2.Tended count := by
  cases isClass : b.cls with
  | none =>
    have plain : h.record .copied b = h := by simp [record, isClass]
    rw [plain]
    exact tended.place valid (by simp [Payload.batch?, Buffer.duplicate, isClass])
  | some c =>
    refine tended.birth valid (by decide) isClass (by simp [Buffer.duplicate, isClass]) ?_
    rintro ⟨log, books⟩
    have whole := (books.born (batch?_buffer found isClass)).1
    rw [Buffer.length_duplicate isClass whole]
    exact ⟨whole, rfl⟩

theorem enter (entries : List (Value × Value)) : (h.enter entries).2.Tended count :=
  List.foldlRecOn (motive := fun r : List Entry × Heap => r.2.Tended count) entries _ tended
    fun _ tended e _ => tended.note e.1

/-- Payloads are made as they are drafted; those with instances are owned. -/
theorem make {ownership : Ownership} {draft : Draft}
    (valid : ∀ l, ownership = .owned l → l.number < h.lists.size)
    (housed : ∀ c count, draft = .instances c count → ∃ l, ownership = .owned l) :
    (h.make ownership draft).2.Tended count := by
  by_cases classed : ∃ c count, draft = .instances c count
  · obtain ⟨c, count, rfl⟩ := classed
    obtain ⟨l, rfl⟩ := housed c count rfl
    exact tended.birth (valid l rfl) (by decide) rfl rfl fun _ => ⟨by simp [Buffer.ofClass], rfl⟩
  · have grown := ((draftPayload_serves ⟨0⟩ h draft).changes.size_le tended.sound).2
    obtain ⟨tended, solid⟩ : (h.draftPayload draft).2.Tended count ∧
        (h.draftPayload draft).1.batch? = none := by
      cases draft with
      | instances c count => exact absurd ⟨c, count, rfl⟩ classed
      | mapping entries => exact ⟨tended.enter entries, rfl⟩
      | string _ | buffer _ | array _ | function _ _ => exact ⟨tended, rfl⟩
    unfold Heap.make
    cases ownership with
    | owned l => exact tended.place ((valid l rfl).trans_le grown) solid
    | loose | exempt _ => exact tended.solid (.single (.create ..)) (extended_create ..) rfl solid

end Tended

/-- Motions that keep the books in order. -/
def tending (count : Nat) : Motion Heap where
  Ready h := h.Tended count
  Leads h h' := h.Tended count → h'.Tended count
  refl _ tended := tended
  trans first second := second ∘ first
  ready ready leads := leads ready

theorem tending_edits (count : Nat) {stores : Nat → Value → Prop} {overwrites : Nat → Prop} :
    (tending count).Edits stores overwrites where
  write _ _ _ _ _ found same solid _ _ tended := tended.writeSolid found same solid
  bytes _ _ _ _ _ found length _ tended := tended.write found (by simp [Payload.batch?, length])
  note _ v _ tended := tended.note v
  forget _ id _ tended := tended.forgetDigest id

theorem tending_shapes (valid : l.number < count) : (tending count).Shapes l fun _ => True where
  place _ _ _ solid tended :=
    tended.place (valid.trans_le tended.lists) (Payload.batch?_of_kind solid)
  duplicate _ _ _ _ found tended := tended.duplicate (valid.trans_le tended.lists) found
  new _ _ := trivial
  write _ _ _ _ _ _ found same solid tended := tended.writeSolid found same solid
  note _ v _ tended := tended.note v

/-- Whatever is done with values, the books stay in order. -/
theorem Tended.operate (tended : h.Tended 0) {op : Operation}
    (valid : ∀ l, op.list? = some l → l.number < h.lists.size) : (left (op.run h)).Tended 0 := by
  have ready : h.Tended h.lists.size := { tended with lists := le_rfl }
  have after := (tending_edits h.lists.size).operation_leads ready
    (fun l takes => (tending_shapes (valid l takes)).operation_leads takes ready)
    (fun l roots _ tended => tended.collect l roots) ready
  exact { after with lists := Nat.zero_le _ }

/-! ### Histories -/

/-- What is done with payloads, value lists and domains. Buffers with a class are made for lists. -/
inductive Handling (h : Heap) : Heap → Prop where
  | make (ownership : Ownership) (draft : Draft)
      (list : ∀ l, ownership = .owned l → l.number < h.lists.size)
      (housed : ∀ c count, draft = .instances c count → ∃ l, ownership = .owned l) :
      Handling h (h.make ownership draft).2
  | operate (op : Operation) (list : ∀ l, op.list? = some l → l.number < h.lists.size) :
      Handling h (left (op.run h))
  | newList : Handling h h.newList.2
  | append {target : ListId} (list : target.number < h.lists.size) (source : ListId) :
      Handling h (h.append target source)
  | freeAll (l : ListId) : Handling h (h.freeAll l)
  | destroyDomain {w w' : World} (here : w.heap = h) (id : DomainId)
      (destroyed : w.destroyDomain id = .ok w') : Handling h w'.heap

theorem Handling.tended (handling : h.Handling h') (tended : h.Tended 0) : h'.Tended 0 := by
  cases handling with
  | make ownership draft list housed => exact tended.make list housed
  | operate op list => exact tended.operate list
  | newList =>
    exact tended.quiet (.newList h) rfl (fun i => by simp; rfl) fun _ _ _ => ⟨rfl, rfl⟩
  | append list source => exact tended.append list source
  | freeAll l => exact tended.freeAll l
  | destroyDomain here id destroyed =>
    subst here
    rcases World.destroyDomain_cases destroyed with rfl | ⟨k, -, rfl⟩
    · exact tended
    · exact tended.freeAll _

/-- Buffers that are owned are not lost, and neither are their instances. -/
theorem Tended.lostInstances_eq (tended : h.Tended 0) (name : String) (outside : List Value) :
    h.lostInstances name outside = 0 := by
  unfold lostInstances
  refine List.foldlRecOn (motive := (· = 0)) _ _ rfl fun n none id isLost => ?_
  subst none
  split
  · rename_i b found
    cases isClass : b.cls with
    | none => rfl
    | some c =>
      have batch := batch?_buffer found isClass
      obtain ⟨a, seen, batch⟩ := bind_eq_some_iff.mp batch
      have owned := tended.housed seen (by simp [batch])
      have bound : (h.owner? id).isSome := by rwa [owner?_eq, seen, bind_some]
      rw [owner?, isSome_map] at bound
      exact absurd isLost (not_lost_of_bound bound)
  · rfl

/-- The accounts of the instances in a heap, whoever else refers to its payloads. -/
structure Accounts (h : Heap) : Prop where
  /-- What was constructed or copied has been destructed or is there. -/
  balance : ∀ name outside, ∃ constructed copied destructed,
    h.lifetimes name outside =
      [(.constructed, constructed), (.copied, copied), (.destructed, destructed)] ∧
    constructed + copied = destructed + h.population name
  /-- Nothing is destructed that was not born before, and nothing twice. -/
  books : ∃ log, h.Books log
  length : ∀ id b c, h.payload? id = some (.buffer b) → b.cls = some c →
    b.bytes.length = c.instanceSize * b.instanceCount

/-- Whatever is done with payloads, lists and domains, instances are conserved. -/
theorem instances_conserved (handled : ReflTransGen Handling {} h) : h.Accounts := by
  have tended : h.Tended 0 := by
    induction handled with
    | refl =>
      exact ⟨sound_empty, le_rfl, ⟨[], rfl, fun _ => .none, by simp⟩, by simp [aspect?]⟩
    | tail _ handling ih => exact handling.tended ih
  obtain ⟨log, books⟩ := tended.books
  refine ⟨fun name outside => ⟨_, _, _, rfl, ?_⟩, ⟨log, books⟩, fun id b c found isClass => ?_⟩
  · rw [tended.lostInstances_eq, Nat.add_zero]
    exact books.balance name
  · rw [Buffer.instanceCount, isClass]
    exact (Nat.mul_div_cancel' (books.born (batch?_buffer found isClass)).1).symm

/-- Two instances in a buffer, an array that refers to it twice, and a copy of the array in the other
list. A byte of the copied buffer has been overwritten, and then the first list was freed. -/
def raised : Heap :=
  let made := (({} : Heap).newList.2.newList.2.make (.owned ⟨0⟩)
    (.instances (.filled "counted" 3 7 1) 2)).2
  let paired := (made.make (.owned ⟨0⟩) (.array [.ref ⟨.buffer, 0⟩, .ref ⟨.buffer, 0⟩])).2
  let copied := left ((Operation.copyAll ⟨1⟩ [.ref ⟨.array, 1⟩]).run paired)
  (left ((Operation.set (.ref ⟨.buffer, 3⟩) (.integer 0) (.integer 9)).run copied)).freeAll ⟨0⟩

theorem raised_handled : ReflTransGen Handling {} raised := by
  have opened : ReflTransGen Handling {} _ := .tail (.single .newList) .newList
  have made := opened.tail (.make (.owned ⟨0⟩) (.instances (.filled "counted" 3 7 1) 2)
    (by rintro l ⟨⟩; decide) fun _ _ _ => ⟨⟨0⟩, rfl⟩)
  have paired := made.tail (.make (.owned ⟨0⟩) (.array [.ref ⟨.buffer, 0⟩, .ref ⟨.buffer, 0⟩])
    (by rintro l ⟨⟩; decide) fun _ _ _ => ⟨⟨0⟩, rfl⟩)
  have copied := paired.tail (.operate (.copyAll ⟨1⟩ [.ref ⟨.array, 1⟩]) (by rintro l ⟨⟩; decide))
  exact (copied.tail (.operate (.set (.ref ⟨.buffer, 3⟩) (.integer 0) (.integer 9)) (by rintro l ⟨⟩))).tail
    (.freeAll ⟨0⟩)

theorem instances_of_raised_conserved : ReflTransGen Handling {} raised ∧
    raised.lifetimes "counted" [] = [(.constructed, 2), (.copied, 2), (.destructed, 2)] ∧
    raised.population "counted" = 2 ∧ raised.Accounts :=
  ⟨raised_handled, by decide +kernel, by decide +kernel, instances_conserved raised_handled⟩

end Heap

end Tenancy
