import Tenancy.Proofs.Resemblance
import Tenancy.Proofs.Unowned

/-!
Values as text.

The text of a value is determined by rules that know nothing of depths: a container is cut off where it
occurs below itself, and is written out everywhere else, however often it occurs. There is one text for
every value, cyclic or not, and it is what rendering gives. A copy shares and cycles as its source does,
so it has the text of its source.
-/

namespace Tenancy

open Tenancy.Action List Heap

def Payload.IsContainer : Payload → Prop
  | .array _ | .mapping _ => True
  | _ => False

namespace Heap

variable {h h' : Heap} {nested : Bool} {path path' : List Nat} {v c : Value} {s t : String} {fuel : Nat}

/-- The text of a value below the containers on `path`. -/
inductive Renders (h : Heap) : Bool → List Nat → Value → String → Prop where
  | nil {nested : Bool} {path : List Nat} : Renders h nested path .nil "nil"
  | integer {nested : Bool} {path : List Nat} {i : Int64} :
      Renders h nested path (.integer i) (toString i.toInt)
  | real {nested : Bool} {path : List Nat} {r : Binary64} : Renders h nested path (.real r) r.text
  | object {nested : Bool} {path : List Nat} {id : ObjectId} :
      Renders h nested path (.object id) s!"<object {id.text}>"
  | freed {nested : Bool} {path : List Nat} {r : Ref} (gone : h.payload? r.id = none) :
      Renders h nested path (.ref r) "<freed>"
  | string {nested : Bool} {path : List Nat} {r : Ref} {text : String}
      (found : h.payload? r.id = some (.string text)) :
      Renders h nested path (.ref r) (if nested then Text.quote text else text)
  | buffer {nested : Bool} {path : List Nat} {r : Ref} {b : Buffer}
      (found : h.payload? r.id = some (.buffer b)) :
      Renders h nested path (.ref r) s!"<buffer {b.bytes.length} bytes>"
  | function {nested : Bool} {path : List Nat} {r : Ref} {object : ObjectId} {name : String}
      (found : h.payload? r.id = some (.function object name)) :
      Renders h nested path (.ref r) s!"<function {name}@{object.text}>"
  | cycle {nested : Bool} {path : List Nat} {r : Ref} {p : Payload} (found : h.payload? r.id = some p)
      (container : p.IsContainer) (below : r.id ∈ path) : Renders h nested path (.ref r) "<cycle>"
  | array {nested : Bool} {path : List Nat} {r : Ref} {items : List Value} {texts : Value → String}
      (found : h.payload? r.id = some (.array items)) (outermost : r.id ∉ path)
      (each : ∀ v ∈ items, Renders h true (r.id :: path) v (texts v)) :
      Renders h nested path (.ref r) ("(\x7b " ++ ", ".intercalate (items.map texts) ++ " \x7d)")
  | mapping {nested : Bool} {path : List Nat} {r : Ref} {entries : List Entry}
      {texts : Value → String} (found : h.payload? r.id = some (.mapping entries))
      (outermost : r.id ∉ path)
      (keys : ∀ e ∈ entries, Renders h true (r.id :: path) e.key (texts e.key))
      (values : ∀ e ∈ entries, Renders h true (r.id :: path) e.value (texts e.value)) :
      Renders h nested path (.ref r) ("([ " ++ ", ".intercalate
        (entries.map fun e => texts e.key ++ ": " ++ texts e.value) ++ " ])")

/-! ### One text for every value -/

theorem Renders.eq (first : h.Renders nested path v s) (second : h.Renders nested path v t) :
    t = s := by
  induction first generalizing t with
  | nil | integer | real | object =>
    cases second
    rfl
  | freed gone => cases second <;> simp_all
  | string found | buffer found | function found => cases second <;> simp_all [Payload.IsContainer]
  | @cycle nested path r p found container below =>
    cases p with
    | string | buffer | function => cases container
    | array | mapping => cases second <;> simp_all
  | @array nested path r items texts found outermost each ih =>
    cases second with
    | @array _ _ _ items' texts' found' _ each' =>
      rw [found] at found'
      cases found'
      rw [map_congr_left fun v mem => ih v mem (each' v mem)]
    | cycle _ _ below => exact absurd below outermost
    | freed other | string other | buffer other | function other | mapping other =>
      rw [found] at other
      cases other
  | @mapping nested path r entries texts found outermost _ _ ihKey ihValue =>
    cases second with
    | @mapping _ _ _ entries' texts' found' _ keys' values' =>
      rw [found] at found'
      cases found'
      rw [map_congr_left fun e mem => by
        rw [ihKey e mem (keys' e mem), ihValue e mem (values' e mem)]]
    | cycle _ _ below => exact absurd below outermost
    | freed other | string other | buffer other | function other | array other =>
      rw [found] at other
      cases other

section

variable (distinct : path.Nodup) (within : ∀ id ∈ path, id < h.cells.size)
include distinct within

theorem length_path_le : path.length ≤ h.cells.size := by
  have among : path ⊆ range h.cells.size := fun id mem =>
    mem_range.mpr (within id mem)
  simpa using (subperm_of_subset distinct among).length_le

theorem renders_render (enough : h.cells.size < fuel + path.length) :
    h.Renders nested path v (h.render fuel nested path v) := by
  induction fuel generalizing nested path v with
  | zero =>
    have := length_path_le distinct within
    omega
  | succ fuel ih =>
    cases v with
    | nil => exact .nil
    | integer i => exact .integer
    | real r => exact .real
    | object id => exact .object
    | ref r =>
      -- What a container holds is rendered one deeper, with one payload more on the path.
      have deeper : ∀ v, (h.payload? r.id).isSome → r.id ∉ path →
          h.Renders true (r.id :: path) v (h.render fuel true (r.id :: path) v) := by
        intro v live outermost
        refine ih (nodup_cons.mpr ⟨outermost, distinct⟩) (fun id mem => ?_) ?_
        · rcases mem_cons.mp mem with rfl | mem
          · exact within_of_live live
          · exact within id mem
        · rw [length_cons]
          omega
      cases found : h.payload? r.id with
      | none =>
        simp only [render, found]
        exact .freed found
      | some p =>
        rw [found, Option.isSome_some] at deeper
        cases p with
        | string text =>
          simp only [render, found]
          exact .string found
        | buffer b =>
          simp only [render, found]
          exact .buffer found
        | function object name =>
          simp only [render, found]
          exact .function found
        | array items =>
          simp only [render, found, contains_eq_mem, decide_eq_true_eq]
          split
          · exact .cycle found trivial ‹_›
          · exact .array found ‹_› fun v _ => deeper v rfl ‹_›
        | mapping entries =>
          simp only [render, found, contains_eq_mem, decide_eq_true_eq]
          split
          · exact .cycle found trivial ‹_›
          · exact .mapping found ‹_› (fun e _ => deeper e.key rfl ‹_›)
              fun e _ => deeper e.value rfl ‹_›

end

theorem renders_iff (enough : h.cells.size < fuel) :
    h.Renders nested [] v s ↔ s = h.render fuel nested [] v := by
  have rendered : h.Renders nested [] v (h.render fuel nested [] v) :=
    renders_render .nil (by simp) (by simpa using enough)
  constructor
  · exact rendered.eq
  · rintro rfl
    exact rendered

theorem renders_cycle_iff (found : h.payload? r.id = some p)
    (container : p.IsContainer) : h.Renders nested path (.ref r) "<cycle>" ↔ r.id ∈ path := by
  constructor
  · intro rendered
    generalize cut : "<cycle>" = s at rendered
    cases rendered with
    | cycle _ _ below => exact below
    | array | mapping =>
      have opening := congrArg (fun text => text.toList.head?) cut
      simp at opening
    | freed other =>
      rw [found] at other
      cases other
    | string other | buffer other | function other =>
      rw [found] at other
      cases other
      cases container
  · exact .cycle found container

theorem Renders.inside (rendered : h.Renders nested path v s)
    (apart : ∀ id ∈ outer, ¬ h.Accessible v id) : h.Renders nested (path ++ outer) v s := by
  induction rendered with
  | nil => exact .nil
  | integer => exact .integer
  | real => exact .real
  | object => exact .object
  | freed gone => exact .freed gone
  | string found => exact .string found
  | buffer found => exact .buffer found
  | function found => exact .function found
  | cycle found container below => exact .cycle found container (mem_append_left _ below)
  | @array nested path r items texts found outermost each ih =>
    refine .array found ?_ fun v mem => ih v mem fun id enclosing accessible => ?_
    · rw [mem_append]
      rintro (inner | enclosing)
      · exact outermost inner
      · exact apart _ enclosing (.here rfl)
    · exact apart id enclosing (.child ⟨_, found, .item mem⟩ accessible)
  | @mapping nested path r entries texts found outermost keys values ihKey ihValue =>
    refine .mapping found ?_ (fun e mem => ihKey e mem fun id enclosing accessible => ?_)
      fun e mem => ihValue e mem fun id enclosing accessible => ?_
    · rw [mem_append]
      rintro (inner | enclosing)
      · exact outermost inner
      · exact apart _ enclosing (.here rfl)
    · exact apart id enclosing (.child ⟨_, found, .key mem⟩ accessible)
    · exact apart id enclosing (.child ⟨_, found, .value mem⟩ accessible)

structure Written (h : Heap) : Prop where
  text : ∀ v s, h.Renders false [] v s ↔ s = h.text v
  describe : ∀ v s, h.Renders true [] v s ↔ s = h.describe v
  /-- A container is cut off where it occurs below itself and nowhere else. -/
  cut : ∀ nested path r p, h.payload? r.id = some p → p.IsContainer →
    (h.Renders nested path (.ref r) "<cycle>" ↔ r.id ∈ path)
  /-- What does not lead back to the containers that it is in is written out, wherever it occurs. -/
  full : ∀ path v s, (∀ id ∈ path, ¬ h.Accessible v id) →
    (h.Renders true path v s ↔ s = h.describe v)

theorem written (h : Heap) : h.Written := by
  have describe : ∀ v s, h.Renders true [] v s ↔ s = h.describe v := fun v s =>
    renders_iff (by omega)
  refine ⟨fun v s => renders_iff (by omega), describe,
    fun nested path r p found container => renders_cycle_iff found container,
    fun path v s apart => ?_⟩
  have below : h.Renders true path v (h.describe v) := by
    simpa using ((describe v _).mpr rfl).inside apart
  constructor
  · exact below.eq
  · rintro rfl
    exact below

end Heap

/-! ### Heaps that run in parallel -/

theorem map_eq_of_forall2 {xs : List α} {ys : List β} (each : xs.Forall₂ R ys)
    (agree : ∀ x y, R x y → g y = f x) : ys.map g = xs.map f := by
  induction each with
  | nil => rfl
  | cons first _ ih => rw [map_cons, map_cons, agree _ _ first, ih]

/-- Payloads that look alike, where `R` says which values do. -/
inductive Payload.Parallel (R : Value → Value → Prop) : Payload → Payload → Prop where
  | string (text : String) : Parallel R (.string text) (.string text)
  | buffer {b b' : Buffer} (length : b'.bytes.length = b.bytes.length) :
      Parallel R (.buffer b) (.buffer b')
  | array {items items' : List Value} (each : items.Forall₂ R items') :
      Parallel R (.array items) (.array items')
  | mapping {entries entries' : List Entry}
      (each : entries.Forall₂ (fun e e' => R e.key e'.key ∧ R e.value e'.value) entries') :
      Parallel R (.mapping entries) (.mapping entries')
  | function (object : ObjectId) (name : String) :
      Parallel R (.function object name) (.function object name)

theorem Payload.parallel_self (p : Payload) (held : ∀ v, p.Holds v → R v v) : p.Parallel R p := by
  cases p with
  | string text => exact .string text
  | buffer b => exact .buffer rfl
  | array items => exact .array (forall₂_same.mpr fun v mem => held v (.item mem))
  | mapping entries =>
    exact .mapping (forall₂_same.mpr fun e mem =>
      ⟨held _ (.key mem), held _ (.value mem)⟩)
  | function object name => exact .function object name

namespace Heap

variable {h h' : Heap} {R : Value → Value → Prop} {nested : Bool} {path path' : List Nat}
  {v c : Value} {fuel : Nat}

/-- Values that are related by `R` look alike, share and cycle alike. -/
structure Parallels (h h' : Heap) (R : Value → Value → Prop) : Prop where
  form : ∀ v c, R v c → v.ref? = none ∧ c = v ∨ ∃ r q, v = .ref r ∧ c = .ref q
  same : ∀ r q r' q', R (.ref r) (.ref q) → R (.ref r') (.ref q') → (q'.id = q.id ↔ r'.id = r.id)
  payload : ∀ r q, R (.ref r) (.ref q) →
    Option.Rel (Payload.Parallel R) (h.payload? r.id) (h'.payload? q.id)

namespace Parallels

theorem mem_path_iff (parallels : h.Parallels h' R) {r q : Ref} (rel : R (.ref r) (.ref q))
    (paths : path.Forall₂ (fun a b => ∃ k l, R (.ref ⟨k, a⟩) (.ref ⟨l, b⟩)) path') :
    q.id ∈ path' ↔ r.id ∈ path := by
  induction paths with
  | nil => simp
  | cons first _ ih =>
    obtain ⟨k, l, first⟩ := first
    rw [mem_cons, mem_cons, ih, parallels.same _ _ _ _ first rel]

theorem render_eq (parallels : h.Parallels h' R) (rel : R v c)
    (paths : path.Forall₂ (fun a b => ∃ k l, R (.ref ⟨k, a⟩) (.ref ⟨l, b⟩)) path') :
    h'.render fuel nested path' c = h.render fuel nested path v := by
  induction fuel generalizing nested path path' v c with
  | zero => rfl
  | succ fuel ih =>
    rcases parallels.form v c rel with ⟨scalar, rfl⟩ | ⟨r, q, rfl, rfl⟩
    · cases c with
      | ref r => cases scalar
      | nil | integer _ | real _ | object _ => rfl
    · have cut := parallels.mem_path_iff rel paths
      have deeper : ∀ v c, R v c → h'.render fuel true (q.id :: path') c =
          h.render fuel true (r.id :: path) v := fun v c held =>
        ih held (.cons ⟨_, _, rel⟩ paths)
      have payload := parallels.payload r q rel
      simp only [render, contains_eq_mem, cut]
      generalize h.payload? r.id = first at payload ⊢
      generalize h'.payload? q.id = second at payload ⊢
      cases payload with
      | none => rfl
      | some alike =>
        cases alike with
        | string | function => rfl
        | buffer length => simp only [length]
        | @array items items' each =>
          simp only [map_eq_of_forall2 each deeper]
        | @mapping entries entries' each =>
          have texts : entries'.map (fun e => h'.render fuel true (q.id :: path') e.key ++ ": "
                ++ h'.render fuel true (q.id :: path') e.value) =
              entries.map fun e => h.render fuel true (r.id :: path) e.key ++ ": "
                ++ h.render fuel true (r.id :: path) e.value :=
            map_eq_of_forall2 each fun e e' held => by
              rw [deeper _ _ held.1, deeper _ _ held.2]
          simp only [texts]

theorem shown_eq (parallels : h.Parallels h' R) (cells : h.cells.size ≤ h'.cells.size)
    (rel : R v c) : h'.text c = h.text v ∧ h'.describe c = h.describe v := by
  have shown : ∀ nested, h'.render (h'.cells.size + 2) nested [] c =
      h.render (h.cells.size + 2) nested [] v := by
    intro nested
    calc h'.render (h'.cells.size + 2) nested [] c
        = h.render (h'.cells.size + 2) nested [] v := parallels.render_eq rel .nil
      _ = h.render (h.cells.size + 2) nested [] v :=
          (renders_iff (by omega)).mp ((renders_iff (by omega)).mpr rfl)
  exact ⟨shown false, shown true⟩

end Parallels

end Heap

/-! ### A copy and its source -/

/-- What has to hold of all that is copied for the copies to look like their sources. -/
structure Heap.Legible (h : Heap) (values : List Value) : Prop where
  refers : ∀ v, h.Met values v → h.Refers v
  distinct : ∀ id entries, h.Drawn values id → h.payload? id = some (.mapping entries) →
    h.Distinct entries
  /-- Buffers of a class consist of whole instances, as they do when they are made. -/
  whole : ∀ id b cls, h.Drawn values id → h.payload? id = some (.buffer b) → b.cls = some cls →
    cls.instanceSize ∣ b.bytes.length

namespace Heap.Legible

variable {h : Heap} {values : List Value} {R : Value → Value → Prop} {p p' : Payload} {id : Nat}

theorem parallel (legible : h.Legible values) (drawn : h.Drawn values id)
    (source : h.payload? id = some p) (copied : p.Copied h R p') : p.Parallel R p' := by
  cases copied with
  | string text => exact .string text
  | buffer b =>
    refine .buffer ?_
    cases isClass : b.cls with
    | none => simp [Buffer.duplicate, isClass]
    | some cls => exact Buffer.length_duplicate isClass (legible.whole id b cls drawn source isClass)
  | array each => exact .array each
  | mapping each => exact .mapping (each (legible.distinct id _ drawn source))
  | function object name => exact .function object name

end Heap.Legible

theorem Heap.Recognizable.legible {h : Heap}
    (recognizable : h.Recognizable values) : h.Legible values where
  refers := recognizable.refers
  distinct id entries drawn found :=
    ⟨(recognizable.filed id entries drawn found).unequal, fun e mem =>
      recognizable.plain e.key (.inr ⟨id, drawn, _, found, .key mem⟩)⟩
  whole id b cls drawn found isClass := by
    have classless : b.cls = none := by
      cases drawn with
      | source given ownable => exact recognizable.plain _ (.inl given) _ b rfl ownable found
      | within drawn held ownable =>
        exact recognizable.plain _ (.inr ⟨_, drawn, held⟩) _ b rfl ownable found
    rw [classless] at isClass
    cases isClass

namespace Copying.Underway

variable {h0 : Heap} {t : ListId} {values : List Value} {s : Copying}

section

variable (underway : Underway h0 t values s) (legible : h0.Legible values) (closed : h0.Closed)
include underway legible closed

theorem parallels_copies (grows : Grows h0 (fun _ => False) { heap := h0 } s) :
    h0.Parallels s.heap (s.memo.Sends h0) where
  form v c sends := by
    rcases sends.form with scalar | ⟨r, id, rfl, rfl⟩
    · exact .inl scalar
    · exact .inr ⟨r, _, rfl, rfl⟩
  same _ _ _ _ first second := underway.id_eq_iff first second
  payload r q sends := by
    cases sends with
    | scalar scalar => cases scalar
    | kept exempt =>
      rw [underway.payload?_eq (within_of_unowned exempt)]
      cases found : h0.payload? r.id with
      | none => exact .none
      | some p =>
        -- What nobody may own is shared with the copies, and so is all that it holds.
        refine .some (p.parallel_self fun v held => ?_)
        cases v with
        | ref q => exact .kept (closed_iff.mp closed r.id q exempt ⟨p, found, held⟩)
        | nil | integer _ | real _ | object _ => exact .scalar rfl
    | copied ownable remembered =>
      obtain ⟨p, id, p', source, same, -, found, copied, -⟩ := grows.complete _ remembered
      simp only [Value.ref.injEq, Ref.mk.injEq] at same
      obtain ⟨-, rfl⟩ := same
      rw [source, found]
      exact .some (legible.parallel (underway.drawn _ remembered) source copied)

theorem parallels_sources : h0.Parallels s.heap fun v c => c = v ∧
      ∀ r, v = .ref r → h0.unowned r.id = true ∨ h0.Drawn values r.id where
  form v c rel := by
    obtain ⟨rfl, -⟩ := rel
    cases c with
    | ref r => exact .inr ⟨r, r, rfl, rfl⟩
    | nil | integer _ | real _ | object _ => exact .inl ⟨rfl, rfl⟩
  same r q r' q' first second := by
    obtain ⟨⟨⟩, -⟩ := first
    obtain ⟨⟨⟩, -⟩ := second
    exact Iff.rfl
  payload r q rel := by
    obtain ⟨⟨⟩, seen⟩ := rel
    have within : r.id < h0.cells.size := by
      rcases seen r rfl with exempt | drawn
      · exact within_of_unowned exempt
      · exact drawn.within_cells legible.refers
    rw [underway.payload?_eq within]
    cases found : h0.payload? r.id with
    | none => exact .none
    | some p =>
      refine .some (p.parallel_self fun v held => ⟨rfl, ?_⟩)
      rintro q rfl
      have holds : h0.Holds r.id (.ref q) := ⟨p, found, held⟩
      cases exempt : h0.unowned q.id with
      | true => exact .inl rfl
      | false =>
        rcases seen r rfl with outer | drawn
        · rw [closed_iff.mp closed r.id q outer holds] at exempt
          cases exempt
        · exact .inr (.within drawn holds exempt)

end

end Copying.Underway

namespace Heap

variable {h h' : Heap} {target : ListId} {values copies : List Value}

/-- Copies have the texts of their sources, and the sources keep theirs, however they share and cycle.
In both heaps a container is cut off exactly where it occurs below itself, and all else is written
out as often as it occurs. The keys of the mappings that are copied have to be unequal. -/
theorem copies_render_as_sources (consistent : h.Consistent) (valid : target.number < h.lists.size)
    (closed : h.Closed) (legible : h.Legible values)
    (copied : copyAll target values h = .ok copies h') :
    h.Written ∧ h'.Written ∧
      values.Forall₂ (fun v c => (h'.text c = h.text v ∧ h'.describe c = h.describe v) ∧
        h'.text v = h.text v ∧ h'.describe v = h.describe v) copies := by
  refine ⟨h.written, h'.written, ?_⟩
  have ends := CopyM.mapM_ends legible.refers consistent valid
  unfold copyAll at copied
  revert ends
  split at copied
  · rename_i s ran
    cases copied
    rw [ran]
    rintro ⟨underway, grows, each⟩
    have before := underway.parallels_sources legible closed
    obtain ⟨size, zipped⟩ := forall₂_iff_zip.mp each
    refine forall₂_iff_zip.mpr ⟨size, fun {v c} member => ⟨?_, ?_⟩⟩
    · exact (underway.parallels_copies legible closed grows).shown_eq underway.cells (zipped member)
    · refine before.shown_eq underway.cells ⟨rfl, ?_⟩
      rintro r rfl
      cases exempt : h.unowned r.id with
      | true => exact .inl rfl
      | false => exact .inr (.source (of_mem_zip member).1 exempt)
  · cases copied

/-- The mapping is written out both times that the array holds it. -/
theorem copies_render_as_sources_knot : knot.Consistent ∧ knot.Closed ∧
    knot.Legible [.ref ⟨.array, 0⟩] ∧
    knot.text (.ref ⟨.array, 0⟩) =
      "(\x7b <cycle>, ([ \"key\": <cycle>, <buffer 1 bytes>: <cycle> ]), " ++
        "([ \"key\": <cycle>, <buffer 1 bytes>: <cycle> ]), 5 \x7d)" ∧
    ∃ c h', copyAll ⟨1⟩ [.ref ⟨.array, 0⟩] knot = .ok [c] h' ∧ c ≠ .ref ⟨.array, 0⟩ ∧
      h'.text c = knot.text (.ref ⟨.array, 0⟩) ∧ h'.describe c = knot.describe (.ref ⟨.array, 0⟩) := by
  have closed : knot.Closed := by decide +kernel
  have valid : (⟨1⟩ : ListId).number < knot.lists.size := by decide +kernel
  have outcome : (match copyAll ⟨1⟩ [.ref ⟨.array, 0⟩] knot with
      | .ok copies _ => decide (.ref ⟨.array, 0⟩ ∉ copies)
      | .error _ _ => false) = true := by decide +kernel
  refine ⟨consistent_knot, closed, recognizable_knot.legible, by decide +kernel, ?_⟩
  split at outcome
  · rename_i copies h' copied
    obtain ⟨-, -, each⟩ :=
      copies_render_as_sources consistent_knot valid closed recognizable_knot.legible copied
    cases each with
    | @cons _ c _ _ alike rest =>
      cases rest
      have new := of_decide_eq_true outcome
      exact ⟨c, h', copied, fun same => new (by simp [same]), alike.1⟩
  · cases outcome

/-- Keys that have come to be equal are written once for the copy. And of a value that could not be
copied, what was made of it stands for it when it is met again. -/
theorem copies_not_render_as_sources :
    (∃ m h c h', worn paired = .ok m h ∧ h.Closed ∧ copyAll ⟨1⟩ [m] h = .ok [c] h' ∧
      h'.text m = "([ <buffer 1 bytes>: 1, <buffer 1 bytes>: 2 ])" ∧
      h'.text c = "([ <buffer 1 bytes>: 2 ])") ∧
    ∃ x h f c h', hollow paired = .ok x h ∧ h.Closed ∧
      copyEach ⟨0⟩ [x, x] h = ([.error f, .ok c], h') ∧
      h'.text x = "(\x7b <freed> \x7d)" ∧ h'.text c = "(\x7b  \x7d)" := by
  have merged : (match worn paired with
      | .ok m h =>
        match copyAll ⟨1⟩ [m] h with
        | .ok copies h' => decide (h.Closed ∧
            h'.text m = "([ <buffer 1 bytes>: 1, <buffer 1 bytes>: 2 ])" ∧
            copies.map h'.text = ["([ <buffer 1 bytes>: 2 ])"])
        | .error _ _ => false
      | .error _ _ => false) = true := by decide +kernel
  have resumed : (match hollow paired with
      | .ok x h => decide (h.Closed ∧ (copyEach ⟨0⟩ [x, x] h).1.map Except.isOk = [false, true] ∧
          (copyEach ⟨0⟩ [x, x] h).2.text x = "(\x7b <freed> \x7d)" ∧
          ((copyEach ⟨0⟩ [x, x] h).1.filterMap Except.toOption).map (copyEach ⟨0⟩ [x, x] h).2.text =
            ["(\x7b  \x7d)"])
      | .error _ _ => false) = true := by decide +kernel
  constructor
  · split at merged
    · rename_i m h made
      split at merged
      · rename_i copies h' copied
        obtain ⟨closed, source, texts⟩ := of_decide_eq_true merged
        obtain ⟨c, rfl, copy⟩ := map_eq_singleton_iff.mp texts
        exact ⟨m, h, c, h', made, closed, copied, source, copy⟩
      · cases merged
    · cases merged
  · split at resumed
    · rename_i x h made
      obtain ⟨closed, kinds, source, texts⟩ := of_decide_eq_true resumed
      generalize copied : copyEach ⟨0⟩ [x, x] h = r at kinds source texts
      obtain ⟨results, h'⟩ := r
      obtain ⟨f, c, rfl⟩ := exists_of_kinds kinds
      exact ⟨x, h, f, c, h', made, closed, copied, source, (cons.inj texts).1⟩
    · cases resumed

end Heap

end Tenancy
