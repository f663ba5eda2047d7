import Mathlib.Data.List.Nodup
import Mathlib.Data.List.Perm.Basic
import Mathlib.Logic.Function.Iterate
import Tenancy.Arena

/-!
The slots of an arena.

A slot that has been used is either occupied or free, and as many are occupied as the arena counts.
To allocate is to occupy one vacant slot, to release or to drain is to vacate occupied ones; no slot
changes but those, and a slot that is vacated moves to its next version.
-/

/-! ### The parts of an identity -/

namespace Tenancy.GlobalId

@[simp] theorem process_ofParts (process : UInt16) (index : Nat) (version : UInt16) :
    (ofParts process index version).process = process := by
  have first := process.toNat_lt
  have last := version.toNat_lt
  apply UInt16.toNat_inj.mp
  simp only [GlobalId.process, ofParts, pageSize, UInt16.toNat_ofNat', UInt64.toNat_ofNat']
  omega

@[simp] theorem version_ofParts (process : UInt16) (index : Nat) (version : UInt16) :
    (ofParts process index version).version = version := by
  have last := version.toNat_lt
  apply UInt16.toNat_inj.mp
  simp only [GlobalId.version, ofParts, pageSize, UInt16.toNat_ofNat', UInt64.toNat_ofNat']
  omega

theorem index_ofParts {index : Nat} (small : index < 0x100000000) (process version : UInt16) :
    (ofParts process index version).index = index := by
  have first := process.toNat_lt
  have last := version.toNat_lt
  simp only [GlobalId.index, page, place, ofParts, pageSize, UInt64.toNat_ofNat']
  omega

theorem page_ofParts {index : Nat} (small : index < 0x100000000) (process version : UInt16) :
    (ofParts process index version).page = index / pageSize := by
  have first := process.toNat_lt
  have last := version.toNat_lt
  simp only [page, ofParts, pageSize, UInt64.toNat_ofNat']
  omega

theorem place_ofParts (process : UInt16) (index : Nat) (version : UInt16) :
    (ofParts process index version).place = index % pageSize := by
  have last := version.toNat_lt
  simp only [place, ofParts, pageSize, UInt64.toNat_ofNat']
  omega

theorem index_lt (id : GlobalId) : id.index < 0x100000000 := by
  simp only [index, page, place, pageSize]
  omega

theorem eq_of_parts {a b : GlobalId} (process : a.process = b.process) (index : a.index = b.index)
    (version : a.version = b.version) : a = b := by
  rcases a with ⟨a⟩
  rcases b with ⟨b⟩
  have process := congrArg UInt16.toNat process
  have version := congrArg UInt16.toNat version
  have first := a.toNat_lt
  have second := b.toNat_lt
  simp only [GlobalId.process, GlobalId.version, GlobalId.index, page, place, pageSize,
    UInt16.toNat_ofNat'] at process index version
  congr 1
  apply UInt64.toNat_inj.mp
  omega

theorem ofParts_parts (id : GlobalId) : ofParts id.process id.index id.version = id :=
  eq_of_parts (process_ofParts ..) (index_ofParts id.index_lt ..) (version_ofParts ..)

/-- Identities and their parts determine each other. No two processes, slots or versions share an
identity, and every word is the identity of some. -/
theorem parts_make_identities :
    (∀ (process : UInt16) (index : Nat) (version : UInt16), index < 0x100000000 →
      (ofParts process index version).process = process ∧
      (ofParts process index version).index = index ∧
      (ofParts process index version).version = version ∧
      (ofParts process index version).page = index / 256 ∧
      (ofParts process index version).place = index % 256) ∧
    (∀ raw : UInt64, (ofParts (mk raw).process (mk raw).index (mk raw).version).raw = raw) ∧
    ∀ (process process' : UInt16) (index index' : Nat) (version version' : UInt16),
      index < 0x100000000 → index' < 0x100000000 →
      (process, index, version) ≠ (process', index', version') →
      ofParts process index version ≠ ofParts process' index' version' := by
  refine ⟨fun process index version small => ⟨process_ofParts .., index_ofParts small ..,
    version_ofParts .., page_ofParts small .., place_ofParts ..⟩,
    fun raw => congrArg GlobalId.raw (ofParts_parts ⟨raw⟩), ?_⟩
  intro process process' index index' version version' small small' distinct same
  have processes := congrArg GlobalId.process same
  have indices := congrArg GlobalId.index same
  have versions := congrArg GlobalId.version same
  rw [process_ofParts, process_ofParts] at processes
  rw [index_ofParts small, index_ofParts small'] at indices
  rw [version_ofParts, version_ofParts] at versions
  exact distinct (by rw [processes, indices, versions])

/-- The last slot of all, and a slot one page before it. -/
theorem last_parts_make_identities :
    (ofParts 7 0xffffffff 9).index = 0xffffffff ∧
      ofParts 7 0xffffffff 9 ≠ ofParts 7 0xfffffeff 9 :=
  ⟨(parts_make_identities.1 7 0xffffffff 9 (by decide)).2.1,
    parts_make_identities.2.2 7 7 0xffffffff 0xfffffeff 9 9 (by decide) (by decide) (by decide)⟩

theorem isNull_eq_false_of_version {id : GlobalId} (used : id.version ≠ 0) : id.isNull = false := by
  rcases id with ⟨raw⟩
  refine Bool.eq_false_iff.mpr fun null => used ?_
  have zero : raw = 0 := by simpa [isNull] using null
  rw [zero]
  rfl

end Tenancy.GlobalId

namespace Tenancy.Arena

open List

theorem nextVersion_ne_zero (v : UInt16) : nextVersion v ≠ 0 := by
  unfold nextVersion
  split
  · decide
  · assumption

theorem toNat_nextVersion (used : v ≠ 0) : (nextVersion v).toNat = v.toNat % 65535 + 1 := by
  have positive : v.toNat ≠ 0 := fun zero => used (UInt16.toNat_inj.mp zero)
  have bound := v.toNat_lt
  have sum : (v + 1).toNat = (v.toNat + 1) % 65536 := by simp
  unfold nextVersion
  split
  · rename_i last
    have zero := congrArg UInt16.toNat last
    rw [sum] at zero
    simp at zero ⊢
    omega
  · rename_i more
    have nonzero : (v + 1).toNat ≠ 0 := fun zero => more (UInt16.toNat_inj.mp zero)
    omega

theorem toNat_iterate_nextVersion (used : v ≠ 0) (k : Nat) :
    (nextVersion^[k] v).toNat = (v.toNat - 1 + k) % 65535 + 1 := by
  have positive : v.toNat ≠ 0 := fun zero => used (UInt16.toNat_inj.mp zero)
  have bound := v.toNat_lt
  induction k with
  | zero => simp; omega
  | succ k ih =>
    have nonzero : nextVersion^[k] v ≠ 0 := by
      intro zero
      rw [zero] at ih
      simp at ih
    rw [Function.iterate_succ_apply', toNat_nextVersion nonzero, ih]
    omega

theorem iterate_nextVersion_ne (used : v ≠ 0) (some : 0 < k)
    (few : k < 65535) : nextVersion^[k] v ≠ v := by
  intro same
  have positive : v.toNat ≠ 0 := fun zero => used (UInt16.toNat_inj.mp zero)
  have bound := v.toNat_lt
  have turned := toNat_iterate_nextVersion used k
  rw [same] at turned
  omega

variable {α : Type} {a b : Arena α} {i j : Nat} {id : GlobalId} {v : α} {s : ArenaSlot α}

theorem mem_occupied : i ∈ a.occupied ↔ ∃ s v, a.slots[i]? = some s ∧ s.value = some v := by
  unfold occupied
  rw [mem_filter, mem_range]
  constructor
  · rintro ⟨-, held⟩
    split at held
    · rename_i s found
      obtain ⟨v, same⟩ := Option.isSome_iff_exists.mp held
      exact ⟨s, v, found, same⟩
    · simp at held
  · rintro ⟨s, v, found, held⟩
    exact ⟨(Array.getElem?_eq_some_iff.mp found).1, by simp [found, held]⟩

theorem nodup_occupied (a : Arena α) : a.occupied.Nodup := nodup_range.filter _

theorem not_mem_occupied (found : a.slots[i]? = some s) : i ∉ a.occupied ↔ s.value = none := by
  rw [mem_occupied]
  constructor
  · intro empty
    by_contra held
    obtain ⟨v, same⟩ := Option.ne_none_iff_exists'.mp held
    exact empty ⟨s, v, found, same⟩
  · rintro empty ⟨s', v, found', held⟩
    obtain rfl := Option.some.inj (found.symm.trans found')
    simp [empty] at held

theorem filterMap_eq_range (f : β → Option γ) (items : List β) :
    items.filterMap f = (range items.length).filterMap fun i => (items[i]?).bind f := by
  induction items with
  | nil => rfl
  | cons x rest ih =>
    rw [length_cons, range_succ_eq_map, filterMap_cons, filterMap_cons, filterMap_map, ih]
    rfl

theorem values_eq (a : Arena α) :
    a.values = a.occupied.filterMap fun i => (a.slots[i]?).bind ArenaSlot.value := by
  unfold values occupied
  rw [filterMap_eq_range, filterMap_filter, Array.length_toList]
  refine filterMap_congr fun i _ => ?_
  rw [Array.getElem?_toList]
  cases a.slots[i]? with
  | none => rfl
  | some s => cases held : s.value <;> simp [held]

theorem mem_occupied_of_set (written : b.slots = a.slots.setIfInBounds i s)
    (within : i < a.slots.size) :
    j ∈ b.occupied ↔ if j = i then s.value.isSome = true else j ∈ a.occupied := by
  rw [mem_occupied, written, Array.getElem?_setIfInBounds]
  by_cases here : j = i
  · subst here
    simp [within, Option.isSome_iff_exists]
  · simp [here, Ne.symm here, mem_occupied]

/-- Slots are laid out in pages, and those that have been used are occupied or free. -/
structure Tidy (a : Arena α) : Prop where
  pages : a.slots.size = (a.next + 255) / 256 * 256
  used : (a.occupied ++ a.free).Perm (range a.next)
  live : a.live = a.occupied.length
  versions : ∀ s ∈ a.slots, s.version ≠ 0

/-- A slot has been set aside: it is vacant, and otherwise nothing has changed but that there may be
one more page. -/
structure Reserved (a : Arena α) (i : Nat) (b : Arena α) : Prop where
  process : b.process = a.process
  live : b.live = a.live
  kept : ∀ (j : Nat) (s : ArenaSlot α), a.slots[j]? = some s → b.slots[j]? = some s
  fresh : ∀ (j : Nat) (s : ArenaSlot α), b.slots[j]? = some s → a.slots[j]? = some s ∨ s = ⟨1, none⟩
  pages : b.slots.size = (b.next + 255) / 256 * 256
  used : (i :: a.occupied ++ b.free).Perm (range b.next)
  next : b.next = a.next ∨ b.next = a.live + 1

theorem Tidy.reserve (tidy : a.Tidy) : a.Reserved a.reserve.1 a.reserve.2 := by
  have used := tidy.used
  have pages := tidy.pages
  cases free : a.free with
  | cons i rest =>
    have same : a.reserve = (i, { a with free := rest }) := by simp [Arena.reserve, free]
    rw [same]
    rw [free] at used
    exact ⟨rfl, rfl, fun _ _ => id, fun _ _ => .inl, pages, perm_middle.symm.trans used, .inl rfl⟩
  | nil =>
    have one : (a.next :: a.occupied ++ a.free).Perm (range (a.next + 1)) := by
      rw [range_succ]
      exact (used.cons _).trans (perm_append_singleton _ _).symm
    have counted : a.next + 1 = a.live + 1 := by
      have count := used.length_eq
      simp only [free, append_nil, length_range] at count
      rw [tidy.live, count]
    by_cases last : a.next % GlobalId.pageSize = 0
    · have same : a.reserve =
          (a.next, { a with slots := a.slots ++ freshPage, next := a.next + 1 }) := by
        simp [Arena.reserve, free, last]
      rw [same]
      refine ⟨rfl, rfl, fun j s found => ?_, fun j s found => ?_, ?_, one, .inr counted⟩
      · exact (Array.getElem?_append_left (Array.getElem?_eq_some_iff.mp found).1).trans found
      · rcases Nat.lt_or_ge j a.slots.size with old | later
        · exact .inl ((Array.getElem?_append_left old).symm.trans found)
        · have page := Array.mem_of_getElem? ((Array.getElem?_append_right later).symm.trans found)
          exact .inr (Array.mem_replicate.mp page).2
      · simp only [GlobalId.pageSize] at last
        simp [freshPage, GlobalId.pageSize]
        omega
    · have same : a.reserve = (a.next, { a with next := a.next + 1 }) := by
        simp [Arena.reserve, free, last]
      rw [same]
      refine ⟨rfl, rfl, fun _ _ => id, fun _ _ => .inl, ?_, one, .inr counted⟩
      have begun : ¬ a.next % 256 = 0 := last
      rw [pages]
      show (a.next + 255) / 256 * 256 = (a.next + 1 + 255) / 256 * 256
      omega

theorem Reserved.vacant (reserved : a.Reserved i b) : i ∉ a.occupied := fun here =>
  (nodup_cons.mp (reserved.used.nodup_iff.mpr nodup_range)).1 (mem_append_left _ here)

theorem Reserved.mem_occupied_iff (reserved : a.Reserved i b) :
    j ∈ b.occupied ↔ j ∈ a.occupied := by
  simp only [mem_occupied]
  constructor
  · rintro ⟨s, v, found, held⟩
    rcases reserved.fresh j s found with old | rfl
    · exact ⟨s, v, old, held⟩
    · simp at held
  · rintro ⟨s, v, found, held⟩
    exact ⟨s, v, reserved.kept j s found, held⟩

/-- A value has been stored in a vacant slot, and its identity names that slot. -/
structure Allocated (a : Arena α) (id : GlobalId) (v : α) (b : Arena α) : Prop where
  process : b.process = a.process
  issuer : id.process = a.process
  used : id.version ≠ 0
  vacant : id.index ∉ a.occupied
  stored : b.slots[id.index]? = some ⟨id.version, some v⟩
  version : ∀ s, a.slots[id.index]? = some s → s.version = id.version
  others : ∀ (j : Nat) (s : ArenaSlot α), j ≠ id.index → a.slots[j]? = some s → b.slots[j]? = some s
  occupied : b.occupied.Perm (id.index :: a.occupied)
  next : b.next = a.next ∨ b.next = a.live + 1
  tidy : b.Tidy

theorem Tidy.allocateWith (tidy : a.Tidy) (small : a.next ≤ 0x100000000)
    (room : a.live < 0x100000000) (make : GlobalId → α) :
    a.Allocated (a.allocateWith make).1 (make (a.allocateWith make).1) (a.allocateWith make).2 := by
  have reserved := tidy.reserve
  unfold Arena.allocateWith
  dsimp only
  generalize a.reserve.1 = i at *
  generalize a.reserve.2 = b at *
  have below : i < b.next := mem_range.mp (reserved.used.subset mem_cons_self)
  have within : i < b.slots.size := by
    rw [reserved.pages]
    omega
  obtain ⟨s, found⟩ : ∃ s, b.slots[i]? = some s := ⟨_, Array.getElem?_eq_getElem within⟩
  have version : b.versionAt i = s.version := by simp [versionAt, found]
  have versions : ∀ s ∈ b.slots, s.version ≠ 0 := by
    intro s listed
    obtain ⟨j, there⟩ := Array.mem_iff_getElem?.mp listed
    rcases reserved.fresh j s there with old | rfl
    · exact tidy.versions s (Array.mem_of_getElem? old)
    · simp
  have index : (GlobalId.ofParts b.process i s.version).index = i := by
    refine GlobalId.index_ofParts ?_ _ _
    have := reserved.next
    omega
  rw [version]
  generalize value : make (GlobalId.ofParts b.process i s.version) = v
  have occupied : (Arena.occupied { b with
      slots := b.slots.setIfInBounds i ⟨s.version, some v⟩, live := b.live + 1 }).Perm
      (i :: a.occupied) := by
    refine (perm_ext_iff_of_nodup (nodup_occupied _)
      (nodup_cons.mpr ⟨reserved.vacant, nodup_occupied a⟩)).mpr fun j => ?_
    rw [mem_occupied_of_set rfl within, reserved.mem_occupied_iff, mem_cons]
    by_cases here : j = i <;> simp [here]
  constructor
  case process => exact reserved.process
  case issuer => simp [reserved.process]
  case used => simpa using versions s (Array.mem_of_getElem? found)
  case vacant => simpa [index] using reserved.vacant
  case stored => simp [index, within]
  case version =>
    intro s' old
    rw [index] at old
    have same := (reserved.kept i s' old).symm.trans found
    simp [Option.some.inj same]
  case others =>
    intro j s' other old
    rw [index] at other
    rw [Array.getElem?_setIfInBounds_ne (Ne.symm other)]
    exact reserved.kept j s' old
  case occupied => simpa only [index] using occupied
  case next => exact reserved.next
  case tidy =>
    constructor
    case pages => simpa using reserved.pages
    case used => exact (occupied.append_right _).trans reserved.used
    case live => rw [occupied.length_eq, length_cons, ← tidy.live, ← reserved.live]
    case versions =>
      intro s' listed
      rcases Array.mem_or_eq_of_mem_setIfInBounds listed with old | rfl
      · exact versions s' old
      · exact versions s (Array.mem_of_getElem? found)

/-- The slots that `gone` says have been emptied, and their versions have moved on. -/
structure Vacated (a : Arena α) (gone : Nat → Bool) (b : Arena α) : Prop where
  process : b.process = a.process
  next : b.next = a.next
  size : b.slots.size = a.slots.size
  slots : ∀ (j : Nat) (s : ArenaSlot α), a.slots[j]? = some s →
    b.slots[j]? = some (if gone j then ⟨nextVersion s.version, none⟩ else s)
  free : b.free.Perm (a.occupied.filter gone ++ a.free)
  live : b.live = a.live - (a.occupied.filter gone).length

theorem Vacated.occupied_eq (vacated : a.Vacated gone b) :
    b.occupied = a.occupied.filter fun i => !gone i := by
  unfold occupied
  rw [vacated.size, filter_filter]
  refine filter_congr fun j below => ?_
  have found := Array.getElem?_eq_getElem (mem_range.mp below)
  rw [vacated.slots j _ found, found]
  cases gone j <;> simp

theorem Vacated.tidy (vacated : a.Vacated gone b) (tidy : a.Tidy) : b.Tidy := by
  have parts := filter_append_perm gone a.occupied
  constructor
  case pages => rw [vacated.size, vacated.next, tidy.pages]
  case used =>
    rw [vacated.next, vacated.occupied_eq]
    calc a.occupied.filter (fun i => !gone i) ++ b.free
      _ |>.Perm (a.occupied.filter (fun i => !gone i) ++ (a.occupied.filter gone ++ a.free)) :=
        vacated.free.append_left _
      _ |>.Perm (a.occupied ++ a.free) := by
        rw [← append_assoc]
        exact (perm_append_comm.trans parts).append_right _
      _ |>.Perm (range a.next) := tidy.used
  case live =>
    have count := parts.length_eq
    rw [length_append] at count
    rw [vacated.live, vacated.occupied_eq, tidy.live]
    omega
  case versions =>
    intro s listed
    obtain ⟨j, found⟩ := Array.mem_iff_getElem?.mp listed
    have within : j < a.slots.size := vacated.size ▸ (Array.getElem?_eq_some_iff.mp found).1
    have old := Array.getElem?_eq_getElem within
    rw [vacated.slots j _ old] at found
    obtain rfl := Option.some.inj found
    split
    · exact nextVersion_ne_zero _
    · exact tidy.versions _ (Array.mem_of_getElem? old)

theorem get?_eq_some : a.get? id = some v ↔ a.slots[id.index]? = some ⟨id.version, some v⟩ := by
  unfold get?
  split
  · rename_i s found
    rcases s with ⟨version, value⟩
    simp [found]
  · rename_i missing
    simp [missing]

theorem release_vacated (found : a.get? id = some v) :
    a.Vacated (· == id.index) (a.release id).2 := by
  have same : (a.release id).2 = { a with
      slots := a.slots.setIfInBounds id.index ⟨nextVersion id.version, none⟩
      free := id.index :: a.free
      live := a.live - 1 } := by simp [Arena.release, found]
  rw [get?_eq_some] at found
  have within := (Array.getElem?_eq_some_iff.mp found).1
  have only : a.occupied.filter (· == id.index) = [id.index] := by
    have here : id.index ∈ a.occupied := mem_occupied.mpr ⟨_, v, found, rfl⟩
    rw [filter_beq, count_eq_one_of_mem a.nodup_occupied here]
    rfl
  rw [same]
  refine ⟨rfl, rfl, Array.size_setIfInBounds, fun j s there => ?_, ?_, ?_⟩
  · rw [Array.getElem?_setIfInBounds]
    by_cases same : j = id.index
    · subst same
      obtain rfl := Option.some.inj (there.symm.trans found)
      simp [within]
    · simp [same, Ne.symm same, there]
  · rw [only]
    rfl
  · rw [only]
    rfl

theorem drain_vacated (tidy : a.Tidy) (all : ∀ j, gone j = true ↔ j ∈ a.occupied) :
    a.Vacated gone a.drain.2 := by
  have every : a.occupied.filter gone = a.occupied :=
    filter_eq_self.mpr fun j => (all j).mpr
  refine ⟨rfl, rfl, Array.size_map, fun j s there => ?_, ?_, ?_⟩
  · have held : s.value.isSome = gone j := by
      rw [Bool.eq_iff_iff, all, Option.isSome_iff_ne_none, ne_eq, ← not_mem_occupied there, not_not]
    simp [Arena.drain, there, vacate, held]
  · rw [every]
    exact (reverse_perm _).append_right _
  · rw [every, ← tidy.live, Nat.sub_self]
    rfl

end Tenancy.Arena
