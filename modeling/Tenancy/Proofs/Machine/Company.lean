import Tenancy.Proofs.Machine.Balance
import Tenancy.Proofs.Session

/-!
Threads beside each other.

What one thread does spares the others: it takes nothing that they hold, parks nothing in their
name and keeps off what they have on their way. A thread that is spared stays where it is, between
two runs as well as during one. Whatever a host has a resting thread do begins a run on its footing,
and a run that ends leaves a resting thread behind.
-/

namespace Tenancy

open Tenancy.Action Heap World

/-- The thread keeps its place in the world. What its lists hold may change. -/
structure World.Lets (t : Thread) (w w' : World) : Prop where
  settings : w'.settings = w.settings
  size : w.domains.size ≤ w'.domains.size
  lists : w.heap.lists.size ≤ w'.heap.lists.size
  objects : w.Retains w'
  holder : ∀ k, (w'.domain k).holder = some t.key ↔ (w.domain k).holder = some t.key
  windows : ∀ k, w'.windowsOf t.key k = w.windowsOf t.key k
  outlying : t.transfer.number < w.heap.lists.size → w.Outlying t.transfer → w'.Outlying t.transfer

/-- What is the thread's in the world is left alone. -/
structure World.Spares (t : Thread) (w w' : World) : Prop extends w.Lets t w' where
  transfer : t.transfer.number < w.heap.lists.size → w.Outlying t.transfer →
    w'.heap.list t.transfer = w.heap.list t.transfer

theorem World.Lets.ofSame {w w' : World} (settings : w'.settings = w.settings)
    (size : w'.domains.size = w.domains.size) (lists : w.heap.lists.size ≤ w'.heap.lists.size)
    (objects : w.Retains w') (same : ∀ k, (w.domain k).Same (w'.domain k)) : w.Lets t w' where
  settings := settings
  size := size.ge
  lists := lists
  objects := objects
  holder k := by rw [(same k).holder]
  windows k := by rw [windowsOf, (same k).parked, windowsOf]
  outlying _ outlying k within := by
    rw [(same k).values]
    exact outlying k (size ▸ within)

namespace World.Spares

variable {P : Function → Prop} {t u : Thread} {w w' w'' : World}

theorem refl (t : Thread) (w : World) : w.Spares t w :=
  ⟨⟨rfl, le_rfl, le_rfl, .refl _, fun _ => Iff.rfl, fun _ => rfl, fun _ => id⟩, fun _ _ => rfl⟩

theorem trans (first : w.Spares t w') (second : w'.Spares t w'') : w.Spares t w'' where
  settings := second.settings.trans first.settings
  size := first.size.trans second.size
  lists := first.lists.trans second.lists
  objects := first.objects.trans second.objects
  holder k := (second.holder k).trans (first.holder k)
  windows k := (second.windows k).trans (first.windows k)
  outlying valid outlying :=
    second.outlying (valid.trans_le first.lists) (first.outlying valid outlying)
  transfer valid outlying := (second.transfer (valid.trans_le first.lists)
    (first.outlying valid outlying)).trans (first.transfer valid outlying)

theorem ofDoes (does : w.Does P u w') (other : t.key ≠ u.key) (notScratch : t.transfer ≠ u.scratch)
    (notTransfer : t.transfer ≠ u.transfer) : w.Spares t w' where
  settings := does.settings
  size := does.size.ge
  lists := does.lists
  objects := does.objects
  holder := does.holder _ other
  windows := does.windows _ other
  outlying _ := does.outlying
  transfer _ outlying := does.list _ outlying notScratch notTransfer

theorem ofSame (settings : w'.settings = w.settings) (size : w'.domains.size = w.domains.size)
    (lists : w.heap.lists.size ≤ w'.heap.lists.size) (objects : w.Retains w')
    (same : ∀ k, (w.domain k).Same (w'.domain k))
    (list : w.Outlying t.transfer → w'.heap.list t.transfer = w.heap.list t.transfer) :
    w.Spares t w' :=
  ⟨.ofSame settings size lists objects same, fun _ => list⟩

theorem modifyDomain (values : ∀ d, (f d).values = d.values)
    (holder : (f (w.domain k)).holder = some t.key ↔ (w.domain k).holder = some t.key)
    (windows : (f (w.domain k)).parked.filter (·.thread = t.key) = w.windowsOf t.key k) :
    w.Spares t (w.modifyDomain k f) where
  settings := rfl
  size := (size_domains_modifyDomain _ _ _).ge
  lists := le_rfl
  objects := .of_eq rfl
  holder j := by
    rw [domain_modifyDomain]
    split
    · obtain ⟨rfl, -⟩ := ‹k = j ∧ _›
      exact holder
    · exact Iff.rfl
  windows j := by
    rw [windowsOf, domain_modifyDomain]
    split
    · obtain ⟨rfl, -⟩ := ‹k = j ∧ _›
      exact windows
    · rfl
  transfer _ _ := rfl
  outlying _ outlying j within := by
    rw [domain_modifyDomain]
    split
    · rw [values]
      exact outlying j (by simpa using within)
    · exact outlying j (by simpa using within)

theorem newList (t : Thread) (w : World) : w.Spares t w.newList.2 where
  settings := rfl
  size := le_rfl
  lists := by simp [World.newList, Heap.newList]
  objects := .of_eq rfl
  holder _ := Iff.rfl
  windows _ := rfl
  outlying _ := id
  transfer _ _ := list_newList _ _

theorem createDomain (t : Thread) (w : World) (name : String) :
    w.Spares t (w.createDomain name).2 where
  settings := rfl
  size := by simp [World.createDomain, World.newList]
  lists := by simp [World.createDomain, World.newList, Heap.newList]
  objects := .of_eq rfl
  holder k := by
    rw [domain_createDomain]
    split
    · rename_i fresh
      rw [domain_of_missing fresh.ge]
      exact Iff.rfl
    · exact Iff.rfl
  windows k := by
    rw [windowsOf, domain_createDomain]
    split
    · rename_i fresh
      rw [windowsOf, domain_of_missing fresh.ge]
      rfl
    · rfl
  transfer := (newList t w).transfer
  outlying valid outlying k within := by
    rw [domain_createDomain]
    split
    · intro same
      have number : w.heap.lists.size = t.transfer.number := congrArg ListId.number same
      omega
    · rename_i old
      have bound : k < w.domains.size + 1 := by
        simpa [World.createDomain, World.newList] using within
      exact outlying k (Nat.lt_of_le_of_ne (Nat.le_of_lt_succ bound) old)

end World.Spares

def Thread.cutTo (t : Thread) (mark : Mark) : Thread :=
  { t with
    stack := t.stack.take mark.stack
    frames := t.frames.drop (t.frames.length - mark.calls)
    domains := t.domains.drop (t.domains.length - mark.domains) }

namespace State

variable {P : Function → Prop} {w0 world : World} {s : State} {origin : Footing} {pending : List Pending}
  {m : Machine}

theorem Regular.lets (regular : s.Regular P w0 origin) (lets : s.world.Lets s.thread world)
    (sound : world.Sound P) : Regular P world { s with world } origin where
  sound := ⟨sound, regular.sound.scratch.trans_le lets.lists,
    regular.sound.transfer.trans_le lets.lists⟩
  apart := regular.apart
  outlying := lets.outlying regular.sound.transfer regular.outlying
  home := regular.home.trans_le lets.size
  frames := by
    rw [lets.settings]
    exact regular.frames
  domains := by
    rw [lets.settings]
    exact regular.domains
  based f listed := (regular.based f listed).retained lets.objects
  upon :=
    { regular.upon with
      windows := fun k => by
        rw [← regular.upon.windows k, windowsUnder, windowsUnder]
        rw [lets.windows k] }
  does := .refl _ _

theorem Inside.lets (inside : s.Inside) (lets : s.world.Lets s.thread world) :
    Inside { s with world } := Seats.congr inside lets.holder lets.windows

section

variable (regular : s.Regular P w0 origin) (spares : s.world.Spares s.thread world)
include regular spares

theorem Regular.clear_spared (clear : s.Clear) : Clear { s with world } :=
  clear_congr (spares.transfer regular.sound.transfer regular.outlying) clear

theorem Regular.bearing_spared (bearing : Bearing origin s pending focus) :
    Bearing origin { s with world } pending focus := by
  have level : s.Level origin pending → Level { s with world } origin pending := by
    rintro ⟨inside, sure, stacked, clear⟩
    exact ⟨inside.lets spares.toLets, sure, stacked, fun isSure wasClear =>
      regular.clear_spared spares (clear isSure wasClear)⟩
  have falling : s.Falling origin pending → Falling { s with world } origin pending := by
    rintro ⟨inside, lower⟩
    exact ⟨inside.lets spares.toLets, lower⟩
  have between : s.Between → Between { s with world } := fun awaits =>
    ⟨awaits.nonempty, awaits.held.congr spares.holder, awaits.parks.congr spares.windows⟩
  have abroad : s.Abroad origin pending → Abroad { s with world } origin pending := by
    rintro ⟨awaits, lower⟩
    exact ⟨between awaits, lower⟩
  cases focus with
  | code => exact ⟨level bearing.1, bearing.2⟩
  | native =>
    rcases bearing with ⟨honest, isLevel, top⟩ | ⟨lost, isFalling⟩
    · exact .inl ⟨honest, level isLevel, top⟩
    · exact .inr ⟨lost, falling isFalling⟩
  | result => exact level bearing
  | fault => exact falling bearing
  | visiting =>
    obtain ⟨isAbroad, valid, room, suits⟩ := bearing
    refine ⟨abroad isAbroad, valid.trans_le spares.size, ?_, suits⟩
    rw [spares.settings]
    exact room
  | rollingBack => exact ⟨abroad bearing.1, bearing.2⟩
  | returning => exact abroad bearing
  | unwinding => exact ⟨bearing.1.lets spares.toLets, bearing.2⟩
  | reentering => exact ⟨between bearing.1, bearing.2⟩
  | done =>
    obtain ⟨inside, atHost⟩ := bearing
    refine ⟨inside.lets spares.toLets, fun hosted => ?_⟩
    obtain ⟨height, clear⟩ := atHost hosted
    exact ⟨height, fun wasClear => regular.clear_spared spares (clear wasClear)⟩

end

/-- The thread is between two runs. -/
structure Resting (P : Function → Prop) (s : State) : Prop where
  regular : s.Regular P s.world ⟨s, false⟩
  inside : s.Inside

theorem Upon.refl (nonempty : s.thread.domains ≠ []) : s.Upon s :=
  ⟨nonempty, rfl, fun _ _ => rfl, fun _ => rfl⟩

theorem Upon.thread_eq {origin : State} (upon : s.Upon origin)
    (height : s.thread.height = origin.thread.height) : s.thread = origin.thread := by
  have stack : s.thread.stack = origin.thread.stack := by
    have size : s.thread.stack.size = origin.thread.stack.size := congrArg Stacks.size height
    refine Array.ext_getElem? fun i => ?_
    by_cases within : i < origin.thread.stack.size
    · exact upon.slots i within
    · rw [Array.getElem?_eq_none (by omega), Array.getElem?_eq_none (by omega)]
  have frames : s.thread.frames = origin.thread.frames := congrArg Stacks.frames height
  have domains : s.thread.domains = origin.thread.domains := congrArg Stacks.domains height
  rw [upon.thread, stack, frames, domains]

theorem Regular.resting (regular : s.Regular P w0 origin) (inside : s.Inside) : s.Resting P :=
  ⟨{ regular with upon := .refl inside.nonempty, does := .refl _ _ }, inside⟩

theorem Resting.mild (resting : s.Resting P) (mild : s.Mild P base s') : s'.Resting P := by
  have regular : s.Regular P s.world ⟨{ s with thread := { s.thread with stack := #[] } }, false⟩ :=
    { resting.regular with
      upon := ⟨resting.inside.nonempty, rfl, fun i below => (Nat.not_lt_zero i below).elim, fun _ => rfl⟩ }
  have lower : s.Mild P 0 s' := { mild with below := fun i low => absurd low (Nat.not_lt_zero i) }
  exact (regular.mild lower).resting (resting.inside.mild mild)

theorem Resting.lets (resting : s.Resting P) (lets : s.world.Lets s.thread world)
    (sound : world.Sound P) : Resting P { s with world } :=
  (resting.regular.lets lets sound).resting (resting.inside.lets lets)

/-- What a host has a thread do. -/
inductive Begins (s : State) (m : Machine) : Prop where
  | call {target : ObjectId} {name : String} {args : List Value}
      (called : s.call target name args = .ok m)
  | request {r : Request} (requested : s.request r = .ok m)
  | callObject {object : ObjectKey} {name : String} {args : List Value}
      (called : s.callObject object name args = .ok m)
  | visit {target : ObjectId} {args : List Value} (visited : s.visit target args = .ok m)
  | restore {mark : Mark} (restored : s.restore mark = .ok m)

theorem Resting.bare (resting : s.Resting P) : s.Level ⟨s, false⟩ [.bare] :=
  ⟨resting.inside, true, .bare rfl, fun _ clear => clear⟩

/-- A call of the host begins on a footing of its own. -/
theorem Resting.call (lawful : ∀ f, P f → f.Honest) (resting : s.Resting P)
    (called : s.call target name args = .ok m) : m.Rests P s.world ⟨s, true⟩ := by
  have regular : s.Regular P s.world ⟨s, true⟩ := { resting.regular with }
  have inside := resting.inside
  have serves : s.world.heap.Serves s.owner (Action.left (copyAll s.owner args s.world.heap)) :=
    copyAll_moves args s.world.heap
      ⟨regular.sound.world.heap, regular.sound.world.lists _ inside.valid⟩
  have left := Exec.onHeap_left (copyAll s.owner args) s
  have copied : State.Regular P s.world
      { s with world := { s.world with heap := Action.left (copyAll s.owner args s.world.heap) } }
      ⟨s, true⟩ :=
    regular.withHeap serves.changes fun l outlying _ _ =>
      serves.lists l (outlying _ inside.valid).symm
  have level : State.Level
      { s with world := { s.world with heap := Action.left (copyAll s.owner args s.world.heap) } }
      ⟨s, true⟩ [.host s.thread.savePoint] := by
    refine ⟨inside, true, .host rfl, fun _ clear => clear_congr ?_ clear⟩
    exact serves.lists _ (regular.outlying _ inside.valid).symm
  unfold State.call at called
  rcases Machine.after_cases called with ⟨copies, s', ran, went⟩ | ⟨f, s', ran, rfl⟩
  all_goals
    change Exec.onHeap (copyAll s.owner args) s = _ at ran
    rw [ran] at left
    simp only [left_ok, left_error] at left
    subst left
  · exact (Machine.callOther_takes _ _ _ _).rests copied level lawful went
  · exact ⟨copied, level.falling⟩

theorem Resting.restore (resting : s.Resting P) (restored : s.restore mark = .ok m) :
    m.Rests P s.world ⟨{ s with thread := s.thread.cutTo mark }, false⟩ := by
  have valid := Machine.unwind_valid (m := s.idle []) restored
  dsimp only [idle] at valid
  obtain ⟨some, contexts, calls, slots⟩ := valid
  obtain rfl := Machine.unwind_eq restored
  have regular := resting.regular
  have nonempty : (s.thread.cutTo mark).domains ≠ [] := by
    rw [← List.length_pos_iff_ne_nil]
    simp only [Thread.cutTo, List.length_drop]
    omega
  have size : (s.thread.cutTo mark).stack.size = mark.stack := Machine.size_take slots
  have rises : s.thread.height.Over (s.thread.cutTo mark).height :=
    ⟨List.drop_suffix _ _, List.drop_suffix _ _, size.le.trans slots⟩
  refine ⟨{ regular with upon := ⟨nonempty, rfl, fun i below => ?_, fun _ => rfl⟩ },
    resting.inside, _, rises, ?_, nonempty, .refl _, .done⟩
  · exact (Machine.getElem?_take (below.trans_eq size)).symm
  · simp only [Stacks.mark, Thread.height, size]
    simp only [Thread.cutTo, List.length_drop]
    rw [Nat.sub_sub_self calls, Nat.sub_sub_self contexts]

theorem Resting.begins (lawful : ∀ f, P f → f.Honest) (resting : s.Resting P) (begins : s.Begins m) :
    ∃ origin, m.Rests P s.world origin := by
  cases begins with
  | call called => exact ⟨_, resting.call lawful called⟩
  | request requested =>
    exact ⟨_, (Machine.request_takes s _).rests (m := s.idle [.bare]) resting.regular resting.bare lawful
      requested⟩
  | callObject called =>
    exact ⟨_, (Machine.callObject_takes s _ _ _).rests (m := s.idle [.bare]) resting.regular resting.bare
      lawful called⟩
  | visit visited =>
    exact ⟨_, Machine.visit_rests (m := s.idle [.bare]) resting.regular resting.bare (fun _ => rfl)
      visited⟩
  | restore restored => exact ⟨_, resting.restore restored⟩

end State

namespace Machine

variable {P : Function → Prop} {w0 : World} {origin : Footing} {m : Machine}

/-- A run that is spared stays on its footing. -/
theorem Rests.spared (rests : m.Rests P w0 origin) {world : World}
    (spares : m.world.Spares m.thread world) (sound : world.Sound P) :
    Rests P world origin { m with world } :=
  ⟨rests.regular.lets spares.toLets sound, rests.regular.bearing_spared spares rests.bearing⟩

theorem Rests.anew (rests : m.Rests P w0 origin) : m.Rests P m.world origin :=
  ⟨{ rests.regular with does := .refl _ _ }, rests.bearing⟩

/-- A run that ends leaves a resting thread behind. -/
theorem Rests.finish (rests : m.Rests P w0 origin)
    (finished : m.step = .done outcome s) : s.Resting P := by
  obtain ⟨focus, rfl⟩ := step_done_iff.mp finished
  have bearing := rests.bearing
  rw [focus] at bearing
  exact rests.regular.resting bearing.1

end Machine

end Tenancy
