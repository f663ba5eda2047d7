import Tenancy.Proofs.Population

/-!
Objects and frames have their programs.

An object is made from a program, with a slot for each variable, and keeps both. A frame runs a
function of a component of its object. So it is in every state of a system, whatever hosts and native
bodies do; and if all programs that objects are made from have some property, then all objects have
programs of that property.
-/

namespace Tenancy

open Tenancy.Action Motion List Exec

namespace World

variable {Q : Program → Prop} {w w' w'' : World}

/-- All programs have a property, and objects have a slot for each variable of their program. -/
structure Staffed (Q : Program → Prop) (w : World) : Prop where
  linked : ∀ p ∈ w.registry.linked, Q p
  objects : ∀ o ∈ w.objects, Q o.program
  storage : ∀ o ∈ w.objects, o.members.size = o.program.size

/-- Objects keep their programs, and new ones are as they should be. -/
structure Keeps (Q : Program → Prop) (w w' : World) : Prop where
  retains : w.Retains w'
  staffed : w.Staffed Q → w'.Staffed Q

namespace Keeps

theorem refl (w : World) : w.Keeps Q w := ⟨.refl w, id⟩

theorem trans (first : w.Keeps Q w') (second : w'.Keeps Q w'') : w.Keeps Q w'' :=
  ⟨first.retains.trans second.retains, second.staffed ∘ first.staffed⟩

theorem of_eq (registry : w'.registry = w.registry) (objects : w'.objects = w.objects) :
    w.Keeps Q w' where
  retains := .of_eq objects
  staffed staffed := by
    refine ⟨?_, ?_, ?_⟩
    · rw [registry]
      exact staffed.linked
    · rw [objects]
      exact staffed.objects
    · rw [objects]
      exact staffed.storage

theorem modifyObject (w : World) (k : ObjectKey) (program : ∀ o, (f o).program = o.program)
    (members : ∀ o, (f o).members.size = o.members.size) : w.Keeps Q (w.modifyObject k f) where
  retains := .modifyObject w k program
  staffed staffed := by
    refine ⟨staffed.linked, fun o mem => ?_, fun o mem => ?_⟩
    · rcases mem_modifyObject mem with old | ⟨before, old, rfl⟩
      · exact staffed.objects o old
      · rw [program]
        exact staffed.objects before old
    · rcases mem_modifyObject mem with old | ⟨before, old, rfl⟩
      · exact staffed.storage o old
      · rw [program, members]
        exact staffed.storage before old

theorem newObject (w : World) (holds : w.Staffed Q → Q program) (k : DomainKey) :
    w.Keeps Q (w.newObject program k).2 where
  retains := .newObject w program k
  staffed staffed := by
    have cases : ∀ o ∈ (w.newObject program k).2.objects, o ∈ w.objects ∨
        o.program = program ∧ o.members = Array.replicate program.size .nil := by
      intro o mem
      rcases Array.mem_push.mp mem with old | rfl
      · exact .inl old
      · exact .inr ⟨rfl, rfl⟩
    refine ⟨staffed.linked, fun o mem => ?_, fun o mem => ?_⟩
    · rcases cases o mem with old | ⟨rfl, -⟩
      · exact staffed.objects o old
      · exact holds staffed
    · rcases cases o mem with old | ⟨rfl, members⟩
      · exact staffed.storage o old
      · rw [members, Array.size_replicate]

theorem destruct (w : World) (id : ObjectId) : w.Keeps Q (w.destruct id).2 := by
  obtain ⟨_, _, same⟩ := destruct_eq w id
  rw [same]
  exact of_eq rfl rfl

theorem destroyDomain (w : World) (id : DomainId) : w.Keeps Q (w.meet (.destroyDomain id)) := by
  cases result : w.destroyDomain id with
  | error fault =>
    rw [meet_of_refused result]
    exact refl w
  | ok w' =>
    rw [meet_of_destroyed result]
    rcases destroyDomain_cases result with rfl | ⟨k, -, rfl⟩
    · exact refl _
    · exact of_eq rfl rfl

theorem setMember (w : World) (id : ObjectId) (slot : Nat) (v : Value) :
    w.Keeps Q (w.setMember id slot v).2 := by
  unfold World.setMember
  split
  · exact refl w
  · exact modifyObject w _ (fun _ => rfl) fun _ => Array.size_setIfInBounds

theorem meet (w : World)
    (made : ∀ p k, demand = .newObject p k → w.Staffed Q → Q p) : w.Keeps Q (w.meet demand) := by
  cases demand with
  | createDomain => exact of_eq rfl rfl
  | destroyDomain id => exact destroyDomain w id
  | newObject program k => exact newObject w (made program k rfl) k
  | destruct id => exact destruct w id

theorem forget (w : World) (threads : List Thread) (held : List DomainKey) :
    w.Keeps Q (w.forget threads held) :=
  forget_induct (refl w) (fun _ _ _ keeps _ _ => keeps.trans (of_eq rfl rfl))
    fun w' o keeps => keeps.trans (modifyObject w' o (fun _ => rfl) fun _ => rfl)

theorem release (s : State) : s.world.Keeps Q s.release := by
  obtain ⟨w, left, same⟩ := release_eq s
  have freed : s.world.Keeps Q (w.modifyHeap (·.freeAll s.thread.scratch)) := by
    rcases left with rfl | rfl
    · exact of_eq rfl rfl
    · exact of_eq rfl rfl
  rw [same]
  exact (freed.trans (destroyDomain _ _)).trans (of_eq rfl rfl)

end Keeps

end World

/-- Each frame runs a component of its object, or an efun. -/
def State.Grounded (s : State) : Prop := ∀ f ∈ s.thread.frames, f.Based s.world

/-- Actions after which objects and frames still have their programs. -/
def Exec.staffing (Q : Program → Prop) : Motion State where
  Ready _ := True
  Leads s s' := s.world.Keeps Q s'.world ∧ (s.Grounded → s'.Grounded)
  refl s := ⟨.refl s.world, id⟩
  trans first second := ⟨first.1.trans second.1, second.2 ∘ first.2⟩
  ready _ _ := trivial

namespace Exec

variable {Q : Program → Prop}

theorem staffing_leads (keeps : s.world.Keeps Q s'.world)
    (frames : s'.thread.frames <:+ s.thread.frames) : (staffing Q).Leads s s' :=
  ⟨keeps, fun grounded f listed => (grounded f (frames.subset listed)).retained keeps.retains⟩

theorem staffing_drives (Q : Program → Prop) : (staffing Q).Drives where
  enacts :=
    { inDomain := fun _ s _ => by
        rw [inDomain_apply, onHeap_left]
        exact staffing_leads (.of_eq rfl rfl) suffix_rfl
      make := fun share draft => by
        unfold make
        split
        · exact breach_moves _
        · exact fun s _ => staffing_leads (.of_eq rfl rfl) suffix_rfl
      slot := fun s _ v _ _ => staffing_leads (.refl _) suffix_rfl
      push := fun s v _ => staffing_leads (.refl _) suffix_rfl
      member := fun s object slot v _ => staffing_leads
        (.modifyObject _ _ (fun _ => rfl) fun _ => Array.size_setIfInBounds) suffix_rfl
      print := fun s output journal _ => staffing_leads (.of_eq rfl rfl) suffix_rfl
      collect := fun s roots _ => staffing_leads (.of_eq rfl rfl) suffix_rfl }
  anywhere _ := trivial
  heap s heap := staffing_leads (.of_eq rfl rfl) suffix_rfl
  domain s k f _ := staffing_leads (.of_eq rfl rfl) suffix_rfl
  thread s t frames := staffing_leads (.refl _) frames
  frame m c args found := by
    refine ⟨.refl _, fun grounded f listed => ?_⟩
    rcases mem_cons.mp listed with rfl | below
    · exact found.based args
    · exact grounded f below

theorem staffing_replies : (staffing Q).Replies := by
  intro frame c act answered s
  cases c with
  | newObject name =>
    cases answered
    unfold newObject
    rw [get_bind_apply]
    cases found : s.world.findProgram? name with
    | none => exact (staffing Q).refl _
    | some program =>
      refine staffing_leads (.newObject _ (fun staffed => ?_) _) suffix_rfl
      exact staffed.linked program (mem_of_find?_eq_some found)
  | destruct target =>
    cases answered
    exact staffing_leads (.destruct _ _) suffix_rfl
  | destroyDomain id =>
    cases answered
    refine caught_moves (M := staffing Q) (fun s _ => ?_) s trivial
    rw [get_bind_apply]
    have keeps := World.Keeps.destroyDomain (Q := Q) s.world id
    cases destroyed : s.world.destroyDomain id with
    | error f => exact (staffing Q).refl _
    | ok world =>
      rw [World.meet_of_destroyed destroyed] at keeps
      exact staffing_leads keeps suffix_rfl
  | _ =>
    refine (staffing_drives Q).enacts.reply_moves ?_ answered s trivial
    trivial

end Exec

theorem Phase.Goes.staffs {phase phase' : Phase} (goes : phase.Goes phase') :
    (staffing Q).Leads phase.state phase'.state := by
  cases goes with
  | begin begins => exact (staffing_drives Q).begins begins
  | step stepped => exact (staffing_drives Q).step (fun _ => staffing_replies) stepped
  | @expire m m' expired =>
    obtain ⟨-, f, rfl⟩ := Machine.expire?_cases expired
    exact (staffing Q).refl _
  | finish finished =>
    obtain ⟨-, rfl⟩ := Machine.step_done_iff.mp finished
    exact (staffing Q).refl _

namespace System

variable {Q : Program → Prop} {σ σ' : System} {demand : Option Demand}

/-- The system has come about from a blank world, and programs of some property only have been linked
in it and been made objects of. -/
inductive Peopled (Q : Program → Prop) : System → Prop where
  | blank {w : World} (blank : w.Blank fun _ => True) (linked : ∀ p ∈ w.registry.linked, Q p) :
      Peopled Q ⟨w, fun _ => none⟩
  | step {σ σ' : System} {demand : Option Demand} (before : Peopled Q σ)
      (happens : σ.Happens demand σ') (linked : ∀ p ∈ σ'.world.registry.linked, Q p)
      (made : ∀ p k, demand = some (.newObject p k) → Q p) : Peopled Q σ'

structure Staffed (Q : Program → Prop) (σ : System) : Prop where
  world : σ.world.Staffed Q
  grounded : ∀ key task, σ.tasks key = some task → State.Grounded ⟨σ.world, task.thread⟩

theorem Staffed.withWorld (staffed : σ.Staffed Q) (keeps : σ.world.Keeps Q w) :
    Staffed Q { σ with world := w } where
  world := keeps.staffed staffed.world
  grounded key task among f listed := (staffed.grounded key task among f listed).retained keeps.retains

theorem Staffed.put (staffed : σ.Staffed Q) (keeps : σ.world.Keeps Q w)
    (grounded : ∀ t ∈ task, State.Grounded ⟨w, t.thread⟩) : (σ.put key w task).Staffed Q where
  world := keeps.staffed staffed.world
  grounded key' task' among := by
    rw [tasks_put] at among
    split at among
    · exact grounded task' among
    · exact (staffed.withWorld keeps).grounded key' task' among

theorem Happens.staffed (happens : σ.Happens demand σ') (staffed : σ.Staffed Q)
    (linked : ∀ p ∈ σ'.world.registry.linked, Q p)
    (made : ∀ p k, demand = some (.newObject p k) → Q p) : σ'.Staffed Q := by
  cases happens with
  | demand d =>
    exact staffed.withWorld (.meet _ fun p k same _ => made p k (congrArg some same))
  | @attach t w attached =>
    obtain ⟨rfl, rfl⟩ := Thread.attach_eq attached
    refine staffed.put (.of_eq rfl rfl) ?_
    rintro _ ⟨⟩
    simp [State.Grounded, Task.thread]
  | @go key task phase among goes =>
    have leads := goes.staffs (Q := Q)
    rw [Task.state_phase] at leads
    refine staffed.put leads.1 ?_
    rintro _ ⟨⟩
    have grounded := leads.2 (staffed.grounded key task among)
    cases phase with
    | idle | running => exact grounded
  | forget => exact staffed.withWorld (.forget _ _ _)
  | @release key t among unwound =>
    exact staffed.put (.release ⟨σ.world, t⟩) (by simp)
  | heap | nameObject => exact staffed.withWorld (.of_eq rfl rfl)
  | equip registry efuns =>
    exact ⟨⟨linked, staffed.world.objects, staffed.world.storage⟩, fun key task among f listed =>
      (staffed.grounded key task among f listed).retained (.of_eq rfl)⟩
  | setMember id slot v => exact staffed.withWorld (.setMember _ id slot v)
  | collect k roots => exact staffed.withWorld (.of_eq rfl rfl)

theorem Peopled.staffed (peopled : σ.Peopled Q) : σ.Staffed Q := by
  induction peopled with
  | blank blank linked =>
    refine ⟨⟨linked, ?_, ?_⟩, by simp⟩
    · simp [blank.objects]
    · simp [blank.objects]
  | step _ happens linked made ih =>
    exact happens.staffed ih linked made

theorem Peopled.next (peopled : σ.Peopled Q) (happens : σ.Happens demand σ')
    (same : σ'.world.registry = σ.world.registry)
    (made : ∀ p k, demand = some (.newObject p k) → Q p) : σ'.Peopled Q :=
  .step peopled happens (same ▸ peopled.staffed.world.linked) made

end System

end Tenancy
