import Tenancy.Proofs.Machine.Nesting

/-!
Frames on the stacks of a thread.

The windows of the frames lie one above the other on the stack, each between the start of the domain
context that its frame runs in and those of the contexts further up. A mark stands for the stacks that
it was taken of as long as the thread has not been below them.
-/

namespace Tenancy

open Tenancy.Action List

namespace Stacks

variable {s s' high low : Stacks} {f : Frame} {mark : Mark} {c : DomainContext}

/-- The domain context that a frame runs in, if the thread still has it. -/
def context? (s : Stacks) (f : Frame) : Option DomainContext := s.domains.reverse[f.domainDepth]?

/-- Inner frames have their windows above those of outer frames. Each window lies between the start of
the context that its frame runs in and those of the contexts further up. -/
structure Piled (s : Stacks) : Prop where
  ordered : s.frames.Pairwise fun inner outer => outer.localsBase + outer.localCount ≤ inner.argsBase
  lies : ∀ f ∈ s.frames, f.Lies s.size
  starts : ∀ c ∈ s.domains, c.start ≤ s.size
  above : ∀ f ∈ s.frames, ∀ c, s.context? f = some c → c.start ≤ f.argsBase
  below : ∀ f ∈ s.frames, ∀ i c, f.domainDepth < i → s.domains.reverse[i]? = some c →
    f.localsBase + f.localCount ≤ c.start

structure Whole (s : Stacks) : Prop extends Piled s where
  placed : ∀ f ∈ s.frames, f.domainDepth < s.domains.length

structure Grows (s s' : Stacks) : Prop where
  frames : s'.frames = s.frames
  domains : s'.domains = s.domains
  size : s.size ≤ s'.size

theorem Grows.refl (s : Stacks) : s.Grows s := ⟨rfl, rfl, le_rfl⟩

theorem Piled.grow (piled : s.Piled) (grows : s.Grows s') : s'.Piled where
  ordered := grows.frames ▸ piled.ordered
  lies f listed := (piled.lies f (grows.frames ▸ listed)).grow grows.size
  starts c listed := (piled.starts c (grows.domains ▸ listed)).trans grows.size
  above f listed c found := by
    rw [context?, grows.domains] at found
    exact piled.above f (grows.frames ▸ listed) c found
  below f listed i c higher found :=
    piled.below f (grows.frames ▸ listed) i c higher (grows.domains ▸ found)

theorem Whole.grow (whole : s.Whole) (grows : s.Grows s') : s'.Whole where
  toPiled := whole.toPiled.grow grows
  placed f listed := by
    rw [grows.domains]
    exact whole.placed f (grows.frames ▸ listed)

theorem Whole.enter (whole : s.Whole) (nonempty : s.domains ≠ []) {size : Nat}
    (begins : f.argsBase = s.size) (depth : f.domainDepth = s.domains.length - 1)
    (lies : f.Lies size) : Whole ⟨f :: s.frames, s.domains, size⟩ := by
  have higher : s.size ≤ size := begins ▸ lies.le_size
  have some := length_pos_iff.mpr nonempty
  refine ⟨⟨?_, ?_, fun c listed => (whole.starts c listed).trans higher, ?_, ?_⟩, ?_⟩
  · refine pairwise_cons.mpr ⟨fun outer listed => ?_, whole.ordered⟩
    rw [begins]
    exact (whole.lies outer listed).fits
  · exact forall_mem_cons.mpr ⟨lies, fun g listed => (whole.lies g listed).grow higher⟩
  · refine forall_mem_cons.mpr ⟨fun c found => ?_, whole.above⟩
    rw [begins]
    exact whole.starts c (mem_reverse.mp (mem_of_getElem? found))
  · refine List.forall_mem_cons.mpr ⟨fun i c deeper found => ?_, whole.below⟩
    have within : i < s.domains.length := by simpa using (List.getElem?_eq_some_iff.mp found).1
    omega
  · refine List.forall_mem_cons.mpr ⟨?_, whole.placed⟩
    show f.domainDepth < s.domains.length
    omega

theorem Whole.cross (whole : s.Whole) (begins : c.start = s.size) :
    Whole ⟨s.frames, c :: s.domains, s.size⟩ := by
  refine ⟨⟨whole.ordered, whole.lies, ?_, fun f listed d found => ?_,
    fun f listed i d higher found => ?_⟩, fun f listed => ?_⟩
  · exact forall_mem_cons.mpr ⟨begins.le, whole.starts⟩
  · have lower : f.domainDepth < s.domains.reverse.length := by
      rw [length_reverse]
      exact whole.placed f listed
    simp only [context?, reverse_cons, getElem?_append_left lower] at found
    exact whole.above f listed d found
  · rw [reverse_cons, getElem?_append] at found
    split at found
    · exact whole.below f listed i d higher found
    · obtain rfl : d = c := by simpa using mem_of_getElem? found
      rw [begins]
      exact (whole.lies f listed).fits
  · exact Nat.lt_succ_of_lt (whole.placed f listed)

theorem getElem?_reverse_of_suffix {domains domains' : List DomainContext}
    (suffix : domains <:+ domains') {i : Nat} (found : domains.reverse[i]? = some c) :
    domains'.reverse[i]? = some c := by
  obtain ⟨more, rfl⟩ := suffix
  rw [List.reverse_append, List.getElem?_append_left (List.getElem?_eq_some_iff.mp found).1]
  exact found

theorem Piled.tail (piled : s.Piled) : Piled { s with domains := s.domains.tail } where
  ordered := piled.ordered
  lies := piled.lies
  starts c listed := piled.starts c (mem_of_mem_tail listed)
  above f listed c found :=
    piled.above f listed c (getElem?_reverse_of_suffix (tail_suffix _) found)
  below f listed i c higher found :=
    piled.below f listed i c higher (getElem?_reverse_of_suffix (tail_suffix _) found)

theorem Over.eq_of_mark (rises : s.Over low) (rises' : s.Over high) (same : low.mark = high.mark) :
    low = high := by
  obtain ⟨frames, domains, size⟩ := low
  obtain ⟨frames', domains', size'⟩ := high
  obtain ⟨calls, slots, contexts⟩ := Mark.mk.inj same
  have framesEq : frames = frames' := by
    rcases suffix_or_suffix_of_suffix rises.frames rises'.frames with inner | inner
    · exact inner.eq_of_length calls
    · exact (inner.eq_of_length calls.symm).symm
  have domainsEq : domains = domains' := by
    rcases suffix_or_suffix_of_suffix rises.domains rises'.domains with inner | inner
    · exact inner.eq_of_length contexts
    · exact (inner.eq_of_length contexts.symm).symm
  rw [framesEq, domainsEq, show size = size' from slots]

/-- All that there is on top of some stacks has been put there: contexts further up begin above them. -/
structure Tops (high low : Stacks) : Prop where
  frames : low.frames <:+ high.frames
  domains : ∃ more, high.domains = more ++ low.domains ∧ ∀ c ∈ more, low.size ≤ c.start
  size : low.size ≤ high.size

theorem Tops.over (tops : high.Tops low) : high.Over low := by
  obtain ⟨more, same, -⟩ := tops.domains
  exact ⟨tops.frames, ⟨more, same.symm⟩, tops.size⟩

theorem Grows.tops (grows : s.Grows s') : s'.Tops s :=
  ⟨grows.frames ▸ suffix_rfl, ⟨[], grows.domains, by simp⟩, grows.size⟩

theorem Tops.trans (first : high.Tops middle) (second : middle.Tops low) : high.Tops low := by
  obtain ⟨more, same, starts⟩ := first.domains
  obtain ⟨more', same', starts'⟩ := second.domains
  refine ⟨second.frames.trans first.frames, ⟨more ++ more', by rw [same, same', append_assoc], ?_⟩,
    second.size.trans first.size⟩
  intro c listed
  rcases mem_append.mp listed with above | between
  · exact second.size.trans (starts c above)
  · exact starts' c between

theorem Tops.lower (tops : s.Tops low) (rises : s.Over s') (above : s'.Over low) : s'.Tops low := by
  obtain ⟨more, same, starts⟩ := tops.domains
  obtain ⟨dropped, split⟩ := rises.domains
  obtain ⟨more', same'⟩ := above.domains
  refine ⟨above.frames, ⟨more', same'.symm, fun c listed => starts c ?_⟩, above.size⟩
  have whole : dropped ++ more' = more := by
    rw [← same', ← append_assoc, same] at split
    exact append_cancel_right split
  exact whole ▸ mem_append_right _ listed

/-- The mark stands for a pile that is below. -/
def Keeps (s : Stacks) (mark : Mark) : Prop :=
  ∃ target, s.Tops target ∧ mark = target.mark ∧ target.Whole

theorem Whole.keeps (whole : s.Whole) : s.Keeps s.mark := ⟨s, (Grows.refl s).tops, rfl, whole⟩

section

variable (keeps : s.Keeps mark)
include keeps

theorem Keeps.rise (tops : s'.Tops s) : s'.Keeps mark := by
  obtain ⟨target, above, same, whole⟩ := keeps
  exact ⟨target, tops.trans above, same, whole⟩

theorem Keeps.lower (rises : s.Over s') (above : s'.Over low)
    (same : mark = low.mark) : s'.Keeps mark := by
  obtain ⟨target, tops, same', whole⟩ := keeps
  obtain rfl : low = target := (rises.trans above).eq_of_mark tops.over (same ▸ same')
  exact ⟨low, tops.lower rises above, same, whole⟩

theorem Keeps.tail (deeper : mark.domains < s.domains.length) :
    Keeps { s with domains := s.domains.tail } mark := by
  obtain ⟨target, tops, rfl, whole⟩ := keeps
  obtain ⟨more, same, starts⟩ := tops.domains
  cases more with
  | nil =>
    rw [same, nil_append] at deeper
    exact (Nat.lt_irrefl _ deeper).elim
  | cons c more =>
    refine ⟨target, ⟨tops.frames, ⟨more, ?_, fun d listed => starts d (mem_cons_of_mem _ listed)⟩,
      tops.size⟩, rfl, whole⟩
    rw [same]
    rfl

theorem Keeps.stack_le (domains : s.domains = c :: contexts)
    (deeper : mark.domains < s.domains.length) : mark.stack ≤ c.start := by
  obtain ⟨target, tops, rfl, -⟩ := keeps
  obtain ⟨more, same, starts⟩ := tops.domains
  cases more with
  | nil =>
    rw [same, nil_append] at deeper
    exact (Nat.lt_irrefl _ deeper).elim
  | cons d more =>
    obtain ⟨rfl, -⟩ := cons.inj (domains.symm.trans same)
    exact starts c mem_cons_self

theorem Keeps.whole (rises : s.Over s') (same : s'.mark = mark) : s'.Whole := by
  obtain ⟨target, tops, same', whole⟩ := keeps
  obtain rfl : s' = target := rises.eq_of_mark tops.over (same.trans same')
  exact whole

end

/-- What a mark leaves of the stacks fits together: no window, and no context of a frame, is cut, and
no value is left of what goes. -/
structure Fits (s : Stacks) (mark : Mark) : Prop where
  frames : ∀ f ∈ s.frames.drop (s.frames.length - mark.calls),
    f.localsBase + f.localCount ≤ mark.stack ∧ f.domainDepth < mark.domains
  domains : ∀ c ∈ s.domains.drop (s.domains.length - mark.domains), c.start ≤ mark.stack
  gone : ∀ c ∈ s.domains.take (s.domains.length - mark.domains), mark.stack ≤ c.start

theorem Fits.keeps (fits : s.Fits mark) (whole : s.Whole) (calls : mark.calls ≤ s.frames.length)
    (slots : mark.stack ≤ s.size) (contexts : mark.domains ≤ s.domains.length) : s.Keeps mark := by
  have length : (s.domains.drop (s.domains.length - mark.domains)).length = mark.domains := by
    rw [length_drop]
    omega
  refine ⟨⟨s.frames.drop (s.frames.length - mark.calls),
    s.domains.drop (s.domains.length - mark.domains), mark.stack⟩,
    ⟨drop_suffix _ _, ⟨_, (take_append_drop _ _).symm, fits.gone⟩, slots⟩, ?_,
    ⟨?_, ?_, fits.domains, ?_, ?_⟩, ?_⟩
  · simp only [Stacks.mark, length, length_drop]
    rw [Nat.sub_sub_self calls]
  · exact whole.ordered.sublist (drop_sublist _ _)
  · exact fun f listed =>
      { whole.lies f (mem_of_mem_drop listed) with fits := (fits.frames f listed).1 }
  · exact fun f listed c found => whole.above f (mem_of_mem_drop listed) c
      (getElem?_reverse_of_suffix (drop_suffix _ _) found)
  · exact fun f listed i c higher found => whole.below f (mem_of_mem_drop listed) i c higher
      (getElem?_reverse_of_suffix (drop_suffix _ _) found)
  · intro f listed
    rw [length]
    exact (fits.frames f listed).2

end Stacks

end Tenancy
