import Mathlib.Data.List.Induction
import Mathlib.Data.List.Nodup
import Tenancy.Code.Assembly
import Tenancy.Proofs.Flavours

/-!
What lines of assembly stand for.

Every line but a label or a mark stands for one instruction, and the instructions come in the order of
their lines. A line can be read off its instruction again. A jump is emitted before its target is
known and is pointed at it when its label is placed. This changes the target of the jump and nothing
else, and no other line ever changes an instruction that is there.
-/

namespace Tenancy

open Option UInt16

/-! ### Codes, windows and literals -/

theorem Opcode.nodup_table : Opcode.table.Nodup := by decide

theorem Window.unpack_pack (w : Window) : unpack w.pack = w := by
  have base := w.base.toNat_lt
  have count := w.count.toNat_lt
  have field : w.pack.toNat = w.count.toNat * 256 + w.base.toNat :=
    toNat_ofNat_of_lt' (by simp only [size]; omega)
  have low : (w.count.toNat * 256 + w.base.toNat) % 256 = w.base.toNat := by omega
  have high : (w.count.toNat * 256 + w.base.toNat) / 256 = w.count.toNat := by omega
  rw [unpack, field, low, high, UInt8.ofNat_toNat, UInt8.ofNat_toNat]

namespace Instruction

theorem literal_withLiteral (op : Opcode) (target : Operand) (value : Int32) :
    (Assembler.withLiteral op target value).literal = value := by
  have bits := value.toUInt32.toNat_lt
  have low : (ofNat (value.toUInt32.toNat % 65536)).toNat = value.toUInt32.toNat % 65536 :=
    toNat_ofNat_of_lt' (Nat.mod_lt _ (by decide))
  have high : (ofNat (value.toUInt32.toNat / 65536)).toNat = value.toUInt32.toNat / 65536 :=
    toNat_ofNat_of_lt' (by simp only [size]; omega)
  simp only [literal, Assembler.withLiteral, Operand.constant, low, high]
  rw [Nat.mod_add_div']
  apply Int32.toBitVec_inj.mp
  simp

def target? (i : Instruction) : Option UInt16 :=
  match i.op? with
  | some .jmp => some i.first.index
  | some .jz | some .jnz => some i.second.index
  | _ => none

/-- Two instructions that differ in the target of a jump at most. -/
structure SameButTarget (i j : Instruction) : Prop where
  op : j.op? = i.op?
  first : j.first.place = i.first.place ∧ (i.op? ≠ some .jmp → j.first = i.first)
  second : j.second.place = i.second.place ∧ (i.op? = some .jmp → j.second = i.second)
  third : j.third = i.third

theorem SameButTarget.refl (i : Instruction) : i.SameButTarget i :=
  ⟨rfl, ⟨rfl, fun _ => rfl⟩, ⟨rfl, fun _ => rfl⟩, rfl⟩

theorem op?_eq_jmp {i : Instruction} : i.op? = some .jmp ↔ i.code = Opcode.jmp.toByte := by
  have jmp : Opcode.ofByte? Opcode.jmp.toByte = some .jmp := by decide
  refine ⟨fun decoded => ?_, fun same => ?_⟩
  · have place : i.code.toNat = Opcode.jmp.toByte.toNat :=
      (List.getElem?_inj (List.getElem?_eq_some_iff.mp decoded).1 Opcode.nodup_table).mp
        (decoded.trans jmp.symm)
    exact UInt8.toNat_inj.mp place
  · rw [op?, same, jmp]

variable (t : UInt16) (i : Instruction)

@[simp] theorem op?_retarget : (Assembler.retarget t i).op? = i.op? := by
  unfold Assembler.retarget
  split <;> rfl

theorem sameButTarget_retarget : i.SameButTarget (Assembler.retarget t i) := by
  refine ⟨op?_retarget t i, ?_, ?_, ?_⟩
  all_goals
    unfold Assembler.retarget
    split <;> simp_all [op?_eq_jmp]

theorem target?_retarget {op : Opcode} (decoded : i.op? = some op)
    (jumps : op = .jmp ∨ op = .jz ∨ op = .jnz) : (Assembler.retarget t i).target? = some t := by
  rw [target?, op?_retarget, decoded]
  unfold Assembler.retarget
  by_cases jmp : i.code = Opcode.jmp.toByte
  · obtain rfl := some.inj (decoded.symm.trans (op?_eq_jmp.mpr jmp))
    rw [if_pos jmp]
  · rw [if_neg jmp]
    rcases jumps with rfl | rfl | rfl
    · exact absurd (op?_eq_jmp.mp decoded) jmp
    · rfl
    · rfl

end Instruction

/-! ### Lines and their instructions -/

namespace Line

/-- Labels and marks stand for places, other lines for instructions. -/
def emits : Line → Bool
  | .bind _ | .mark _ => false
  | _ => true

def forward? : Line → Option String
  | .jmp label | .jz _ label | .jnz _ label => some label
  | _ => none

def placed? : Line → Option String
  | .bind label => some label
  | _ => none

def backward? : Line → Option String
  | .jmpBack name | .jnzBack _ name => some name
  | _ => none

/-- There is such an operation, and the locals of a window can be counted in a byte. -/
def Fits : Line → Prop
  | .binary op flavour _ _ _ => flavour ∈ op.flavours
  | .mkMapping _ _ pairs => pairs.toNat ≤ 127
  | .callOther _ _ _ count => count.toNat ≤ 254
  | _ => True

def Spans (i : Instruction) (base : UInt8) (count : Nat) : Prop :=
  i.window.base = base ∧ i.window.count.toNat = count

/-- An operation with a target, a number and a window. -/
def Calls (i : Instruction) (op : Opcode) (target : Operand) (number : UInt16) (base : UInt8)
    (count : Nat) : Prop :=
  i.op? = some op ∧ i.first = target ∧ i.second.index = number ∧ Spans i base count

/-- What a line says can be read off the instruction. Targets of jumps are left open. -/
def Tells (i : Instruction) : Line → Prop
  | .nop => i.op? = some .nop
  | .ret source => i.op? = some .ret ∧ i.first = source
  | .chkparam => i.op? = some .chkparam
  | .mov target source => i.op? = some .mov ∧ i.first = target ∧ i.second = source
  | .ldi target value => i.op? = some .ldi ∧ i.first = target ∧ i.literal = value
  | .ldr target value => i.op? = some .ldr ∧ i.first = target ∧ i.literal = value.toFixed
  | .ldn target => i.op? = some .ldn ∧ i.first = target
  | .binary op flavour target left right =>
    i.op? = some (.binary op flavour) ∧ i.first = target ∧ i.second = left ∧ i.third = right
  | .not target source => i.op? = some .not ∧ i.first = target ∧ i.second = source
  | .neg target source => i.op? = some .neg ∧ i.first = target ∧ i.second = source
  | .idxGet target container key =>
    i.op? = some .idxGet ∧ i.first = target ∧ i.second = container ∧ i.third = key
  | .idxSet container key value =>
    i.op? = some .idxSet ∧ i.first = container ∧ i.second = key ∧ i.third = value
  | .mkEmptyArray target => i.op? = some .mkEmptyArray ∧ i.first = target
  | .mkArray target base count => i.op? = some .mkArray ∧ i.first = target ∧ Spans i base count.toNat
  | .mkEmptyMapping target => i.op? = some .mkEmptyMapping ∧ i.first = target
  | .mkMapping target base pairs =>
    i.op? = some .mkMapping ∧ i.first = target ∧ Spans i base (2 * pairs.toNat)
  | .callNear target function base count => Calls i .callNear target function base count.toNat
  | .callFar target constant base count => Calls i .callFar target constant base count.toNat
  | .callName target constant base count => Calls i .callName target constant base count.toNat
  | .callOther target constant base count => Calls i .callOther target constant base (count.toNat + 1)
  | .callEfun target constant base count => Calls i .callEfun target constant base count.toNat
  | .jmp _ | .jmpBack _ => i.op? = some .jmp
  | .jz condition _ => i.op? = some .jz ∧ i.first = condition
  | .jnz condition _ | .jnzBack condition _ => i.op? = some .jnz ∧ i.first = condition
  | .bind _ | .mark _ => True
  | .exactly instruction => i = instruction

variable {l : Line} {i j : Instruction}

theorem tells_of_sameButTarget (jump : l.forward? = some label)
    (same : i.SameButTarget j) (tells : l.Tells i) : l.Tells j := by
  cases l with
  | jmp => exact same.op.trans tells
  | jz => exact ⟨same.op.trans tells.1, (same.first.2 (by simp [tells.1])).trans tells.2⟩
  | jnz => exact ⟨same.op.trans tells.1, (same.first.2 (by simp [tells.1])).trans tells.2⟩
  | _ => simp [forward?] at jump

theorem emits_of_forward (jump : l.forward? = some label) : l.emits = true := by
  cases l <;> simp_all [forward?, emits]

theorem placed?_of_emits (stands : l.emits = true) : l.placed? = none := by
  cases l <;> simp_all [placed?, emits]

theorem emits_of_backward (jump : l.backward? = some name) : l.emits = true := by
  cases l <;> simp_all [backward?, emits]

theorem forward?_of_backward (jump : l.backward? = some name) : l.forward? = none := by
  cases l <;> simp_all [backward?, forward?]

theorem jumps_of_forward (jump : l.forward? = some label) (tells : l.Tells i) :
    ∃ op, i.op? = some op ∧ (op = .jmp ∨ op = .jz ∨ op = .jnz) := by
  cases l with
  | jmp => exact ⟨_, tells, .inl rfl⟩
  | jz => exact ⟨_, tells.1, .inr (.inl rfl)⟩
  | jnz => exact ⟨_, tells.1, .inr (.inr rfl)⟩
  | _ => simp [forward?] at jump

end Line

namespace Assembler

variable {a : Assembler} {l : Line} {label : String} {k : Nat} {i : Instruction} {lines : List Line}

/-- What a line that stands for an instruction does. -/
structure Emits (a : Assembler) (l : Line) (i : Instruction) : Prop where
  code : (a.line l).code = a.code.push i
  waiting : (a.line l).waiting = (l.forward?.map (·, a.code.size)).toList ++ a.waiting
  marks : (a.line l).marks = a.marks
  tells : l.Fits → l.Tells i
  back : ∀ mark, l.backward? = some mark → i.target? = some (a.markAt mark)

theorem calls_withWindow (decodes : Opcode.ofByte? op.toByte = some op) (target : Operand)
    (number : UInt16) (base : UInt8) (counts : count.toNat = n) :
    Line.Calls (withWindow op target number ⟨base, count⟩) op target number base n := by
  have window : (withWindow op target number ⟨base, count⟩).window = _ := Window.unpack_pack _
  exact ⟨decodes, rfl, rfl, by rw [window], by rw [window]; exact counts⟩

theorem exists_emits (a : Assembler) (emits : l.emits = true) : ∃ i, a.Emits l i := by
  have none {P : String → Prop} : ∀ name, (none : Option String) = some name → P name := nofun
  cases l with
  | bind | mark => simp [Line.emits] at emits
  | exactly => exact ⟨_, rfl, rfl, rfl, fun _ => rfl, none⟩
  | nop | chkparam | jmp => exact ⟨_, rfl, rfl, rfl, fun _ => rfl, none⟩
  | ret | ldn | mkEmptyArray | mkEmptyMapping | jz | jnz =>
    exact ⟨_, rfl, rfl, rfl, fun _ => ⟨rfl, rfl⟩, none⟩
  | mov | not | neg => exact ⟨_, rfl, rfl, rfl, fun _ => ⟨rfl, rfl, rfl⟩, none⟩
  | idxGet | idxSet => exact ⟨_, rfl, rfl, rfl, fun _ => ⟨rfl, rfl, rfl, rfl⟩, none⟩
  | binary =>
    exact ⟨_, rfl, rfl, rfl, fun fits => ⟨Opcode.ofByte?_toByte fits, rfl, rfl, rfl⟩, none⟩
  | ldi | ldr =>
    exact ⟨_, rfl, rfl, rfl, fun _ => ⟨rfl, rfl, Instruction.literal_withLiteral _ _ _⟩, none⟩
  | callNear | callFar | callName | callEfun =>
    exact ⟨_, rfl, rfl, rfl, fun _ => calls_withWindow (by decide) _ _ _ rfl, none⟩
  | mkArray target base count =>
    have made : Line.Calls (withWindow .mkArray target 0 ⟨base, count⟩) .mkArray target 0 base _ :=
      calls_withWindow (by decide) _ _ _ rfl
    exact ⟨_, rfl, rfl, rfl, fun _ => ⟨made.1, made.2.1, made.2.2.2⟩, none⟩
  | mkMapping target base pairs =>
    refine ⟨_, rfl, rfl, rfl, fun fits => ?_, none⟩
    have counts : (pairs * 2).toNat = 2 * pairs.toNat := by
      have few : pairs.toNat ≤ 127 := fits
      rw [UInt8.toNat_mul]
      show pairs.toNat * 2 % 256 = _
      omega
    have made : Line.Calls (withWindow .mkMapping target 0 ⟨base, pairs * 2⟩) .mkMapping target 0 base _ :=
      calls_withWindow (by decide) _ _ _ counts
    exact ⟨made.1, made.2.1, made.2.2.2⟩
  | callOther target constant base count =>
    refine ⟨_, rfl, rfl, rfl, fun fits => calls_withWindow (by decide) _ _ _ ?_, none⟩
    have few : count.toNat ≤ 254 := fits
    rw [UInt8.toNat_add]
    show (count.toNat + 1) % 256 = _
    omega
  | jmpBack =>
    refine ⟨_, rfl, rfl, rfl, fun _ => rfl, ?_⟩
    rintro _ ⟨⟩
    rfl
  | jnzBack =>
    refine ⟨_, rfl, rfl, rfl, fun _ => ⟨rfl, rfl⟩, ?_⟩
    rintro _ ⟨⟩
    rfl

/-! ### Runs of lines -/

def emitted (lines : List Line) : Nat := lines.countP Line.emits

/-- The jump at `k` is the last that waits for the label. -/
def Awaits (lines : List Line) (label : String) (k : Nat) : Prop :=
  ∃ before l mid, lines = before ++ l :: mid ∧ l.forward? = some label ∧ emitted before = k ∧
    ∀ x ∈ mid, x.forward? ≠ some label ∧ x.placed? ≠ some label

def run (lines : List Line) : Assembler := lines.foldl line {}

theorem run_concat (before : List Line) (l : Line) : run (before ++ [l]) = (run before).line l :=
  List.foldl_append

theorem emitted_append (before after : List Line) :
    emitted (before ++ after) = emitted before + emitted after := List.countP_append

theorem code_line_bind (a : Assembler) (label : String) (k : Nat) :
    (a.line (.bind label)).code[k]? = if a.waiting.lookup label = some k
      then a.code[k]?.map (retarget (ofNat a.code.size)) else a.code[k]? := by
  unfold line bindLabel
  dsimp only
  cases found : a.waiting.lookup label with
  | none => simp
  | some jump =>
    simp only [Array.getElem?_modify, some.injEq]

theorem size_line (a : Assembler) (l : Line) :
    (a.line l).code.size = a.code.size + if l.emits then 1 else 0 := by
  by_cases emits : l.emits = true
  · obtain ⟨i, emitted⟩ := exists_emits a emits
    simp [emitted.code, emits]
  · cases l with
    | bind label =>
      unfold line bindLabel
      dsimp only
      split <;> simp [Line.emits]
    | mark => rfl
    | _ => simp [Line.emits] at emits

theorem size_run (lines : List Line) : (run lines).code.size = emitted lines := by
  induction lines using List.reverseRecOn with
  | nil => rfl
  | append_singleton before l ih => rw [run_concat, size_line, ih, emitted, emitted, List.countP_append,
      List.countP_singleton]

theorem lookup_filter_ne {waiting : List (String × Nat)} (other : String) :
    (waiting.filter (·.1 ≠ other)).lookup label =
      if label = other then none else waiting.lookup label := by
  induction waiting with
  | nil => simp
  | cons e rest ih =>
    obtain ⟨b, j⟩ := e
    rw [List.filter_cons]
    by_cases here : b = other
    · rw [if_neg (by simp [here]), ih]
      by_cases same : label = other <;>
        simp [same, here, List.lookup_cons, beq_eq_false_iff_ne.mpr]
    · rw [if_pos (by simp [here]), List.lookup_cons, ih]
      by_cases found : label = b <;>
        simp [found, here, List.lookup_cons, beq_eq_false_iff_ne.mpr]

theorem awaits_concat (lines : List Line) (x : Line) : Awaits (lines ++ [x]) label k ↔
    (x.forward? = some label ∧ emitted lines = k) ∨
      (x.forward? ≠ some label ∧ x.placed? ≠ some label ∧ Awaits lines label k) := by
  constructor
  · rintro ⟨before, l, mid, split, jump, place, clear⟩
    rcases List.eq_nil_or_concat mid with rfl | ⟨mid, y, rfl⟩
    · obtain ⟨rfl, same⟩ := List.append_inj' split rfl
      exact .inl ⟨List.singleton_inj.mp same ▸ jump, place⟩
    · rw [List.concat_eq_append, ← List.cons_append, ← List.append_assoc] at split
      obtain ⟨rfl, same⟩ := List.append_inj' split rfl
      obtain rfl := List.singleton_inj.mp same
      obtain ⟨other, notBound⟩ := clear x (by simp)
      exact .inr ⟨other, notBound, before, l, mid, rfl, jump, place,
        fun y mem => clear y (by simp [mem])⟩
  · rintro (⟨jump, place⟩ | ⟨other, notBound, before, l, mid, rfl, jump, place, clear⟩)
    · exact ⟨lines, x, [], rfl, jump, place, by simp⟩
    · refine ⟨before, l, mid ++ [x], by simp, jump, place, fun y mem => ?_⟩
      rcases List.mem_append.mp mem with old | new
      · exact clear y old
      · rw [List.mem_singleton.mp new]
        exact ⟨other, notBound⟩

theorem lookup_waiting_line (a : Assembler) (l : Line) : (a.line l).waiting.lookup label =
    if l.forward? = some label then some a.code.size
    else if l.placed? = some label then none else a.waiting.lookup label := by
  by_cases emits : l.emits = true
  · obtain ⟨i, emitted⟩ := exists_emits a emits
    rw [emitted.waiting, Line.placed?_of_emits emits]
    cases jump : l.forward? with
    | none => simp
    | some name =>
      by_cases same : label = name
      · simp [same]
      · simp [List.lookup_cons, beq_eq_false_iff_ne.mpr same, Ne.symm same]
  · cases l with
    | mark => rfl
    | bind name =>
      simp only [Line.forward?, Line.placed?, line, bindLabel, reduceCtorEq, if_false, some.injEq]
      cases found : a.waiting.lookup name with
      | none =>
        by_cases same : name = label
        · simp [← same, found]
        · simp [same]
      | some jump =>
        rw [lookup_filter_ne]
        by_cases same : label = name
        · simp [same]
        · simp [same, Ne.symm same]
    | _ => simp [Line.emits] at emits

/-- A label is waited for by the last jump that names it, unless it has been placed since. -/
theorem lookup_waiting (lines : List Line) (label : String) (k : Nat) :
    (run lines).waiting.lookup label = some k ↔ Awaits lines label k := by
  induction lines using List.reverseRecOn with
  | nil => simp [run, Awaits]
  | append_singleton lines x ih =>
    rw [run_concat, lookup_waiting_line, awaits_concat, ← ih, size_run]
    by_cases jump : x.forward? = some label
    · simp [jump]
    · by_cases bound : x.placed? = some label <;> simp [jump, bound]

theorem eq_of_emitted_eq (same : before ++ l :: after = before' ++ l' :: after')
    (emits : l.emits = true) (emits' : l'.emits = true) (place : emitted before = emitted before') :
    before = before' ∧ l = l' ∧ after = after' := by
  rcases List.append_eq_append_iff.mp same with ⟨mid, rfl, rest⟩ | ⟨mid, rfl, rest⟩
  all_goals
    cases mid with
    | nil => simp_all
    | cons x mid =>
      obtain ⟨rfl, -⟩ := List.cons.inj rest
      simp_all [emitted, List.countP_append]

theorem Awaits.line {before after : List Line}
    (awaits : Awaits (before ++ l :: after) label (emitted before)) (emits : l.emits = true) :
    l.forward? = some label ∧ ∀ x ∈ after, x.forward? ≠ some label ∧ x.placed? ≠ some label := by
  obtain ⟨before', l', mid, same, jump, place, clear⟩ := awaits
  obtain ⟨rfl, rfl, rfl⟩ := eq_of_emitted_eq same emits (Line.emits_of_forward jump) place.symm
  exact ⟨jump, clear⟩

theorem Awaits.lt_emitted (awaits : Awaits lines label k) : k < emitted lines := by
  obtain ⟨before, l, mid, rfl, jump, rfl, -⟩ := awaits
  have emits := Line.emits_of_forward jump
  rw [emitted_append]
  simp [emitted, emits]

/-! ### What becomes of an instruction -/

theorem code_run_concat (lines : List Line) (x : Line) (within : k < emitted lines) :
    (run (lines ++ [x])).code[k]? = (run lines).code[k]? ∨ ∃ label, x = .bind label ∧
      Awaits lines label k ∧ (run (lines ++ [x])).code[k]? =
        (run lines).code[k]?.map (retarget (ofNat (emitted lines))) := by
  rw [run_concat]
  by_cases emits : x.emits = true
  · obtain ⟨i, emitted⟩ := exists_emits (run lines) emits
    have ne : k ≠ (run lines).code.size := by
      rw [size_run]
      exact Nat.ne_of_lt within
    left
    rw [emitted.code, Array.getElem?_push, if_neg ne]
  · cases x with
    | mark => exact .inl rfl
    | bind label =>
      rw [code_line_bind, size_run]
      split
      · exact .inr ⟨label, rfl, (lookup_waiting _ _ _).mp ‹_›, rfl⟩
      · exact .inl rfl
    | _ => simp [Line.emits] at emits

theorem code_run_append {after : List Line} (within : k < emitted lines)
    (never : ∀ mid label rest, after = mid ++ .bind label :: rest → ¬ Awaits (lines ++ mid) label k) :
    (run (lines ++ after)).code[k]? = (run lines).code[k]? := by
  induction after using List.reverseRecOn with
  | nil => rw [List.append_nil]
  | append_singleton after x ih =>
    have same := ih fun mid label rest split =>
      never mid label (rest ++ [x]) (by rw [split]; simp)
    have further : k < emitted (lines ++ after) := by
      rw [emitted_append]
      omega
    rw [← List.append_assoc]
    rcases code_run_concat (lines ++ after) x further with kept | ⟨label, rfl, awaits, -⟩
    · exact kept.trans same
    · exact absurd awaits (never after label [] rfl)

theorem code_run_emits (before : List Line) (emits : l.emits = true) :
    ∃ i, (run before).Emits l i ∧ (run (before ++ [l])).code[emitted before]? = some i := by
  obtain ⟨i, emission⟩ := exists_emits (run before) emits
  refine ⟨i, emission, ?_⟩
  rw [run_concat, emission.code, ← size_run]
  simp

theorem lt_emitted_concat (before : List Line) (emits : l.emits = true) :
    emitted before < emitted (before ++ [l]) := by
  simp [emitted, emits]

theorem tells_run (before after : List Line) (emits : l.emits = true) (fits : l.Fits) :
    ∃ i, (run (before ++ l :: after)).code[emitted before]? = some i ∧ l.Tells i := by
  rw [List.append_cons]
  induction after using List.reverseRecOn with
  | nil =>
    obtain ⟨i, emission, here⟩ := code_run_emits before emits
    exact ⟨i, by rwa [List.append_nil], emission.tells fits⟩
  | append_singleton after x ih =>
    obtain ⟨i, here, tells⟩ := ih
    have within : emitted before < emitted (before ++ [l] ++ after) := by
      rw [emitted_append]
      exact Nat.lt_add_right _ (lt_emitted_concat before emits)
    rw [← List.append_assoc]
    rcases code_run_concat _ x within with kept | ⟨label, -, awaits, pointed⟩
    · exact ⟨i, kept.trans here, tells⟩
    · rw [← List.append_cons] at awaits
      obtain ⟨jump, -⟩ := awaits.line emits
      rw [here, map_some] at pointed
      exact ⟨_, pointed, Line.tells_of_sameButTarget jump (i.sameButTarget_retarget _) tells⟩

theorem lookup_marks {before mid : List Line} {name : String} (clear : .mark name ∉ mid) :
    (run (before ++ .mark name :: mid)).marks.lookup name = some (emitted before) := by
  rw [List.append_cons]
  induction mid using List.reverseRecOn with
  | nil =>
    rw [List.append_nil, run_concat, ← size_run]
    simp [Assembler.line]
  | append_singleton mid x ih =>
    have earlier := ih fun mem => clear (by simp [mem])
    rw [← List.append_assoc, run_concat]
    by_cases emits : x.emits = true
    · obtain ⟨i, emission⟩ := exists_emits (run (before ++ [.mark name] ++ mid)) emits
      rw [emission.marks, earlier]
    · cases x with
      | bind label =>
        rw [← earlier]
        unfold line bindLabel
        dsimp only
        split <;> rfl
      | mark other =>
        have apart : name ≠ other := by
          rintro rfl
          exact clear (by simp)
        show List.lookup name ((other, _) :: (run (before ++ [.mark name] ++ mid)).marks) = _
        rw [List.lookup_cons, beq_eq_false_iff_ne.mpr apart, earlier]
      | _ => simp [Line.emits] at emits

end Assembler

open Assembler

/-- A jump to `target`, which the code allows. -/
def Instruction.Reaches (i : Instruction) (code : Array Instruction) (target : Nat) : Prop :=
  ∃ t, i.target? = some t ∧ t.toNat = target ∧ ∀ s, Exec.jump code t s = .ok (.next target) s

/-- What the code of lines is. -/
structure Assembled (lines : List Line) : Prop where
  size : (assemble lines).size = emitted lines
  /-- In order, each instruction says what its line says. -/
  tells : ∀ before l after, lines = before ++ l :: after → l.emits = true →
    ∃ i, (assemble lines)[emitted before]? = some i ∧ l.Tells i
  /-- A jump leads to where its label was placed. -/
  forward : ∀ before label after k, lines = before ++ .bind label :: after → Awaits before label k →
    ∃ i, (assemble lines)[k]? = some i ∧ i.Reaches (assemble lines) (emitted before)
  /-- A jump leads back to where its mark was left last. -/
  backward : ∀ before name mid l after, lines = before ++ .mark name :: (mid ++ l :: after) →
    l.backward? = some name → .mark name ∉ mid → ∃ i,
      (assemble lines)[emitted (before ++ mid)]? = some i ∧ i.Reaches (assemble lines) (emitted before)
  /-- To place a label changes the target of its jump and nothing else. -/
  bind : ∀ before label after k i, lines = before ++ .bind label :: after →
    (assemble before)[k]? = some i → ∃ j, (assemble (before ++ [.bind label]))[k]? = some j ∧
      i.SameButTarget j ∧ (j ≠ i → Awaits before label k)

theorem Instruction.reaches_of_target? {i : Instruction} {code : Array Instruction}
    (aims : i.target? = some (ofNat target)) (few : target ≤ 65535)
    (within : target ≤ code.size) : i.Reaches code target := by
  have exact : (ofNat target).toNat = target :=
    toNat_ofNat_of_lt' (by simp only [size]; omega)
  refine ⟨_, aims, exact, fun s => ?_⟩
  simp only [Exec.jump, exact, within, if_true]
  rfl

theorem assemble_assembled (lines : List Line) (few : emitted lines ≤ 65535)
    (fits : ∀ l ∈ lines, l.Fits) : Assembled lines where
  size := size_run lines
  tells := by
    rintro before l after rfl emits
    exact tells_run before after emits (fits l (by simp))
  forward := by
    rintro before label after k rfl awaits
    obtain ⟨first, l, mid, rfl, jump, rfl, clear⟩ := id awaits
    have emits := Line.emits_of_forward jump
    obtain ⟨i, here, tells⟩ := tells_run first mid emits (fits l (by simp))
    obtain ⟨op, decoded, jumps⟩ := Line.jumps_of_forward jump tells
    rw [emitted_append] at few
    -- Placed once, the label is not placed for this jump again.
    have kept : (assemble (first ++ l :: mid ++ .bind label :: after))[emitted first]? =
        (run (first ++ l :: mid ++ [.bind label])).code[emitted first]? := by
      rw [List.append_cons]
      refine code_run_append ?_ fun mid' label' rest _ again => ?_
      · rw [emitted_append]
        exact Nat.lt_add_right _ awaits.lt_emitted
      · rw [List.append_assoc, List.append_assoc, List.cons_append] at again
        obtain ⟨jump', clear'⟩ := again.line emits
        obtain rfl := some.inj (jump.symm.trans jump')
        exact (clear' (.bind label) (by simp)).2 rfl
    have pointed : (run (first ++ l :: mid ++ [.bind label])).code[emitted first]? =
        some (retarget (ofNat (emitted (first ++ l :: mid))) i) := by
      rw [run_concat, code_line_bind, if_pos ((lookup_waiting _ _ _).mpr awaits), here, size_run]
      rfl
    refine ⟨_, kept.trans pointed, Instruction.reaches_of_target?
      (i.target?_retarget _ decoded jumps) ?_ ?_⟩
    · omega
    · rw [show (assemble _).size = _ from size_run _, emitted_append (first ++ l :: mid)]
      omega
  backward := by
    rintro before name mid l after rfl jump clear
    have emits := Line.emits_of_backward jump
    obtain ⟨i, emission, here⟩ := code_run_emits (before ++ .mark name :: mid) emits
    have place : emitted (before ++ .mark name :: mid) = emitted (before ++ mid) := by
      simp [emitted, Line.emits]
    have split : before ++ .mark name :: (mid ++ l :: after) =
        before ++ .mark name :: mid ++ [l] ++ after := by simp
    rw [place] at here
    have kept : (assemble (before ++ .mark name :: (mid ++ l :: after)))[emitted (before ++ mid)]? =
        some i := by
      rw [split, ← here]
      refine code_run_append ?_ fun mid' label rest _ awaits => ?_
      · rw [← place]
        exact lt_emitted_concat _ emits
      · rw [← place, List.append_assoc] at awaits
        have forward := (awaits.line emits).1
        rw [Line.forward?_of_backward jump] at forward
        cases forward
    have aims := emission.back name jump
    rw [markAt, lookup_marks clear, getD_some] at aims
    have bound : emitted before ≤ emitted (before ++ .mark name :: (mid ++ l :: after)) := by
      rw [emitted_append]
      omega
    refine ⟨i, kept, Instruction.reaches_of_target? aims (by omega) ?_⟩
    rw [show (assemble _).size = _ from size_run _]
    exact bound
  bind := by
    rintro before label after k i rfl here
    have within : k < emitted before := by
      rw [← size_run]
      exact (Array.getElem?_eq_some_iff.mp here).1
    rcases code_run_concat before (.bind label) within with kept | ⟨_, ⟨⟩, awaits, pointed⟩
    · exact ⟨i, kept.trans here, .refl i, by simp⟩
    · rw [show (run before).code[k]? = some i from here, map_some] at pointed
      exact ⟨_, pointed, i.sameButTarget_retarget _, fun _ => awaits⟩

/-- A loop that is left from its middle, with a table and a call. -/
def loopLines : List Line :=
  [.mark "top", .jz (.argument 0) "out", .mkMapping (.local 0) 1 127, .jmp "next",
    .callOther (.local 0) 3 4 254, .bind "next", .ldi (.local 1) (-2), .jmpBack "top", .bind "out",
    .ret (.local 0)]

theorem loopLines_assembled : emitted loopLines = 7 ∧ (∀ l ∈ loopLines, l.Fits) ∧
    Assembled loopLines ∧ ((assemble loopLines).map Instruction.target?).toList =
      [some 6, none, some 4, none, none, some 0, none] := by
  have few : emitted loopLines = 7 := by decide
  have fits : ∀ l ∈ loopLines, l.Fits := by simp [loopLines, Line.Fits]
  exact ⟨few, fits, assemble_assembled loopLines (by omega) fits, by decide +kernel⟩

end Tenancy
