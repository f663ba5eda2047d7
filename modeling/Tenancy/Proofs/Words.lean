import Mathlib.Algebra.Ring.Nat
import Tenancy.Code.Instruction

/-!
Words and the instructions they hold.

Every instruction can be read back from its word. Two bits of a word belong to no field: packing
clears them, and words that differ in these bits only hold one instruction.
-/

namespace Tenancy

namespace Place

theorem bits_lt (place : Place) : place.bits < 4 := by cases place <;> decide

theorem bits_ofBits (n : Nat) : (ofBits n).bits = n % 4 := by
  have cases : n % 4 = 0 ∨ n % 4 = 1 ∨ n % 4 = 2 ∨ n % 4 = 3 := by omega
  rcases cases with same | same | same | same
  all_goals
    rw [ofBits, same]
    rfl

theorem ofBits_eq {n : Nat} {place : Place} (same : n % 4 = place.bits) : ofBits n = place := by
  unfold ofBits
  rw [same]
  cases place <;> rfl

end Place

namespace Instruction

theorem places_lt (i : Instruction) : i.places < 0x40 := by
  have first := i.first.place.bits_lt
  have second := i.second.place.bits_lt
  have third := i.third.place.bits_lt
  unfold places
  omega

theorem toNat_toWord (i : Instruction) :
    i.toWord.toNat = i.code.toNat + i.places * 0x100 + i.first.index.toNat * 0x10000
      + i.second.index.toNat * 0x100000000 + i.third.index.toNat * 0x1000000000000 := by
  have code := i.code.toNat_lt
  have places := i.places_lt
  have first := i.first.index.toNat_lt
  have second := i.second.index.toNat_lt
  have third := i.third.index.toNat_lt
  rw [toWord, UInt64.toNat_ofNat', Nat.mod_eq_of_lt (by omega)]

theorem field_eq {word : UInt64} {unit : Nat} {index : UInt16}
    (same : word.toNat / unit % 0x10000 = index.toNat) : field word unit = index := by
  rw [field, same, UInt16.ofNat_toNat]

theorem ofWord_toWord (i : Instruction) : ofWord i.toWord = i := by
  have word := i.toNat_toWord
  obtain ⟨code, ⟨first, a⟩, ⟨second, b⟩, ⟨third, c⟩⟩ := i
  have small := code.toNat_lt
  have one := first.bits_lt
  have two := second.bits_lt
  have three := third.bits_lt
  have low := a.toNat_lt
  have middle := b.toNat_lt
  have high := c.toNat_lt
  simp only [places] at word
  simp only [ofWord, Instruction.mk.injEq, Operand.mk.injEq]
  refine ⟨?_, ⟨Place.ofBits_eq ?_, field_eq ?_⟩, ⟨Place.ofBits_eq ?_, field_eq ?_⟩,
    Place.ofBits_eq ?_, field_eq ?_⟩
  · exact UInt8.toNat_inj.mp (by rw [UInt8.toNat_ofNat']; omega)
  all_goals omega

/-- The places hold six bits of their byte. What the word has in the other two is lost. -/
theorem toNat_toWord_ofWord (word : UInt64) :
    (ofWord word).toWord.toNat = 2 ^ 16 * (word.toNat / 2 ^ 16) + word.toNat % 2 ^ 14 := by
  have small := word.toNat_lt
  simp only [toNat_toWord, places, ofWord, field, Place.bits_ofBits, UInt8.toNat_ofNat',
    UInt16.toNat_ofNat']
  omega

theorem testBit_toWord_ofWord (word : UInt64) (bit : Nat) :
    (ofWord word).toWord.toNat.testBit bit ↔ word.toNat.testBit bit ∧ bit ≠ 14 ∧ bit ≠ 15 := by
  have low : word.toNat % 2 ^ 14 < 2 ^ 16 := by omega
  rw [toNat_toWord_ofWord, Nat.testBit_two_pow_mul_add _ low, Nat.testBit_mod_two_pow,
    Nat.testBit_div_two_pow]
  split
  · have below : bit < 14 ↔ bit ≠ 14 ∧ bit ≠ 15 := by omega
    simp [below, and_comm]
  · have above : bit ≠ 14 ∧ bit ≠ 15 := by omega
    simp [above, show bit - 16 + 16 = bit by omega]

/-- Words hold instructions faithfully: an instruction is read as it was packed, a word comes back
with the bits 14 and 15 cleared, and these are all that may differ between words of one instruction. -/
theorem words_hold_instructions :
    (∀ i : Instruction, ofWord i.toWord = i) ∧
    (∀ (word : UInt64) (bit : Nat), (ofWord word).toWord.toNat.testBit bit ↔
      word.toNat.testBit bit ∧ bit ≠ 14 ∧ bit ≠ 15) ∧
    ∀ a b : UInt64, ofWord a = ofWord b ↔
      ∀ bit, bit ≠ 14 → bit ≠ 15 → a.toNat.testBit bit = b.toNat.testBit bit := by
  refine ⟨ofWord_toWord, testBit_toWord_ofWord, fun a b => ⟨fun same bit used used' => ?_,
    fun same => ?_⟩⟩
  · have bits := (testBit_toWord_ofWord a bit).symm.trans (same ▸ testBit_toWord_ofWord b bit)
    exact Bool.eq_iff_iff.mpr (by simpa [used, used'] using bits)
  · have word : (ofWord a).toWord = (ofWord b).toWord := by
      refine UInt64.toNat_inj.mp (Nat.eq_of_testBit_eq fun bit => Bool.eq_iff_iff.mpr ?_)
      rw [testBit_toWord_ofWord, testBit_toWord_ofWord]
      exact and_congr_left fun used => by rw [same bit used.1 used.2]
    calc ofWord a = ofWord (ofWord a).toWord := (ofWord_toWord _).symm
      _ = ofWord b := by rw [word, ofWord_toWord]

end Instruction

end Tenancy
