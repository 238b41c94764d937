import Mathlib.Data.Nat.Bitwise
import Mathlib.Tactic.Common

/-!
# Bitmaps

A bitmap has one bit for each index, thirty-two to a word. It has an answer for an index only
if it has a word for it. Marking an index changes the answer for that index and for no other.
-/

namespace ReliableDatagram

/-- Words that have one bit for each index. -/
structure Bitmap where
  /-- The words, that of the least indices first. -/
  words : List UInt32
deriving DecidableEq, Repr

namespace Bitmap

def empty (count : Nat) : Bitmap := ⟨List.replicate count 0⟩

/-- Which word has the bit of an index. -/
def slot (index : UInt32) : Nat := (index / 32).toNat

/-- The word in which the bit of an index is the only one. -/
def bit (index : UInt32) : UInt32 := 1 <<< (index % 32)

/-- The index is marked; no answer if there is no word for it. -/
def test (bitmap : Bitmap) (index : UInt32) : Option Bool :=
  bitmap.words[slot index]?.map fun word ↦ word &&& bit index != 0

def mark (bitmap : Bitmap) (index : UInt32) : Option Bitmap :=
  bitmap.words[slot index]?.map fun word ↦
    ⟨bitmap.words.set (slot index) (word ||| bit index)⟩

variable {bitmap marked : Bitmap} {index other : UInt32}

/-! ## Single bits -/

theorem bit_toNat (index : UInt32) : (bit index).toNat = 2 ^ (index.toNat % 32) := by
  have hlt : index.toNat % 32 < 32 := Nat.mod_lt _ (by decide)
  have hpow : 2 ^ (index.toNat % 32) < 2 ^ 32 := Nat.pow_lt_pow_right (by decide) hlt
  rw [bit, UInt32.toNat_shiftLeft, UInt32.toNat_mod, UInt32.toNat_one, UInt32.toNat_ofNat,
    Nat.mod_eq_of_lt (by decide : 32 < 2 ^ 32), Nat.mod_mod, Nat.shiftLeft_eq, Nat.one_mul,
    Nat.mod_eq_of_lt hpow]

theorem and_bit_ne_zero (word index : UInt32) :
    (word &&& bit index != 0) = word.toNat.testBit (index.toNat % 32) := by
  have hzero : word &&& bit index = 0 ↔ (word.toNat.testBit (index.toNat % 32)) = false := by
    rw [← UInt32.toNat_inj, UInt32.toNat_and, bit_toNat, Nat.and_two_pow, UInt32.toNat_zero]
    cases word.toNat.testBit (index.toNat % 32) <;> simp
  cases htest : word.toNat.testBit (index.toNat % 32) with
  | false => simpa using hzero.mpr htest
  | true => simpa [htest] using hzero

/-- An index is known by its word and its place in the word. -/
theorem eq_iff_slot_and_mod : other = index ↔
    slot other = slot index ∧ other.toNat % 32 = index.toNat % 32 := by
  rw [← UInt32.toNat_inj, slot, slot, UInt32.toNat_div, UInt32.toNat_div, UInt32.toNat_ofNat,
    Nat.mod_eq_of_lt (by decide : 32 < 2 ^ 32)]
  omega

/-! ## Whole bitmaps -/

theorem test_empty (count : Nat) (index : UInt32) :
    (empty count).test index = if slot index < count then some false else none := by
  rw [test, empty, List.getElem?_replicate]
  split
  · simp
  · rfl

theorem exists_mark (h : slot index < bitmap.words.length) :
    ∃ marked, bitmap.mark index = some marked := by
  rw [mark, List.getElem?_eq_getElem h]
  exact ⟨_, rfl⟩

theorem length_of_mark (h : bitmap.mark index = some marked) :
    marked.words.length = bitmap.words.length := by
  obtain ⟨word, -, rfl⟩ := Option.map_eq_some_iff.mp h
  exact List.length_set

/-- Marking an index changes the answer for no other one. -/
theorem test_of_mark (h : bitmap.mark index = some marked) (other : UInt32) :
    marked.test other = (bitmap.test other).map fun answer ↦ answer || other == index := by
  obtain ⟨word, hword, rfl⟩ := Option.map_eq_some_iff.mp h
  have hlt := (List.getElem?_eq_some_iff.mp hword).1
  rw [test, test, Option.map_map, List.getElem?_set]
  by_cases hslot : slot index = slot other
  · rw [if_pos hslot, if_pos hlt, ← hslot, hword, Option.map_some, Option.map_some]
    simp only [Function.comp, and_bit_ne_zero, UInt32.toNat_or, Nat.testBit_or, bit_toNat,
      Nat.testBit_two_pow]
    congr 2
    rw [Bool.eq_iff_iff, decide_eq_true_eq, beq_iff_eq, eq_iff_slot_and_mod]
    exact ⟨fun hmod ↦ ⟨hslot.symm, hmod.symm⟩, fun hsame ↦ hsame.2.symm⟩
  · have hne : (other == index) = false := by
      rw [beq_eq_false_iff_ne]
      rintro rfl
      exact hslot rfl
    rw [if_neg hslot]
    simp [Function.comp_def, hne]

end Bitmap

end ReliableDatagram
