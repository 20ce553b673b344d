/-
Machine words and the runs of bits that registers and table entries are made
of.  Writing a run is read back unchanged, and leaves every other bit alone.
Where Mathlib is imported, the powers and sums of natural numbers would be those
of its monoids; here they are the core library's in every module.
-/

namespace FourLevelPaging

attribute [default_instance 20000] instPowNat
attribute [instance (20000)] instPowNat Zero.ofOfNat0

/-- A 64-bit machine word. -/
abbrev Word := BitVec 64

/-- A run of `width` adjacent bits of a word, the lowest of them bit `lo`. -/
structure Slot where
  lo : Nat
  width : Nat
deriving DecidableEq

namespace Slot

/-- The run lies inside the word. -/
def Fits (slot : Slot) : Prop := slot.lo + slot.width ≤ 64

instance (slot : Slot) : Decidable slot.Fits :=
  inferInstanceAs (Decidable (_ ≤ _))

/-- No bit belongs to both runs. -/
def Apart (a b : Slot) : Prop :=
  a.lo + a.width ≤ b.lo ∨ b.lo + b.width ≤ a.lo

instance (a b : Slot) : Decidable (a.Apart b) :=
  inferInstanceAs (Decidable (_ ∨ _))

/-- The word whose set bits are those of the run. -/
def mask (slot : Slot) : Word :=
  (BitVec.allOnes slot.width).setWidth 64 <<< slot.lo

/-- The bits of the run, moved down to bit 0. -/
def read (slot : Slot) (word : Word) : BitVec slot.width :=
  word.extractLsb' slot.lo slot.width

/-- Replaces the bits of the run by `value`. -/
def write (slot : Slot) (value : BitVec slot.width) (word : Word) : Word :=
  (word &&& ~~~slot.mask) ||| (value.setWidth 64 <<< slot.lo)

theorem getLsbD_mask (slot : Slot) (i : Nat) (hi : i < 64) :
    slot.mask.getLsbD i = decide (slot.lo ≤ i ∧ i < slot.lo + slot.width) := by
  simp only [mask, BitVec.getLsbD_shiftLeft, BitVec.getLsbD_setWidth,
    BitVec.getLsbD_allOnes]
  by_cases h : slot.lo ≤ i
  · have hlt : i - slot.lo < 64 := by omega
    have hiff : i - slot.lo < slot.width ↔ i < slot.lo + slot.width := by omega
    simp [hi, h, hlt, hiff, Nat.not_lt.mpr h]
  · simp [h, Nat.lt_of_not_le h]

theorem getLsbD_write (slot : Slot) (value : BitVec slot.width) (word : Word)
    (i : Nat) (hi : i < 64) :
    (slot.write value word).getLsbD i =
      if slot.lo ≤ i ∧ i < slot.lo + slot.width then value.getLsbD (i - slot.lo)
      else word.getLsbD i := by
  simp only [write, BitVec.getLsbD_or, BitVec.getLsbD_and, BitVec.getLsbD_not,
    getLsbD_mask slot i hi, BitVec.getLsbD_shiftLeft, BitVec.getLsbD_setWidth]
  by_cases h : slot.lo ≤ i
  · by_cases hw : i < slot.lo + slot.width
    · have hlt : i - slot.lo < 64 := by omega
      simp [hi, h, hw, hlt, Nat.not_lt.mpr h]
    · have hge : slot.width ≤ i - slot.lo := by omega
      simp [hi, h, hw, BitVec.getLsbD_of_ge _ _ hge]
  · simp [hi, h, Nat.lt_of_not_le h]

theorem getLsbD_read (slot : Slot) (word : Word) (i : Nat) :
    (slot.read word).getLsbD i =
      (decide (i < slot.width) && word.getLsbD (slot.lo + i)) := by
  simp [read, BitVec.getLsbD_extractLsb']

theorem read_write_self (slot : Slot) (hfits : slot.Fits)
    (value : BitVec slot.width) (word : Word) :
    slot.read (slot.write value word) = value := by
  apply BitVec.eq_of_getLsbD_eq
  intro i hi
  have hfits' : slot.lo + slot.width ≤ 64 := hfits
  rw [getLsbD_read, getLsbD_write _ _ _ _ (by omega)]
  simp [hi]

theorem read_write_of_apart {slot other : Slot} (hfits : slot.Fits)
    (hapart : slot.Apart other) (value : BitVec other.width) (word : Word) :
    slot.read (other.write value word) = slot.read word := by
  apply BitVec.eq_of_getLsbD_eq
  intro i hi
  have hfits' : slot.lo + slot.width ≤ 64 := hfits
  rw [getLsbD_read, getLsbD_read, getLsbD_write _ _ _ _ (by omega)]
  have hout :
      ¬(other.lo ≤ slot.lo + i ∧ slot.lo + i < other.lo + other.width) := by
    rcases hapart with h | h <;> omega
  simp [hout]

theorem read_and_not_mask {slot other : Slot} (hfits : slot.Fits)
    (hapart : slot.Apart other) (word : Word) :
    slot.read (word &&& ~~~other.mask) = slot.read word := by
  apply BitVec.eq_of_getLsbD_eq
  intro i hi
  have hfits' : slot.lo + slot.width ≤ 64 := hfits
  have hlt : slot.lo + i < 64 := by omega
  have hout :
      ¬(other.lo ≤ slot.lo + i ∧ slot.lo + i < other.lo + other.width) := by
    rcases hapart with h | h <;> omega
  simp only [getLsbD_read, BitVec.getLsbD_and, BitVec.getLsbD_not,
    getLsbD_mask other _ hlt]
  simp [hlt, hout]

theorem write_write_self (slot : Slot) (first second : BitVec slot.width)
    (word : Word) :
    slot.write second (slot.write first word) = slot.write second word := by
  apply BitVec.eq_of_getLsbD_eq
  intro i hi
  rw [getLsbD_write _ _ _ _ hi, getLsbD_write _ _ _ _ hi,
    getLsbD_write _ _ _ _ hi]
  split <;> rfl

end Slot

example : (Slot.mk 4 4).read 0xAB = (0xA : BitVec 4) := by decide
example : (Slot.mk 4 4).write (0x5 : BitVec 4) 0xAB = 0x5B := by decide

end FourLevelPaging
