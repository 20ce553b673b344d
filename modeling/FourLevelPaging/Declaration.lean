/-
Words as they are declared: parts of given widths, laid out one after another
from bit 0 up.  Flag words, entries and the root register are declared apart
from each other, and handed on as bare words; where each declaration puts its
parts decides whether they understand one another.
-/
import FourLevelPaging.Entry
import FourLevelPaging.RootRegister

namespace FourLevelPaging

/-- The parts of a word with their widths, lowest bits first. -/
structure Declaration (Part : Type) where
  parts : List (Part × Nat)
  /-- The parts make up the word. -/
  sum_widths : (parts.map Prod.snd).sum = 64

namespace Declaration

variable {Part : Type} [DecidableEq Part]

/-- The run of bits of the first part named `part`, where the parts begin at bit
`lo`. -/
def slotFrom? (part : Part) : Nat → List (Part × Nat) → Option Slot
  | _, [] => none
  | lo, (first, width) :: rest =>
      if first = part then some ⟨lo, width⟩
      else slotFrom? part (lo + width) rest

/-- The run of bits of the first part named `part`. -/
def slot? (declared : Declaration Part) (part : Part) : Option Slot :=
  slotFrom? part 0 declared.parts

theorem bounds_of_slotFrom? {part : Part} {lo : Nat} {parts : List (Part × Nat)}
    {slot : Slot} (h : slotFrom? part lo parts = some slot) :
    lo ≤ slot.lo ∧ slot.lo + slot.width ≤ lo + (parts.map Prod.snd).sum := by
  induction parts generalizing lo with
  | nil => cases h
  | cons head rest ih =>
      rcases head with ⟨first, width⟩
      rw [slotFrom?] at h
      simp only [List.map_cons, List.sum_cons]
      by_cases hfirst : first = part
      · rw [if_pos hfirst] at h
        cases h
        simp only
        omega
      · rw [if_neg hfirst] at h
        obtain ⟨hlo, hhi⟩ := ih h
        omega

theorem apart_of_slotFrom? {one other : Part} (hne : one ≠ other) {lo : Nat}
    {parts : List (Part × Nat)} {a b : Slot}
    (ha : slotFrom? one lo parts = some a)
    (hb : slotFrom? other lo parts = some b) : a.Apart b := by
  induction parts generalizing lo with
  | nil => cases ha
  | cons head rest ih =>
      rcases head with ⟨first, width⟩
      rw [slotFrom?] at ha hb
      by_cases hone : first = one
      · have hother : first ≠ other := hone ▸ hne
        rw [if_pos hone] at ha
        rw [if_neg hother] at hb
        cases ha
        exact Or.inl (bounds_of_slotFrom? hb).1
      · rw [if_neg hone] at ha
        by_cases hother : first = other
        · rw [if_pos hother] at hb
          cases hb
          exact Or.inr (bounds_of_slotFrom? ha).1
        · rw [if_neg hother] at hb
          exact ih ha hb

theorem fits_of_slot? {declared : Declaration Part} {part : Part} {slot : Slot}
    (h : declared.slot? part = some slot) : slot.Fits := by
  have hend := (bounds_of_slotFrom? h).2
  rwa [declared.sum_widths, Nat.zero_add] at hend

/-- Different parts share no bit. -/
theorem apart_of_slot? {declared : Declaration Part} {one other : Part}
    (hne : one ≠ other) {a b : Slot} (ha : declared.slot? one = some a)
    (hb : declared.slot? other = some b) : a.Apart b :=
  apart_of_slotFrom? hne ha hb

end Declaration

/-- What the bits of a flag word or of an entry belong to. -/
inductive EntryPart where
  | field (x : Field)
  /-- The frame number, in entries. -/
  | frame
  /-- Bits without a meaning, in flag words. -/
  | unused
deriving DecidableEq

/-- Flag words, as they are declared. -/
def Flags.declaration : Declaration EntryPart where
  parts := [(.field .present, 1), (.field .writable, 1), (.field .user, 1),
    (.field .writeThrough, 1), (.field .cacheDisable, 1), (.field .accessed, 1),
    (.field .dirty, 1), (.field .huge, 1), (.field .global, 1),
    (.field .osLow, 3), (.unused, 40), (.field .osHigh, 7),
    (.field .protectionKey, 4), (.field .noExecute, 1)]
  sum_widths := rfl

/-- Entries, as they are declared. -/
def Entry.declaration : Declaration EntryPart where
  parts := [(.field .present, 1), (.field .writable, 1), (.field .user, 1),
    (.field .writeThrough, 1), (.field .cacheDisable, 1), (.field .accessed, 1),
    (.field .dirty, 1), (.field .huge, 1), (.field .global, 1),
    (.field .osLow, 3), (.frame, 40), (.field .osHigh, 7),
    (.field .protectionKey, 4), (.field .noExecute, 1)]
  sum_widths := rfl

/-- What the bits of the root register belong to. -/
inductive RegisterPart where
  | writeThrough
  | cacheDisable
  | frame
  | reserved
deriving DecidableEq

/-- The root register, as it is declared. -/
def RootRegister.declaration : Declaration RegisterPart where
  parts := [(.reserved, 3), (.writeThrough, 1), (.cacheDisable, 1),
    (.reserved, 7), (.frame, 40), (.reserved, 12)]
  sum_widths := rfl

theorem Flags.slot?_field (x : Field) :
    declaration.slot? (.field x) = some x.slot := by
  cases x <;> rfl

theorem Entry.slot?_field (x : Field) :
    declaration.slot? (.field x) = some x.slot := by
  cases x <;> rfl

theorem Flags.slot?_unused :
    declaration.slot? .unused = some Field.addressSlot := rfl

theorem Entry.slot?_frame :
    declaration.slot? .frame = some Field.addressSlot := rfl

namespace RootRegister

theorem slot?_writeThrough :
    declaration.slot? .writeThrough = some writeThroughSlot := rfl

theorem slot?_cacheDisable :
    declaration.slot? .cacheDisable = some cacheDisableSlot := rfl

theorem slot?_frame : declaration.slot? .frame = some frameSlot := rfl

end RootRegister

end FourLevelPaging
