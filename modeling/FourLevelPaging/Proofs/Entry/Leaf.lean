/-
What an entry built from a frame and flags says.  Its fields and its address
are written to runs of bits that are apart, so each is read back as it was
given, and setting a field of the entry is setting it in the flags.
-/
import FourLevelPaging.Level

namespace FourLevelPaging

namespace Slot

theorem write_comm {a b : Slot} (hapart : a.Apart b) (v : BitVec a.width)
    (w : BitVec b.width) (word : Word) :
    a.write v (b.write w word) = b.write w (a.write v word) := by
  apply BitVec.eq_of_getLsbD_eq
  intro i hi
  simp only [getLsbD_write _ _ _ _ hi]
  have hnot : ¬((a.lo ≤ i ∧ i < a.lo + a.width) ∧ b.lo ≤ i ∧
      i < b.lo + b.width) := by
    rcases hapart with h | h <;> omega
  by_cases ha : a.lo ≤ i ∧ i < a.lo + a.width
  · have hb : ¬(b.lo ≤ i ∧ i < b.lo + b.width) := fun hb => hnot ⟨ha, hb⟩
    simp [ha, hb]
  · simp [ha]

theorem write_and_not_mask {a b : Slot} (hapart : a.Apart b)
    (v : BitVec a.width) (word : Word) :
    a.write v (word &&& ~~~b.mask) = a.write v word &&& ~~~b.mask := by
  apply BitVec.eq_of_getLsbD_eq
  intro i hi
  simp only [getLsbD_write _ _ _ _ hi, BitVec.getLsbD_and, BitVec.getLsbD_not,
    getLsbD_mask _ _ hi]
  by_cases ha : a.lo ≤ i ∧ i < a.lo + a.width
  · have hb : ¬(b.lo ≤ i ∧ i < b.lo + b.width) := by
      rcases hapart with h | h <;> omega
    simp [ha, hb, hi]
  · simp [ha]

theorem write_self_and_not_mask (a : Slot) (v : BitVec a.width) (word : Word) :
    a.write v word &&& ~~~a.mask = word &&& ~~~a.mask := by
  apply BitVec.eq_of_getLsbD_eq
  intro i hi
  simp only [getLsbD_write _ _ _ _ hi, BitVec.getLsbD_and, BitVec.getLsbD_not,
    getLsbD_mask _ _ hi]
  by_cases ha : a.lo ≤ i ∧ i < a.lo + a.width
  · simp [ha]
  · simp [ha]

/-- What the run held before does not matter. -/
theorem write_of_and_not_mask (a : Slot) (v : BitVec a.width) (word : Word) :
    a.write v (word &&& ~~~a.mask) = a.write v word := by
  apply BitVec.eq_of_getLsbD_eq
  intro i hi
  simp only [getLsbD_write _ _ _ _ hi, BitVec.getLsbD_and, BitVec.getLsbD_not,
    getLsbD_mask _ _ hi]
  by_cases ha : a.lo ≤ i ∧ i < a.lo + a.width
  · rw [if_pos ha, if_pos ha]
  · simp [ha, hi]

theorem write_read_self (a : Slot) (word : Word) :
    a.write (a.read word) word = word := by
  apply BitVec.eq_of_getLsbD_eq
  intro i hi
  rw [getLsbD_write _ _ _ _ hi, getLsbD_read]
  by_cases ha : a.lo ≤ i ∧ i < a.lo + a.width
  · have hlt : i - a.lo < a.width := by omega
    have hsum : a.lo + (i - a.lo) = i := by omega
    simp [ha, hlt, hsum]
  · simp [ha]

end Slot

namespace Field

theorem put_comm {x y : Field} (hne : x ≠ y) (on off : Bool) (word : Word) :
    x.put on (y.put off word) = y.put off (x.put on word) :=
  Slot.write_comm (slot_apart hne) _ _ word

/-- Setting a one-bit field that is set changes nothing. -/
theorem put_true_of_isSet {x : Field} (hwidth : x.slot.width = 1) {word : Word}
    (hset : x.isSet word = true) : x.put true word = word := by
  have hread : x.read word = (BitVec.ofBool true).setWidth x.slot.width := by
    apply BitVec.eq_of_getLsbD_eq
    intro i hi
    have hzero : i = 0 := by omega
    subst i
    rw [← isSet_eq_getLsbD_read, hset]
    simp [x.width_pos]
  have hself := Slot.write_read_self x.slot word
  rw [read] at hread
  rwa [hread] at hself

end Field

namespace Flags

theorem has_put_self (flags : Flags) (x : Field) (on : Bool) :
    (flags.put x on).has x = on :=
  Field.isSet_put_self x on flags.bits

theorem put_comm (flags : Flags) {x y : Field} (hne : x ≠ y) (on off : Bool) :
    (flags.put y off).put x on = (flags.put x on).put y off :=
  congrArg Flags.mk (Field.put_comm hne on off flags.bits)

theorem put_put_self (flags : Flags) (x : Field) (on off : Bool) :
    (flags.put x off).put x on = flags.put x on :=
  congrArg Flags.mk (Slot.write_write_self x.slot _ _ flags.bits)

theorem sanitized_put (flags : Flags) (x : Field) (on : Bool) :
    (flags.put x on).sanitized = flags.sanitized.put x on :=
  congrArg Flags.mk
    (Slot.write_and_not_mask x.slot_apart_addressSlot _ flags.bits).symm

theorem sanitized_sanitized (flags : Flags) :
    flags.sanitized.sanitized = flags.sanitized := by
  simp only [sanitized, BitVec.and_assoc, BitVec.and_self]

end Flags

namespace Entry

theorem leafAt_frame (frame : Frame) (flags : Flags) :
    leafAt frame.base flags = .ok (leaf frame flags) := by
  simp [leafAt, Page.ofBase?, frame.aligned]

theorem has_flags (e : Entry) (x : Field) : e.flags.has x = e.has x := by
  have hget : (e.flags.get x).getLsbD 0 = (e.get x).getLsbD 0 := by
    rw [get_flags]
  exact (x.isSet_eq_getLsbD_read _).trans
    (hget.trans (e.has_eq_getLsbD_get x).symm)

theorem flags_leaf (frame : Frame) (flags : Flags) :
    (leaf frame flags).flags = flags.sanitized.put .present true := by
  have hmask : (leaf frame flags).flags =
      (flags.sanitized.put .present true).sanitized :=
    congrArg Flags.mk (Slot.write_self_and_not_mask Field.addressSlot _ _)
  rw [hmask, Flags.sanitized_put, Flags.sanitized_sanitized]

theorem has_leaf_of_ne (frame : Frame) (flags : Flags) {x : Field}
    (hne : x ≠ .present) : (leaf frame flags).has x = flags.has x := by
  rw [has_eq_getLsbD_get, get_leaf_of_ne _ _ hne]
  exact (Field.isSet_eq_getLsbD_read x flags.bits).symm

theorem put_leaf (frame : Frame) (flags : Flags) {x : Field}
    (hne : x ≠ .present) (on : Bool) :
    (leaf frame flags).put x on = leaf frame (flags.put x on) := by
  have hcomm : ((leaf frame flags).put x on).bits =
      Field.addressSlot.write (BitVec.ofNat 40 frame.number)
        ((flags.sanitized.put .present true).put x on).bits :=
    Slot.write_comm x.slot_apart_addressSlot _ _ _
  have hflags : (flags.sanitized.put .present true).put x on =
      (flags.put x on).sanitized.put .present true := by
    rw [Flags.put_comm _ hne, Flags.sanitized_put]
  have hbits := hcomm.trans (congrArg (fun f : Flags =>
    Field.addressSlot.write (BitVec.ofNat 40 frame.number) f.bits) hflags)
  exact congrArg Entry.mk hbits

theorem put_user_table (frame : Frame) (flags : Flags) (on : Bool) :
    (table frame flags).put .user on = table frame (flags.put .user on) := by
  rw [table, table, put_leaf _ _ (by decide), Flags.put_comm _ (by decide)]

theorem put_true_of_has {e : Entry} {x : Field} (hwidth : x.slot.width = 1)
    (hset : e.has x = true) : e.put x true = e :=
  congrArg Entry.mk (Field.put_true_of_isSet hwidth hset)

theorem put_put_self (e : Entry) (x : Field) (on off : Bool) :
    (e.put x off).put x on = e.put x on :=
  congrArg Entry.mk (Slot.write_write_self x.slot _ _ e.bits)

theorem present_put_user (e : Entry) (on : Bool) :
    (e.put .user on).present = e.present :=
  Field.isSet_put_of_ne (by decide) on e.bits

theorem bits_eq (e : Entry) :
    e.bits = Field.addressSlot.write e.frameNumber e.flags.bits :=
  ((Slot.write_of_and_not_mask _ _ _).trans
    (Slot.write_read_self _ e.bits)).symm

theorem frameNumber_of_base {e e' : Entry} (hbase : e.base = e'.base) :
    e.frameNumber = e'.frameNumber := by
  have hbytes := congrArg Address.toNat hbase
  rw [toNat_base, toNat_base] at hbytes
  exact BitVec.eq_of_toNat_eq
    (Nat.eq_of_mul_eq_mul_right PageSize.fourK.bytes_pos hbytes)

/-- An entry is its address and its flags. -/
theorem eq_of_base_of_flags {e e' : Entry} (hbase : e.base = e'.base)
    (hflags : e.flags = e'.flags) : e = e' := by
  have hnumber := frameNumber_of_base hbase
  have hbits : e.bits = e'.bits := by
    rw [e.bits_eq, e'.bits_eq, hnumber, hflags]
  exact congrArg Entry.mk hbits

theorem present_empty : empty.present = false := by decide

/-- The base of a leaf is the physical address it was made for, less the bits
that an entry has no room for. -/
theorem toNat_base_leaf_page {size : PageSize} {pa : PhysAddr}
    (haligned : pa.isAligned size = true) (flags : Flags) :
    (leaf (pa.page .fourK) flags).base.toNat = pa.toNat % 2 ^ 52 := by
  have hdvd : PageSize.fourK.bytes ∣ pa.toNat :=
    Nat.dvd_trans size.fourK_dvd_bytes
      (Nat.dvd_of_mod_eq_zero (Address.isAligned_iff.1 haligned))
  rw [toNat_base_leaf, Address.page, Page.toNat_base_containing,
    Nat.div_mul_cancel hdvd]

theorem isAligned_base_leaf {size : PageSize} {pa : PhysAddr}
    (haligned : pa.isAligned size = true) (flags : Flags) :
    (leaf (pa.page .fourK) flags).base.isAligned size = true := by
  have hdvd : size.bytes ∣ 2 ^ 52 := by cases size <;> decide
  rw [Address.isAligned_iff, toNat_base_leaf_page haligned,
    Nat.mod_mod_of_dvd _ hdvd]
  exact Address.isAligned_iff.1 haligned

end Entry

end FourLevelPaging
