/-
The fields of flag words and of entries.  The two are declared apart, with the
address bits unused in the one and a frame number in the other; every field
lies in the same bits in both, so what is said of it in one holds in the other.
-/
import FourLevelPaging.Proofs.Entry.RoundTrip

namespace FourLevelPaging

theorem Slot.getLsbD_of_mem {slot : Slot} {i : Nat}
    (hi : slot.lo ≤ i ∧ i < slot.lo + slot.width) (word : Word) :
    word.getLsbD i = (slot.read word).getLsbD (i - slot.lo) := by
  have hlt : i - slot.lo < slot.width := by omega
  have hsum : slot.lo + (i - slot.lo) = i := by omega
  rw [getLsbD_read, decide_eq_true hlt, Bool.true_and, hsum]

namespace Field

/-- Words that agree in the address and in every field agree. -/
theorem eq_of_read {word word' : Word}
    (haddress : addressSlot.read word = addressSlot.read word')
    (hfields : ∀ x : Field, x.read word = x.read word') : word = word' := by
  apply BitVec.eq_of_getLsbD_eq
  intro i hi
  rcases covers i hi with hmem | ⟨x, -, hmem⟩
  · rw [Slot.getLsbD_of_mem hmem word, haddress,
      ← Slot.getLsbD_of_mem hmem word']
  · have hread : x.slot.read word = x.slot.read word' := hfields x
    rw [Slot.getLsbD_of_mem hmem word, hread, ← Slot.getLsbD_of_mem hmem word']

theorem toNat_ofNat_of_le {x : Field} {value : Nat} (hle : value ≤ x.maxValue) :
    (BitVec.ofNat x.slot.width value).toNat = value := by
  have hpos := Nat.two_pow_pos x.slot.width
  rw [maxValue] at hle
  rw [BitVec.toNat_ofNat, Nat.mod_eq_of_lt (by omega)]

section Assign

variable {x : Field} {value : Nat}

theorem assign_of_le (hle : value ≤ x.maxValue) (word : Word) :
    x.assign value word = .ok (x.write (BitVec.ofNat _ value) word) := by
  rw [assign, ofNat?, if_pos hle]

theorem assignChecked_of_le (hle : value ≤ x.maxValue) (word : Word) :
    x.assignChecked value word = .ok (x.write (BitVec.ofNat _ value) word) := by
  rw [assignChecked, ofNat?, if_pos hle]

theorem assign_of_lt (hlt : x.maxValue < value) (word : Word) :
    x.assign value word = .error (.valueOutOfBounds x.maxValue) := by
  rw [assign, ofNat?, if_neg (Nat.not_le.2 hlt)]

theorem assignChecked_of_lt (hlt : x.maxValue < value) (word : Word) :
    x.assignChecked value word = .error ⟨x⟩ := by
  rw [assignChecked, ofNat?, if_neg (Nat.not_le.2 hlt)]

end Assign

end Field

namespace Entry

/-- `after` is `e` with `v` in the field `x` and nothing else changed. -/
structure Wrote (e : Entry) (x : Field) (v : BitVec x.slot.width)
    (after : Entry) : Prop where
  get_self : after.get x = v
  get_other : ∀ y, y ≠ x → after.get y = e.get y
  base_eq : after.base = e.base
  /-- The flags are those of `e`, written the same way. -/
  flags_eq : after.flags = e.flags.set x v
  /-- A later write leaves no trace of this one. -/
  set_again : ∀ w, after.set x w = e.set x w

theorem base_set (e : Entry) (x : Field) (v : BitVec x.slot.width) :
    (e.set x v).base = e.base := by
  have hfits := Declaration.fits_of_slot? slot?_frame
  have hapart :=
    Declaration.apart_of_slot? (by simp) slot?_frame (slot?_field x)
  have hnumber : (e.set x v).frameNumber = e.frameNumber :=
    Slot.read_write_of_apart hfits hapart v e.bits
  rw [base, base, hnumber]

theorem flags_set (e : Entry) (x : Field) (v : BitVec x.slot.width) :
    (e.set x v).flags = e.flags.set x v :=
  congrArg Flags.mk
    (Slot.write_and_not_mask x.slot_apart_addressSlot v e.bits).symm

/-- Entries with the same address and the same fields are the same. -/
theorem eq_of_base_of_fields {e e' : Entry} (hbase : e.base = e'.base)
    (hfields : ∀ x, e.get x = e'.get x) : e = e' :=
  congrArg Entry.mk (Field.eq_of_read (frameNumber_of_base hbase) hfields)

theorem wrote_set (e : Entry) (x : Field) (v : BitVec x.slot.width) :
    e.Wrote x v (e.set x v) where
  get_self := x.read_write_self v e.bits
  get_other _ hne := Field.read_write_of_ne hne v e.bits
  base_eq := e.base_set x v
  flags_eq := e.flags_set x v
  set_again w := congrArg Entry.mk (x.slot.write_write_self v w e.bits)

/-- Flag words and entries, declared apart, have every field in the same bits,
and the flag words leave unused what the entries keep the frame in.  So an entry
and its flags agree on every field and stay in agreement when one is written,
which changes nothing else and leaves no trace of what was there; a value that
does not fit is refused.  An entry is told by its address and its fields, and
those of a leaf are the ones that were asked for, but for the present one. -/
theorem declarations_agree :
    (Flags.declaration.slot? .unused = some Field.addressSlot ∧
        declaration.slot? .frame = some Field.addressSlot ∧
        ∀ x, Flags.declaration.slot? (.field x) = some x.slot ∧
          declaration.slot? (.field x) = some x.slot) ∧
      (∀ (e : Entry) (x : Field),
        e.flags.get x = e.get x ∧ e.flags.has x = e.has x ∧
          (∀ v, e.Wrote x v (e.set x v)) ∧
          (∀ value ≤ x.maxValue, ∃ v : BitVec x.slot.width, v.toNat = value ∧
            x.assign value e.bits = .ok (e.set x v).bits ∧
            x.assignChecked value e.bits = .ok (e.set x v).bits) ∧
          ∀ value, x.maxValue < value →
            x.assign value e.bits = .error (.valueOutOfBounds x.maxValue) ∧
              x.assignChecked value e.bits = .error ⟨x⟩) ∧
      (∀ e e' : Entry, e.base = e'.base → (∀ x, e.get x = e'.get x) → e = e') ∧
      (∀ (base : PhysAddr) (flags : Flags), base.isAligned .fourK = true →
        ∃ e, leafAt base flags = .ok e ∧
          ∀ x, x ≠ .present → e.get x = flags.get x) := by
  refine ⟨⟨Flags.slot?_unused, slot?_frame, fun x =>
      ⟨Flags.slot?_field x, slot?_field x⟩⟩,
    fun e x => ⟨e.get_flags x, e.has_flags x, e.wrote_set x,
      fun value hle => ?_, fun value hlt => ?_⟩,
    fun e e' hbase hfields => eq_of_base_of_fields hbase hfields,
    fun base flags haligned => ?_⟩
  · exact ⟨BitVec.ofNat _ value, Field.toNat_ofNat_of_le hle,
      Field.assign_of_le hle e.bits, Field.assignChecked_of_le hle e.bits⟩
  · exact ⟨Field.assign_of_lt hlt e.bits, Field.assignChecked_of_lt hlt e.bits⟩
  · exact ⟨_, leafAt_frame ⟨base, haligned⟩ flags,
      fun x hne => get_leaf_of_ne _ flags hne⟩

/-- A protection key is written beside stray bits of every other kind, one that
is too large is refused, and stray address bits among the flags show in no field
of a leaf. -/
theorem declarations_agree_stray :
    Entry.Wrote ⟨0x87FFFFFFFFFFFFFE⟩ .protectionKey 0xF ⟨0xFFFFFFFFFFFFFFFE⟩ ∧
      Field.protectionKey.assign 16 0x87FFFFFFFFFFFFFE =
        .error (.valueOutOfBounds 15) ∧
      Field.protectionKey.assignChecked 16 0x87FFFFFFFFFFFFFE =
        .error ⟨.protectionKey⟩ ∧
      ∃ e, leafAt ⟨0x7000⟩ ⟨0x080FABCD00000E02⟩ = .ok e ∧ e.get .osLow = 7 ∧
        e.get .osHigh = 0 ∧ e.get .protectionKey = 1 := by
  obtain ⟨-, hfields, -, hleaf⟩ := declarations_agree
  obtain ⟨-, -, hwrote, -, hrefused⟩ :=
    hfields ⟨0x87FFFFFFFFFFFFFE⟩ .protectionKey
  obtain ⟨hassign, hchecked⟩ := hrefused 16 (by decide)
  obtain ⟨e, he, hget⟩ := hleaf ⟨0x7000⟩ ⟨0x080FABCD00000E02⟩ (by decide)
  refine ⟨hwrote 0xF, hassign, hchecked, e, he, ?_, ?_, ?_⟩
  · exact (hget .osLow (by decide)).trans (by decide)
  · exact (hget .osHigh (by decide)).trans (by decide)
  · exact (hget .protectionKey (by decide)).trans (by decide)

end Entry

end FourLevelPaging
