/-
Entries taken apart and put together again.  Address and flags share no bit
and add up to the entry; what is built from an address and flags gives them
back, less the bits that an entry has no room for; and the root register keeps
as much of a frame as a link does.
-/
import FourLevelPaging.Declaration
import FourLevelPaging.Proofs.Entry.Leaf

namespace FourLevelPaging

namespace Slot

/-- The bits of a run, put back where they were. -/
theorem shiftLeft_read (slot : Slot) (word : Word) :
    (slot.read word).setWidth 64 <<< slot.lo = word &&& slot.mask := by
  apply BitVec.eq_of_getLsbD_eq
  intro i hi
  rw [BitVec.getLsbD_and, getLsbD_mask _ _ hi, BitVec.getLsbD_shiftLeft,
    BitVec.getLsbD_setWidth, getLsbD_read]
  by_cases hlo : slot.lo ≤ i
  · have hlt : i - slot.lo < 64 := by omega
    have hsum : slot.lo + (i - slot.lo) = i := by omega
    have hiff : i - slot.lo < slot.width ↔ i < slot.lo + slot.width := by omega
    simp [hi, hlo, hlt, hsum, hiff, Nat.not_lt.mpr hlo, Bool.and_comm]
  · simp [hlo, Nat.lt_of_not_le hlo]

end Slot

namespace Field

/-- Setting a one-bit field adds its bit. -/
theorem put_true_eq {x : Field} (hwidth : x.slot.width = 1) (word : Word) :
    x.put true word = word ||| x.slot.mask := by
  apply BitVec.eq_of_getLsbD_eq
  intro i hi
  rw [put, write, Slot.getLsbD_write _ _ _ _ hi, BitVec.getLsbD_or,
    Slot.getLsbD_mask _ _ hi]
  by_cases hin : x.slot.lo ≤ i ∧ i < x.slot.lo + x.slot.width
  · have hzero : i - x.slot.lo = 0 := by omega
    rw [if_pos hin, decide_eq_true hin, Bool.or_true, hzero,
      BitVec.getLsbD_setWidth, hwidth]
    rfl
  · simp [hin]

/-- Clearing a one-bit field takes its bit away. -/
theorem put_false_eq (x : Field) (word : Word) :
    x.put false word = word &&& ~~~x.slot.mask := by
  apply BitVec.eq_of_getLsbD_eq
  intro i hi
  rw [put, write, Slot.getLsbD_write _ _ _ _ hi, BitVec.getLsbD_and,
    BitVec.getLsbD_not, Slot.getLsbD_mask _ _ hi]
  by_cases hin : x.slot.lo ≤ i ∧ i < x.slot.lo + x.slot.width
  · simp [hin]
  · simp [hin, hi]

end Field

namespace Entry

theorem bits_base (e : Entry) : e.base.bits = e.bits &&& addressMask := by
  rw [addressMask, ← Slot.shiftLeft_read]
  apply BitVec.eq_of_toNat_eq
  have hlt := e.frameNumber.isLt
  have hbase : e.base.bits.toNat = e.frameNumber.toNat * PageSize.fourK.bytes :=
    e.toNat_base
  rw [hbase, BitVec.toNat_shiftLeft, BitVec.toNat_setWidth, Nat.shiftLeft_eq]
  simp only [frameNumber, Field.addressSlot,
    show PageSize.fourK.bytes = 4096 from rfl]
  omega

/-- The address and the flags have no bit in common. -/
theorem base_and_flags (e : Entry) : e.base.bits &&& e.flags.bits = 0 := by
  rw [bits_base, flags]
  apply BitVec.eq_of_getLsbD_eq
  intro i hi
  simp only [BitVec.getLsbD_and, BitVec.getLsbD_not, hi, decide_true,
    Bool.true_and]
  cases addressMask.getLsbD i <;> simp

theorem base_or_flags (e : Entry) : e.base.bits ||| e.flags.bits = e.bits := by
  rw [bits_base, flags]
  apply BitVec.eq_of_getLsbD_eq
  intro i hi
  simp only [BitVec.getLsbD_or, BitVec.getLsbD_and, BitVec.getLsbD_not, hi,
    decide_true, Bool.true_and]
  cases addressMask.getLsbD i <;> simp

/-- The address and the flags add up to the entry, without a carry out of the
word. -/
theorem toNat_base_add_flags (e : Entry) :
    e.base.toNat + e.flags.bits.toNat = e.bits.toNat := by
  have hsum := BitVec.toNat_add_of_and_eq_zero e.base_and_flags
  rw [BitVec.add_eq_or_of_and_eq_zero _ _ e.base_and_flags, base_or_flags]
    at hsum
  exact hsum.symm

theorem toNat_base_lt (e : Entry) : e.base.toNat < 2 ^ 52 := by
  have hlt := e.frameNumber.isLt
  rw [toNat_base, show PageSize.fourK.bytes = 4096 from rfl]
  omega

/-- A present entry is the leaf of its address and its flags. -/
theorem leaf_tableFrame_flags {e : Entry} (hpresent : e.present = true) :
    leaf e.tableFrame e.flags = e := by
  apply eq_of_base_of_flags
  · apply Address.toNat_inj.1
    rw [toNat_base_leaf, base_tableFrame, Nat.mod_eq_of_lt e.toNat_base_lt]
  · have hsanitized : e.flags.sanitized = e.flags :=
      (⟨e.bits⟩ : Flags).sanitized_sanitized
    have hset : Field.isSet .present e.flags.bits = true :=
      (e.has_flags .present).trans hpresent
    rw [flags_leaf, hsanitized]
    exact congrArg Flags.mk (Field.put_true_of_isSet rfl hset)

theorem bits_flags_leaf (frame : Frame) (flags : Flags) :
    (leaf frame flags).flags.bits =
      flags.bits &&& 0xFFF0000000000FFF ||| 1 := by
  have hput : (leaf frame flags).flags.bits =
      Field.put .present true flags.sanitized.bits :=
    congrArg Flags.bits (flags_leaf frame flags)
  have hmask : ~~~Field.addressSlot.mask = 0xFFF0000000000FFF := by decide
  have hpresent : (Field.slot .present).mask = 1 := by decide
  rw [hput, Field.put_true_eq rfl, Flags.sanitized, hmask, hpresent]

theorem bits_flags_table (frame : Frame) (flags : Flags) :
    (table frame flags).flags.bits =
      flags.bits &&& 0xFFF0000000000F7F ||| 1 := by
  have hput : (flags.put .huge false).bits =
      flags.bits &&& ~~~(Field.slot .huge).mask :=
    Field.put_false_eq .huge flags.bits
  have hmask : ~~~(Field.slot .huge).mask &&& 0xFFF0000000000FFF =
      (0xFFF0000000000F7F : Word) := by
    decide
  rw [table, bits_flags_leaf, hput, BitVec.and_assoc, hmask]

/-- Entries tell apart frames that they have room for, and flags by all bits but
the present one. -/
theorem leaf_eq_leaf_iff {frame other : Frame}
    (hframe : frame.base.toNat < 2 ^ 52) (hother : other.base.toNat < 2 ^ 52)
    (flags flags' : Flags) :
    leaf frame flags = leaf other flags' ↔
      frame = other ∧ flags.bits &&& 0xFFF0000000000FFE =
        flags'.bits &&& 0xFFF0000000000FFE := by
  have hkept : (0xFFF0000000000FFF : Word) = 0xFFF0000000000FFE ||| 1 := by
    decide
  have habsorbed : ∀ word : Word, word &&& 1 ||| 1 = 1 := fun word => by
    apply BitVec.eq_of_getLsbD_eq
    intro i _
    simp only [BitVec.getLsbD_or, BitVec.getLsbD_and]
    cases (1 : Word).getLsbD i <;> simp
  constructor
  · intro heq
    constructor
    · have hbase := congrArg (fun e : Entry => e.base.toNat) heq
      simp only [toNat_base_leaf, Nat.mod_eq_of_lt hframe,
        Nat.mod_eq_of_lt hother] at hbase
      exact Page.ext (Address.toNat_inj.1 hbase)
    · have hbits :=
        congrArg (fun e : Entry => e.flags.bits &&& 0xFFF0000000000FFE) heq
      simp only [bits_flags_leaf, BitVec.and_or_distrib_right, BitVec.and_assoc]
        at hbits
      simpa using hbits
  · rintro ⟨rfl, hbits⟩
    have hflags : (leaf frame flags).flags.bits =
        (leaf frame flags').flags.bits := by
      rw [bits_flags_leaf, bits_flags_leaf, hkept, BitVec.and_or_distrib_left,
        BitVec.and_or_distrib_left, hbits, BitVec.or_assoc, BitVec.or_assoc,
        habsorbed, habsorbed]
    apply eq_of_base_of_flags
    · apply Address.toNat_inj.1
      rw [toNat_base_leaf, toNat_base_leaf]
    · exact congrArg Flags.mk hflags

end Entry

namespace RootRegister

theorem root_congr {r r' : RootRegister}
    (h : frameSlot.read r.bits = frameSlot.read r'.bits) :
    r.root = r'.root := by
  rw [root, root, h]

/-- The register keeps as much of a frame as a link to it does. -/
theorem root_ofRoot (frame : Frame) (flags : Flags) :
    (ofRoot frame).root = (Entry.table frame flags).tableFrame := by
  have hregister : (frameSlot.read (ofRoot frame).bits).toNat =
      (BitVec.ofNat 40 frame.number).toNat :=
    congrArg BitVec.toNat
      (Slot.read_write_self _ (Declaration.fits_of_slot? slot?_frame) _ _)
  have hlink : (Entry.table frame flags).frameNumber =
      BitVec.ofNat 40 frame.number :=
    Entry.frameNumber_leaf frame (flags.put .huge false)
  rw [root, hregister, Entry.tableFrame, Entry.base, hlink]

theorem toNat_base_root_ofRoot (frame : Frame) :
    (ofRoot frame).root.base.toNat = frame.base.toNat % 2 ^ 52 := by
  rw [root_ofRoot frame .empty, Entry.base_tableFrame, Entry.table,
    Entry.toNat_base_leaf]

theorem root_ofRoot_eq_iff (frame : Frame) :
    (ofRoot frame).root = frame ↔ frame.base.toNat < 2 ^ 52 := by
  constructor
  · intro h
    have hbase := toNat_base_root_ofRoot frame
    rw [h] at hbase
    omega
  · intro hlow
    apply Page.ext
    apply Address.toNat_inj.1
    rw [toNat_base_root_ofRoot, Nat.mod_eq_of_lt hlow]

theorem root_setWriteThrough (r : RootRegister) (on : Bool) :
    (r.setWriteThrough on).root = r.root :=
  root_congr (Slot.read_write_of_apart (Declaration.fits_of_slot? slot?_frame)
    (Declaration.apart_of_slot? (by decide) slot?_frame slot?_writeThrough) _ _)

theorem root_setCacheDisable (r : RootRegister) (on : Bool) :
    (r.setCacheDisable on).root = r.root :=
  root_congr (Slot.read_write_of_apart (Declaration.fits_of_slot? slot?_frame)
    (Declaration.apart_of_slot? (by decide) slot?_frame slot?_cacheDisable) _ _)

end RootRegister

namespace Entry

/-- An entry is the sum of an address and flags, and a present one is the leaf
of the two.  A leaf, whatever it is made from, has the 52 low bits of the
address, and of the flags all but the address bits, with the present bit set; a
link is made the same way but for the huge bit.  The root register gives back
the frame that a link leads to, however the root is cached. -/
theorem address_and_flags_round_trip :
    (∀ e : Entry,
        e.base.bits &&& e.flags.bits = 0 ∧
          e.base.toNat + e.flags.bits.toNat = e.bits.toNat ∧
          (e.present = true → leafAt e.base e.flags = .ok e)) ∧
      (∀ (base : PhysAddr) (flags : Flags), base.isAligned .fourK = true →
        ∃ e, leafAt base flags = .ok e ∧
          e.base.toNat = base.toNat % 2 ^ 52 ∧
          e.flags.bits = flags.bits &&& 0xFFF0000000000FFF ||| 1) ∧
      (∀ (frame : Frame) (flags : Flags),
        (table frame flags).base.toNat = frame.base.toNat % 2 ^ 52 ∧
          (table frame flags).flags.bits =
            flags.bits &&& 0xFFF0000000000F7F ||| 1) ∧
      (∀ (base other : PhysAddr) (flags flags' : Flags),
        base.isAligned .fourK = true → other.isAligned .fourK = true →
          base.toNat < 2 ^ 52 → other.toNat < 2 ^ 52 →
          (leafAt base flags = leafAt other flags' ↔
            base = other ∧
              flags.bits &&& 0xFFF0000000000FFE =
                flags'.bits &&& 0xFFF0000000000FFE)) ∧
      (∀ (frame : Frame) (flags : Flags),
        (RootRegister.ofRoot frame).root = (table frame flags).tableFrame ∧
          (RootRegister.ofRoot frame).root.base.toNat =
            frame.base.toNat % 2 ^ 52 ∧
          ((RootRegister.ofRoot frame).root = frame ↔
            frame.base.toNat < 2 ^ 52)) ∧
      (∀ (r : RootRegister) (on : Bool),
        (r.setWriteThrough on).root = r.root ∧
          (r.setCacheDisable on).root = r.root) := by
  refine ⟨fun e => ⟨e.base_and_flags, e.toNat_base_add_flags,
      fun hpresent => ?_⟩, fun base flags haligned => ?_,
    fun frame flags => ⟨toNat_base_leaf frame _, ?_⟩,
    fun base other flags flags' hbase hother hlow hlow' => ?_,
    fun frame flags => ⟨RootRegister.root_ofRoot frame flags, ?_⟩,
    fun r on => ⟨r.root_setWriteThrough on, r.root_setCacheDisable on⟩⟩
  · rw [← e.base_tableFrame, leafAt_frame, leaf_tableFrame_flags hpresent]
  · exact ⟨_, leafAt_frame ⟨base, haligned⟩ flags, toNat_base_leaf _ flags,
      bits_flags_leaf _ flags⟩
  · exact bits_flags_table frame flags
  · have hleaf := leafAt_frame ⟨base, hbase⟩ flags
    have hleaf' := leafAt_frame ⟨other, hother⟩ flags'
    have hiff :=
      @leaf_eq_leaf_iff ⟨base, hbase⟩ ⟨other, hother⟩ hlow hlow' flags flags'
    rw [hleaf, hleaf', Except.ok.injEq, hiff, Page.mk.injEq]
  · exact ⟨RootRegister.toNat_base_root_ofRoot frame,
      RootRegister.root_ofRoot_eq_iff frame⟩

/-- An address above the limit and flags full of address bits, and two flag
words that differ in bits that no entry keeps. -/
theorem address_and_flags_round_trip_stray :
    (∃ e, leafAt ⟨0x80F0000012345000⟩ ⟨0xFFFFFFFFFFFFFFFE⟩ = .ok e ∧
      e.base = ⟨0x12345000⟩ ∧ e.flags = ⟨0xFFF0000000000FFF⟩) ∧
      leafAt ⟨0x7000⟩ ⟨0xABCD003⟩ = leafAt ⟨0x7000⟩ ⟨0x2⟩ ∧
      leafAt (base ⟨0x8000001234567103⟩) (flags ⟨0x8000001234567103⟩) =
        .ok ⟨0x8000001234567103⟩ := by
  obtain ⟨hsplit, hleaf, -, hinjective, -⟩ := address_and_flags_round_trip
  obtain ⟨e, he, hbase, hflags⟩ :=
    hleaf ⟨0x80F0000012345000⟩ ⟨0xFFFFFFFFFFFFFFFE⟩ (by decide)
  refine ⟨⟨e, he, Address.toNat_inj.1 hbase, congrArg Flags.mk hflags⟩, ?_, ?_⟩
  · exact (hinjective _ _ _ _ (by decide) (by decide) (by decide) (by decide)).2
      ⟨rfl, by decide⟩
  · exact (hsplit ⟨0x8000001234567103⟩).2.2 (by decide)

end Entry

end FourLevelPaging
