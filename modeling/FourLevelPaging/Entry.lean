/-
Table entries.  One 64-bit format serves all four levels: bits 12 to 51 hold a
frame number and all other bits are flags.
-/
import FourLevelPaging.Entry.Flags
import FourLevelPaging.Page

namespace FourLevelPaging

/-- A table entry of any level. -/
structure Entry where
  bits : Word
deriving DecidableEq

namespace Entry

/-- The entry with no bit set, which is not present. -/
def empty : Entry := ⟨0⟩

def get (e : Entry) (x : Field) : BitVec x.slot.width := x.read e.bits

def set (e : Entry) (x : Field) (value : BitVec x.slot.width) : Entry :=
  ⟨x.write value e.bits⟩

/-- Whether a one-bit field is set. -/
def has (e : Entry) (x : Field) : Bool := x.isSet e.bits

/-- Sets or clears a one-bit field. -/
def put (e : Entry) (x : Field) (on : Bool) : Entry := ⟨x.put on e.bits⟩

/-- The entry leads somewhere. -/
def present (e : Entry) : Bool := e.has .present

/-- The word whose set bits are the address bits. -/
def addressMask : Word := Field.addressSlot.mask

/-- The number of the frame the entry names. -/
def frameNumber (e : Entry) : BitVec 40 := Field.addressSlot.read e.bits

/-- The address of the frame the entry names. -/
def base (e : Entry) : PhysAddr :=
  .ofNat (e.frameNumber.toNat * PageSize.fourK.bytes)

/-- The frame the entry names.  It holds a node if the entry is present and no
leaf. -/
def tableFrame (e : Entry) : Frame := e.base.page .fourK

/-- Everything except the address. -/
def flags (e : Entry) : Flags := ⟨e.bits &&& ~~~addressMask⟩

/-- A present entry that maps memory from `frame` on.  Frame numbers are cut to
the width of the address bits. -/
def leaf (frame : Frame) (flags : Flags) : Entry :=
  ⟨Field.addressSlot.write (BitVec.ofNat 40 frame.number)
    (flags.sanitized.put .present true).bits⟩

/-- A present entry that points at the node in `frame`. -/
def table (frame : Frame) (flags : Flags) : Entry :=
  leaf frame (flags.put .huge false)

/-- The leaf at an untyped address, which has to be the base of a frame. -/
def leafAt (base : PhysAddr) (flags : Flags) : Except Fault Entry :=
  match Page.ofBase? base with
  | some frame => .ok (leaf frame flags)
  | none => .error .leafBaseUnaligned

theorem get_flags (e : Entry) (x : Field) : e.flags.get x = e.get x :=
  Slot.read_and_not_mask x.slot_fits x.slot_apart_addressSlot e.bits

theorem get_leaf_of_ne (frame : Frame) (flags : Flags) {x : Field}
    (hx : x ≠ .present) :
    (leaf frame flags).get x = flags.get x := by
  have hwrite : (leaf frame flags).get x =
      (flags.sanitized.put .present true).get x :=
    Slot.read_write_of_apart x.slot_fits x.slot_apart_addressSlot _ _
  exact hwrite.trans
    ((Field.read_write_of_ne hx _ _).trans (flags.get_sanitized x))

theorem has_eq_getLsbD_get (e : Entry) (x : Field) :
    e.has x = (e.get x).getLsbD 0 :=
  x.isSet_eq_getLsbD_read e.bits

theorem present_leaf (frame : Frame) (flags : Flags) :
    (leaf frame flags).present = true := by
  have hwrite : (leaf frame flags).get .present =
      (flags.sanitized.put .present true).get .present :=
    Slot.read_write_of_apart (Field.slot_fits .present)
      (Field.slot_apart_addressSlot .present) _ _
  rw [present, has_eq_getLsbD_get, hwrite]
  exact (Field.isSet_eq_getLsbD_read .present _).symm.trans
    (Field.isSet_put_self .present true flags.sanitized.bits)

theorem frameNumber_leaf (frame : Frame) (flags : Flags) :
    (leaf frame flags).frameNumber = BitVec.ofNat 40 frame.number :=
  Slot.read_write_self _ (by decide) _ _

theorem toNat_base (e : Entry) :
    e.base.toNat = e.frameNumber.toNat * PageSize.fourK.bytes := by
  have hlt : e.frameNumber.toNat < 2 ^ 40 := e.frameNumber.isLt
  apply Address.toNat_ofNat_of_lt
  rw [show PageSize.fourK.bytes = 4096 from rfl]
  omega

theorem base_tableFrame (e : Entry) : e.tableFrame.base = e.base := by
  apply Address.toNat_inj.1
  rw [tableFrame, Address.page, Page.toNat_base_containing, toNat_base,
    Nat.mul_div_cancel _ PageSize.fourK.bytes_pos]

theorem toNat_base_leaf (frame : Frame) (flags : Flags) :
    (leaf frame flags).base.toNat = frame.base.toNat % 2 ^ 52 := by
  rw [toNat_base, frameNumber_leaf, BitVec.toNat_ofNat,
    ← frame.number_mul_bytes]
  exact (Nat.mul_mod_mul_right PageSize.fourK.bytes frame.number (2 ^ 40)).symm

theorem tableFrame_table {frame : Frame} (hlow : frame.base.toNat < 2 ^ 52)
    (flags : Flags) : (table frame flags).tableFrame = frame := by
  apply Page.ext
  apply Address.toNat_inj.1
  rw [base_tableFrame, table, toNat_base_leaf, Nat.mod_eq_of_lt hlow]

theorem has_huge_table (frame : Frame) (flags : Flags) :
    (table frame flags).has .huge = false := by
  rw [has_eq_getLsbD_get, table, get_leaf_of_ne _ _ (by decide)]
  exact (Field.isSet_eq_getLsbD_read .huge _).symm.trans
    (Field.isSet_put_self .huge false flags.bits)

end Entry

example : (Entry.leaf (Address.page .fourK ⟨0x1234567000⟩)
    ((Flags.kernelRW.put .global true).put .noExecute true)).bits =
      0x8000001234567103 := by decide

end FourLevelPaging
