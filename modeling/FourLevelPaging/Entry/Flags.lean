/-
Flag words: everything a table entry says besides the address.  A flag word may
carry stray address bits; they are dropped when an entry is built from it.
-/
import FourLevelPaging.Entry.Field

namespace FourLevelPaging

/-- The flags asked for in a mapping. -/
structure Flags where
  bits : Word
deriving DecidableEq

namespace Flags

def get (flags : Flags) (x : Field) : BitVec x.slot.width := x.read flags.bits

def set (flags : Flags) (x : Field) (value : BitVec x.slot.width) : Flags :=
  ⟨x.write value flags.bits⟩

/-- Whether a one-bit field is set. -/
def has (flags : Flags) (x : Field) : Bool := x.isSet flags.bits

/-- Sets or clears a one-bit field. -/
def put (flags : Flags) (x : Field) (on : Bool) : Flags :=
  ⟨x.put on flags.bits⟩

def empty : Flags := ⟨0⟩

/-- Present and writable, for the kernel only. -/
def kernelRW : Flags := (empty.put .present true).put .writable true

/-- `kernelRW`, asking for a huge page. -/
def kernelRWHuge : Flags := kernelRW.put .huge true

/-- What an entry that points at another node carries. -/
def table : Flags := kernelRW

/-- Every bit set in `other` is set in `flags`. -/
def contains (flags other : Flags) : Bool :=
  flags.bits &&& other.bits == other.bits

/-- The bits set in either word. -/
def union (flags other : Flags) : Flags := ⟨flags.bits ||| other.bits⟩

/-- Drops the bits that the processor maintains. -/
def withoutStatus (flags : Flags) : Flags :=
  (flags.put .accessed false).put .dirty false

/-- Drops everything that is not a flag bit. -/
def sanitized (flags : Flags) : Flags :=
  ⟨flags.bits &&& ~~~Field.addressSlot.mask⟩

theorem get_sanitized (flags : Flags) (x : Field) :
    flags.sanitized.get x = flags.get x :=
  Slot.read_and_not_mask x.slot_fits x.slot_apart_addressSlot flags.bits

end Flags

example : Flags.kernelRW.bits = 0x3 := by decide
example : Flags.kernelRWHuge.bits = 0x83 := by decide

end FourLevelPaging
