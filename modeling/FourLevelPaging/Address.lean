/-
Physical and virtual addresses.  The two spaces share their arithmetic and are
kept apart by a type index; only virtual addresses can be canonical.
-/
import FourLevelPaging.Fault
import FourLevelPaging.PageSize
import FourLevelPaging.Text.Hex

namespace FourLevelPaging

/-- The two kinds of address. -/
inductive Space where
  | physical
  | virtual
deriving DecidableEq

/-- The short name of a space, as it is written before an address. -/
def Space.label : Space → String
  | physical => "PA"
  | virtual => "VA"

/-- An address of one space.  Nothing is implied about alignment or range. -/
structure Address (space : Space) where
  bits : Word
deriving DecidableEq

/-- An address on the memory bus. -/
abbrev PhysAddr := Address .physical

/-- An address as seen through the tables. -/
abbrev VirtAddr := Address .virtual

namespace Address

variable {space : Space}

/-- The address as a number below `2 ^ 64`. -/
def toNat (a : Address space) : Nat := a.bits.toNat

/-- The address `n`, modulo `2 ^ 64`. -/
def ofNat (n : Nat) : Address space := ⟨BitVec.ofNat 64 n⟩

theorem toNat_lt (a : Address space) : a.toNat < 2 ^ 64 := a.bits.isLt

theorem toNat_ofNat (n : Nat) :
    (ofNat n : Address space).toNat = n % 2 ^ 64 := by
  simp [ofNat, toNat]

theorem toNat_ofNat_of_lt {n : Nat} (hn : n < 2 ^ 64) :
    (ofNat n : Address space).toNat = n := by
  rw [toNat_ofNat, Nat.mod_eq_of_lt hn]

theorem toNat_inj {a b : Address space} : a.toNat = b.toNat ↔ a = b := by
  constructor
  · intro h
    cases a
    cases b
    congr
    exact BitVec.eq_of_toNat_eq h
  · rintro rfl
    rfl

theorem ofNat_toNat (a : Address space) : ofNat a.toNat = a := by
  apply toNat_inj.1
  rw [toNat_ofNat_of_lt a.toNat_lt]

instance : Ord (Address space) := ⟨fun a b => compare a.toNat b.toNat⟩

/-- The address is a multiple of the page size. -/
def isAligned (size : PageSize) (a : Address space) : Bool :=
  size.isAligned a.bits

theorem isAligned_iff {size : PageSize} {a : Address space} :
    a.isAligned size = true ↔ a.toNat % size.bytes = 0 :=
  PageSize.isAligned_iff

/-- Whether the address is a multiple of `alignment`, which has to be a power
of two. -/
def isAlignedTo (a : Address space) (alignment : Word) : Except Fault Bool :=
  if alignment ≠ 0 ∧ alignment &&& (alignment - 1) = 0 then
    .ok (a.bits &&& (alignment - 1) == 0)
  else
    .error .alignmentNotPowerOfTwo

/-- Clears the offset bits of a page size. -/
def alignDown (size : PageSize) (a : Address space) : Address space :=
  ⟨size.alignDown a.bits⟩

theorem toNat_alignDown (size : PageSize) (a : Address space) :
    (a.alignDown size).toNat = a.toNat / size.bytes * size.bytes :=
  size.toNat_alignDown a.bits

/-- The sum, unless it leaves the address range. -/
def checkedAdd (a : Address space) (bytes : Word) : Option (Address space) :=
  if a.toNat + bytes.toNat < 2 ^ 64 then some ⟨a.bits + bytes⟩ else none

/-- The sum modulo `2 ^ 64`. -/
def wrappingAdd (a : Address space) (bytes : Word) : Address space :=
  ⟨a.bits + bytes⟩

theorem toNat_wrappingAdd (a : Address space) (bytes : Word) :
    (a.wrappingAdd bytes).toNat = (a.toNat + bytes.toNat) % 2 ^ 64 :=
  BitVec.toNat_add _ _

/-- The address in messages. -/
def text (a : Address space) : String := Hex.address a.toNat

/-- The address in diagnostics, with its space. -/
def diagnostic (a : Address space) : String :=
  space.label ++ "(" ++ a.text ++ ")"

end Address

namespace VirtAddr

/-- Bits 47 to 63 are all equal: the address lies in the lower or in the upper
half of the 48-bit range. -/
def isCanonical (va : VirtAddr) : Bool :=
  decide (va.toNat < 2 ^ 47) || decide (2 ^ 64 - 2 ^ 47 ≤ va.toNat)

theorem isCanonical_iff {va : VirtAddr} :
    isCanonical va = true ↔ va.toNat < 2 ^ 47 ∨ 2 ^ 64 - 2 ^ 47 ≤ va.toNat := by
  simp [isCanonical]

/-- Copies bit 47 into the bits above it. -/
def canonicalize (va : VirtAddr) : VirtAddr :=
  ⟨(va.bits.setWidth 48).signExtend 64⟩

end VirtAddr

example : VirtAddr.isCanonical ⟨0x00007FFFFFFFFFFF⟩ = true := by decide
example : VirtAddr.isCanonical ⟨0x0000800000000000⟩ = false := by decide
example :
    VirtAddr.canonicalize ⟨0x0000FFFF80000000⟩ = ⟨0xFFFFFFFF80000000⟩ := by
  decide

end FourLevelPaging
