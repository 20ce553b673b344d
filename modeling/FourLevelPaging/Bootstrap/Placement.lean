/-
Where the kernel image lies.  Inside the image window a virtual address and its
physical address differ by a constant, fixed when the kernel is linked.
-/
import FourLevelPaging.Address

namespace FourLevelPaging

/-- Where the image lies in physical and in virtual memory, and how much low
memory is mapped one to one while the kernel starts. -/
structure Placement where
  physLoad : PhysAddr
  virtBase : VirtAddr
  imageSize : Word
  identityBytes : Word
deriving DecidableEq

namespace Placement

/-- The placement the kernel is linked for: loaded at 1 MiB, run at the top
2 GiB, a window of 16 MiB, and 1 GiB of low memory. -/
def standard : Placement :=
  { physLoad := ⟨0x100000⟩
    virtBase := ⟨0xFFFFFFFF80000000⟩
    imageSize := 0x1000000
    identityBytes := 0x40000000 }

/-- The number of frames set aside for the kernel's nodes. -/
def poolFrames : Nat := 4096

/-- The address lies in the image window. -/
def containsVirt (place : Placement) (va : VirtAddr) : Bool :=
  decide (place.virtBase.toNat ≤ va.toNat) &&
    decide (va.toNat - place.virtBase.toNat < place.imageSize.toNat)

/-- The physical address of an address in the image window. -/
def imagePhys (place : Placement) (va : VirtAddr) :
    Except Fault (Option PhysAddr) :=
  if place.containsVirt va then
    if place.physLoad.toNat + (va.toNat - place.virtBase.toNat) < 2 ^ 64 then
      .ok (some (.ofNat (place.physLoad.toNat +
        (va.toNat - place.virtBase.toNat))))
    else .error .sumOverflow
  else .ok none

end Placement

end FourLevelPaging
