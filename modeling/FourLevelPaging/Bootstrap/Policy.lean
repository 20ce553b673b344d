/-
What the kernel's first tree has to map: a window of low memory at its own
addresses, in 2 MiB pages, and the kernel image, in 4 KiB pages.
-/
import FourLevelPaging.Bootstrap.Placement
import FourLevelPaging.Entry.Flags

namespace FourLevelPaging

/-- The mappings the kernel starts with. -/
structure Policy where
  identityBytes : Word
  imagePhys : PhysAddr
  imageVirt : VirtAddr
  imageSize : Word
deriving DecidableEq

/-- What is wrong with a policy. -/
inductive LayoutFault where
  | identityNotMultipleOf2M
  | imageBaseUnaligned
  | imageSizeUnaligned
  | imageNotCanonical
  | imageOverlapsIdentity
deriving DecidableEq

def LayoutFault.message : LayoutFault → String
  | identityNotMultipleOf2M => "identity window is not a multiple of 2 MiB"
  | imageBaseUnaligned => "kernel image base is not 4 KiB aligned"
  | imageSizeUnaligned => "kernel image size is not a multiple of 4 KiB"
  | imageNotCanonical => "kernel image base is not canonical"
  | imageOverlapsIdentity => "kernel image overlaps the identity window"

namespace Policy

/-- The flags of the identity window. -/
def identityFlags : Flags := .kernelRWHuge

/-- The flags of the kernel image. -/
def imageFlags : Flags := .kernelRW

/-- The policy that maps a placement. -/
def ofPlacement (place : Placement) : Policy :=
  { identityBytes := place.identityBytes
    imagePhys := place.physLoad
    imageVirt := place.virtBase
    imageSize := place.imageSize }

/-- The policy for the placement the kernel is linked for. -/
def standard : Policy := ofPlacement .standard

/-- The first thing that is wrong with the policy, if anything is. -/
def fault? (policy : Policy) : Option LayoutFault :=
  if !PageSize.twoM.isAligned policy.identityBytes then
    some .identityNotMultipleOf2M
  else if !(policy.imagePhys.isAligned .fourK &&
      policy.imageVirt.isAligned .fourK) then
    some .imageBaseUnaligned
  else if !PageSize.fourK.isAligned policy.imageSize then
    some .imageSizeUnaligned
  else if !policy.imageVirt.isCanonical then some .imageNotCanonical
  else if policy.imageVirt.toNat < policy.identityBytes.toNat then
    some .imageOverlapsIdentity
  else none

end Policy

example : Policy.standard.fault? = none := by decide

end FourLevelPaging
