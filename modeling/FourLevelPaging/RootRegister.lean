/-
The register that selects the root of the tree: the frame of the top node and
two bits that control how the processor caches that node.
-/
import FourLevelPaging.Page

namespace FourLevelPaging

/-- A value of the root register.  Reserved bits are kept. -/
structure RootRegister where
  bits : Word
deriving DecidableEq

namespace RootRegister

/-- Write-through caching of the root node. -/
def writeThroughSlot : Slot := ⟨3, 1⟩

/-- No caching of the root node. -/
def cacheDisableSlot : Slot := ⟨4, 1⟩

/-- The frame number of the root node. -/
def frameSlot : Slot := ⟨12, 40⟩

/-- The value that selects `root`, with write-back caching. -/
def ofRoot (root : Frame) : RootRegister :=
  ⟨frameSlot.write (BitVec.ofNat 40 root.number) 0⟩

/-- The frame of the root node. -/
def root (r : RootRegister) : Frame :=
  (Address.ofNat ((frameSlot.read r.bits).toNat * PageSize.fourK.bytes)).page
    .fourK

/-- Whether the root node is cached write-through. -/
def writeThrough (r : RootRegister) : Bool := r.bits.getLsbD writeThroughSlot.lo

/-- Whether the root node is not cached. -/
def cacheDisable (r : RootRegister) : Bool := r.bits.getLsbD cacheDisableSlot.lo

/-- Selects write-through or write-back caching. -/
def setWriteThrough (r : RootRegister) (on : Bool) : RootRegister :=
  ⟨writeThroughSlot.write (BitVec.ofBool on) r.bits⟩

/-- Switches caching off or on. -/
def setCacheDisable (r : RootRegister) (on : Bool) : RootRegister :=
  ⟨cacheDisableSlot.write (BitVec.ofBool on) r.bits⟩

end RootRegister

end FourLevelPaging
