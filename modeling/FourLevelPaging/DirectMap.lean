/-
How the kernel reaches physical memory: all of it appears in the virtual range
at a constant distance.
-/
import FourLevelPaging.Word

namespace FourLevelPaging

/-- A linear view of physical memory. -/
structure DirectMap where
  offset : Word
deriving DecidableEq

/-- Physical memory at identical virtual addresses. -/
def DirectMap.identity : DirectMap := ⟨0⟩

end FourLevelPaging
