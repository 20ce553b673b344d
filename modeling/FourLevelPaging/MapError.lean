/-
Why a page cannot be mapped.
-/
import FourLevelPaging.Level

namespace FourLevelPaging

/-- The reasons for which a page cannot be mapped. -/
inductive MapError where
  /-- No frame is left for a node of this level. -/
  | outOfMemory (level : Level)
  | unaligned (va : VirtAddr) (pa : PhysAddr) (size : PageSize)
  | nonCanonical (va : VirtAddr)
  /-- An entry of this level is in the way. -/
  | conflict (va : VirtAddr) (level : Level)
deriving DecidableEq

def MapError.message : MapError → String
  | outOfMemory level => "out of frames for a " ++ level.label ++ " node"
  | unaligned va pa size =>
      va.text ++ " -> " ++ pa.text ++ " is not " ++ size.label ++ " aligned"
  | nonCanonical va => va.text ++ " is not canonical"
  | conflict va level =>
      va.text ++ " conflicts with an existing " ++ level.label ++ " entry"

end FourLevelPaging
