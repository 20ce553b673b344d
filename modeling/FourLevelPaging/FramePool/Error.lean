/-
Why a frame pool refuses a request.
-/
import FourLevelPaging.Page

namespace FourLevelPaging

/-- The reasons for which a frame pool refuses a request. -/
inductive FramePoolError where
  | outOfMemory
  /-- The address is outside the pool, inside a frame, or was never handed
  out. -/
  | invalidFree (pa : PhysAddr)
  | doubleFree (pa : PhysAddr)
  | unsupportedFrameSize (bytes : Word)
  | emptyPool (base : PhysAddr) (size : Word)
deriving DecidableEq

def FramePoolError.message : FramePoolError → String
  | outOfMemory => "frame pool exhausted"
  | invalidFree pa => pa.text ++ " is not a frame allocated from this pool"
  | doubleFree pa => pa.text ++ " is already free"
  | unsupportedFrameSize bytes =>
      "unsupported frame size " ++ toString bytes.toNat ++
        ", only 4096 byte frames exist"
  | emptyPool base size =>
      "region " ++ base.text ++ " (+" ++ Hex.literal size.toNat ++
        ") holds no whole frame"

end FourLevelPaging
