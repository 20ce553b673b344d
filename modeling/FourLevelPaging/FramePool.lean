/-
A pool that hands out the frames of one region.  Frames handed back are reused
first, the latest of them before the others; then come frames never handed out
before, in order.
-/
import FourLevelPaging.Event

namespace FourLevelPaging

/-- A pool of at most `limit` frames.  Frames are counted from `first`; those
from `next` on were never handed out, and `freed` lists the ones handed back,
the latest first. -/
structure FramePool where
  limit : Nat
  first : Frame
  frames : Nat
  next : Nat
  freed : List Nat
deriving DecidableEq

namespace FramePool

/-- A pool without frames, which refuses every allocation. -/
def unset (limit : Nat) : FramePool :=
  { limit, first := .containing ⟨0⟩, frames := 0, next := 0, freed := [] }

/-- The base of the first whole frame at or above `base`. -/
def regionStart (base : PhysAddr) : Nat :=
  (base.toNat + (PageSize.fourK.bytes - 1)) / PageSize.fourK.bytes *
    PageSize.fourK.bytes

/-- How many whole frames lie in the region of `size` bytes from `base` on. -/
def regionFrames (base : PhysAddr) (size : Word) : Nat :=
  (base.toNat + size.toNat - regionStart base) / PageSize.fourK.bytes

/-- Starts over with the whole frames of a region, at most `limit` of them.
The region has to end inside the address range and to hold a frame. -/
def carve (pool : FramePool) (base : PhysAddr) (size frameSize : Word) :
    Except FramePoolError FramePool :=
  if frameSize.toNat ≠ PageSize.fourK.bytes then
    .error (.unsupportedFrameSize frameSize)
  else if 2 ^ 64 ≤ base.toNat + size.toNat then .error (.emptyPool base size)
  else if 2 ^ 64 ≤ base.toNat + (PageSize.fourK.bytes - 1) then
    .error (.emptyPool base size)
  else if min (regionFrames base size) pool.limit = 0 then
    .error (.emptyPool base size)
  else
    .ok { pool with
      first := .containing (.ofNat (regionStart base))
      frames := min (regionFrames base size) pool.limit
      next := 0
      freed := [] }

/-- A fresh pool over a region. -/
def ofRegion (limit : Nat) (base : PhysAddr) (size frameSize : Word) :
    Except FramePoolError FramePool :=
  (unset limit).carve base size frameSize

/-- The frame at a position in the pool. -/
def frameAt (pool : FramePool) (i : Nat) : Frame :=
  .containing (.ofNat (pool.first.base.toNat + i * PageSize.fourK.bytes))

/-- How many frames the pool has in all. -/
def capacity (pool : FramePool) : Nat := pool.frames

/-- How many frames can still be handed out. -/
def freeCount (pool : FramePool) : Nat :=
  pool.frames - pool.next + pool.freed.length

/-- How many frames are handed out. -/
def allocatedCount (pool : FramePool) : Nat := pool.next - pool.freed.length

/-- The address lies in a frame of the pool. -/
def contains (pool : FramePool) (pa : PhysAddr) : Bool :=
  decide (pool.first.base.toNat ≤ pa.toNat) &&
    decide ((pa.toNat - pool.first.base.toNat) / PageSize.fourK.bytes <
      pool.frames)

/-- The position of the frame that starts at `pa`. -/
def indexOf? (pool : FramePool) (pa : PhysAddr) : Option Nat :=
  if pool.contains pa && pa.isAligned .fourK then
    some ((pa.toNat - pool.first.base.toNat) / PageSize.fourK.bytes)
  else none

/-- Hands out the frame freed last, or else the next one never used. -/
def allocate (pool : FramePool) : Except FramePoolError (Frame × FramePool) :=
  match pool.freed with
  | i :: rest => .ok (pool.frameAt i, { pool with freed := rest })
  | [] =>
      if pool.next < pool.frames then
        .ok (pool.frameAt pool.next, { pool with next := pool.next + 1 })
      else .error .outOfMemory

/-- Takes a frame back.  Only a frame that is handed out is accepted. -/
def free (pool : FramePool) (frame : Frame) : Except FramePoolError FramePool :=
  match pool.indexOf? frame.base with
  | none => .error (.invalidFree frame.base)
  | some i =>
      if pool.next ≤ i then .error (.invalidFree frame.base)
      else if i ∈ pool.freed then .error (.doubleFree frame.base)
      else .ok { pool with freed := i :: pool.freed }

/-- Takes back the frame that starts at `pa`. -/
def freeAddress (pool : FramePool) (pa : PhysAddr) :
    Except FramePoolError FramePool :=
  match Page.ofBase? pa with
  | some frame => pool.free frame
  | none => .error (.invalidFree pa)

/-- Hands out a frame, without saying why if there is none. -/
def take? (pool : FramePool) : Option (Frame × FramePool) :=
  match pool.allocate with
  | .ok taken => some taken
  | .error _ => none

/-- Takes a frame back.  A frame that is not accepted is reported and otherwise
ignored. -/
def giveBack (pool : FramePool) (frame : Frame) : Reported FramePool Unit :=
  match pool.free frame with
  | .ok pool' => .quiet () pool'
  | .error reason => ⟨(), pool, #[.freeIgnored reason]⟩

/-- Allocates at most `count` times, until the pool is exhausted: how many
frames came out, the last of them and the pool left. -/
def drainUpTo : Nat → FramePool → Nat × Option Frame × FramePool
  | 0, pool => (0, none, pool)
  | count + 1, pool =>
      match pool.allocate with
      | .error _ => (0, none, pool)
      | .ok (frame, pool') =>
          match drainUpTo count pool' with
          | (taken, last, left) => (taken + 1, some (last.getD frame), left)

/-- Allocates until the pool is exhausted. -/
def drain (pool : FramePool) : Nat × Option Frame × FramePool :=
  drainUpTo pool.freeCount pool

end FramePool

end FourLevelPaging
