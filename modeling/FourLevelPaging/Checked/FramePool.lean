/-
A frame pool in arrays of fixed size: a stack of the frames handed back, and a
mark for each frame that is on it.
-/
import FourLevelPaging.Checked.Trap
import FourLevelPaging.FramePool

namespace FourLevelPaging

/-- A pool of at most `limit` frames.  The first `height` elements of `stack`
are the frames handed back, the latest last, and `marks` tells which these
are. -/
structure ArrayPool (limit : Nat) where
  first : Frame
  frames : Nat
  next : Nat
  stack : Vector Nat limit
  height : Nat
  marks : Vector Bool limit

namespace ArrayPool

open Checked

variable {limit : Nat}

/-- The pool that the arrays stand for. -/
def view (pool : ArrayPool limit) : FramePool :=
  { limit
    first := pool.first
    frames := pool.frames
    next := pool.next
    freed := (pool.stack.toList.take pool.height).reverse }

/-- A fresh pool over a region. -/
def ofRegion (limit : Nat) (base : PhysAddr) (size frameSize : Word) :
    Except FramePoolError (ArrayPool limit) :=
  (FramePool.ofRegion limit base size frameSize).map fun pool =>
    { first := pool.first
      frames := pool.frames
      next := 0
      stack := .replicate limit 0
      height := 0
      marks := .replicate limit false }

/-- The frame at a position in the pool. -/
def frameAt (pool : ArrayPool limit) (i : Nat) : Checked Frame := do
  let offset ← product i PageSize.fourK.bytes
  let base ← sum pool.first.base.toNat offset
  return .containing (.ofNat base)

/-- How many frames can still be handed out. -/
def freeCount (pool : ArrayPool limit) : Checked Nat := do
  let unused ← difference pool.frames pool.next
  sum unused pool.height

/-- How many frames are handed out. -/
def allocatedCount (pool : ArrayPool limit) : Checked Nat :=
  difference pool.next pool.height

/-- The address lies in a frame of the pool. -/
def contains (pool : ArrayPool limit) (pa : PhysAddr) : Checked Bool :=
  if pool.first.base.toNat ≤ pa.toNat then do
    let offset ← difference pa.toNat pool.first.base.toNat
    return decide (offset / PageSize.fourK.bytes < pool.frames)
  else return false

/-- The position of the frame that starts at `pa`. -/
def indexOf? (pool : ArrayPool limit) (pa : PhysAddr) :
    Checked (Option Nat) := do
  let inside ← pool.contains pa
  if inside && pa.isAligned .fourK then do
    let offset ← difference pa.toNat pool.first.base.toNat
    return some (offset / PageSize.fourK.bytes)
  else return none

/-- Hands out the frame freed last, or else the next one never used. -/
def allocate (pool : ArrayPool limit) :
    Checked (Except FramePoolError Frame × ArrayPool limit) :=
  if 0 < pool.height then do
    let height ← difference pool.height 1
    let i ← item pool.stack.toList height
    let marks ← setItem pool.marks i false
    let frame ← pool.frameAt i
    return (.ok frame, { pool with height, marks })
  else if pool.next < pool.frames then do
    let next ← sum pool.next 1
    let i ← difference next 1
    let frame ← pool.frameAt i
    return (.ok frame, { pool with next })
  else return (.error .outOfMemory, pool)

/-- Takes a frame back.  Only a frame that is handed out is accepted. -/
def free (pool : ArrayPool limit) (frame : Frame) :
    Checked (Except FramePoolError Unit × ArrayPool limit) := do
  match ← pool.indexOf? frame.base with
  | none => return (.error (.invalidFree frame.base), pool)
  | some i =>
      if pool.next ≤ i then return (.error (.invalidFree frame.base), pool)
      else do
        let marked ← item pool.marks.toList i
        if marked then return (.error (.doubleFree frame.base), pool)
        else do
          let stack ← setItem pool.stack pool.height i
          let height ← sum pool.height 1
          let marks ← setItem pool.marks i true
          return (.ok (), { pool with stack, height, marks })

/-- Takes a frame back.  A frame that is not accepted is reported and otherwise
ignored. -/
def giveBack (pool : ArrayPool limit) (frame : Frame) :
    Checked (Reported (ArrayPool limit) Unit) := do
  match ← pool.free frame with
  | (.ok (), pool') => return .quiet () pool'
  | (.error reason, pool') => return ⟨(), pool', #[.freeIgnored reason]⟩

end ArrayPool

end FourLevelPaging
