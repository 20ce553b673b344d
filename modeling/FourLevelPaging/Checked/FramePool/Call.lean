/-
Requests to a frame pool in arrays.  A pool that starts over with another region
empties its stack by its height alone: what the stack held stays in the array.
-/
import FourLevelPaging.Checked.FramePool
import FourLevelPaging.FramePool.Call

namespace FourLevelPaging.ArrayPool

open Checked

variable {limit : Nat}

/-- A pool without frames, which refuses every allocation. -/
def unset (limit : Nat) : ArrayPool limit :=
  { first := .containing ⟨0⟩
    frames := 0
    next := 0
    stack := .replicate limit 0
    height := 0
    marks := .replicate limit false }

/-- Starts over with the whole frames of a region, at most `limit` of them.
What lies on the stack stays there. -/
def carve (pool : ArrayPool limit) (base : PhysAddr) (size frameSize : Word) :
    Except FramePoolError (ArrayPool limit) :=
  if frameSize.toNat ≠ PageSize.fourK.bytes then
    .error (.unsupportedFrameSize frameSize)
  else if 2 ^ 64 ≤ base.toNat + size.toNat then .error (.emptyPool base size)
  else if 2 ^ 64 ≤ base.toNat + (PageSize.fourK.bytes - 1) then
    .error (.emptyPool base size)
  else if min (FramePool.regionFrames base size) limit = 0 then
    .error (.emptyPool base size)
  else
    .ok { pool with
      first := .containing (.ofNat (FramePool.regionStart base))
      frames := min (FramePool.regionFrames base size) limit
      next := 0
      height := 0
      marks := .replicate limit false }

/-- Takes back the frame that starts at `pa`. -/
def freeAddress (pool : ArrayPool limit) (pa : PhysAddr) :
    Checked (Except FramePoolError Unit × ArrayPool limit) :=
  match Page.ofBase? pa with
  | some frame => pool.free frame
  | none => return (.error (.invalidFree pa), pool)

/-- Allocates at most `count` times, until the pool is exhausted. -/
def drainUpTo :
    Nat → ArrayPool limit → Checked (Nat × Option Frame × ArrayPool limit)
  | 0, pool => return (0, none, pool)
  | count + 1, pool => do
      match ← pool.allocate with
      | (.error _, pool') => return (0, none, pool')
      | (.ok frame, pool') => do
          let (taken, last, left) ← drainUpTo count pool'
          return (taken + 1, some (last.getD frame), left)

/-- The answer to a frame that is handed back. -/
def received (answer : Except FramePoolError Unit × ArrayPool limit) :
    Reported (ArrayPool limit) FramePool.Reply :=
  match answer.1 with
  | .ok () => .quiet .done answer.2
  | .error reason => .quiet (.refused reason) answer.2

/-- Carries out one request. -/
def call (pool : ArrayPool limit) :
    FramePool.Call → Checked (Reported (ArrayPool limit) FramePool.Reply)
  | .carve base size frameSize =>
      match pool.carve base size frameSize with
      | .ok pool' =>
          return ⟨.done, pool', #[.poolCarved pool'.frames pool'.first.base]⟩
      | .error reason => return .quiet (.refused reason) pool
  | .allocate => do
      match ← pool.allocate with
      | (.ok frame, pool') => return .quiet (.frame frame) pool'
      | (.error reason, pool') => return .quiet (.refused reason) pool'
  | .take => do
      match ← pool.allocate with
      | (.ok frame, pool') => return .quiet (.taken (some frame)) pool'
      | (.error _, pool') => return .quiet (.taken none) pool'
  | .drain => do
      let count ← pool.freeCount
      let (taken, last, pool') ← drainUpTo count pool
      return .quiet (.drained taken last) pool'
  | .free frame => do
      let answer ← pool.free frame
      return received answer
  | .freeAddress pa => do
      let answer ← pool.freeAddress pa
      return received answer
  | .giveBack frame => do
      let given ← pool.giveBack frame
      return ⟨.received, given.state, given.events⟩
  | .contains pa => do
      let inside ← pool.contains pa
      return .quiet (.contained inside) pool

/-- Carries out requests one after the other. -/
def run (pool : ArrayPool limit) :
    List FramePool.Call →
      Checked (List (Reported (ArrayPool limit) FramePool.Reply))
  | [] => return []
  | request :: rest => do
      let done ← pool.call request
      let others ← done.state.run rest
      return done :: others

end FourLevelPaging.ArrayPool
