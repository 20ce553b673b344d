/-
Requests to a frame pool as data, so that whole histories of a pool can be
spoken about.
-/
import FourLevelPaging.FramePool

namespace FourLevelPaging.FramePool

/-- A request to a pool. -/
inductive Call where
  | carve (base : PhysAddr) (size frameSize : Word)
  | allocate
  | take
  | drain
  | free (frame : Frame)
  | freeAddress (pa : PhysAddr)
  | giveBack (frame : Frame)
  | contains (pa : PhysAddr)

inductive Reply where
  /-- The request was carried out. -/
  | done
  | frame (frame : Frame)
  | taken (frame : Option Frame)
  | drained (count : Nat) (last : Option Frame)
  /-- The frame was received, accepted or not. -/
  | received
  | contained (inside : Bool)
  | refused (reason : FramePoolError)
deriving DecidableEq

/-- Carries out one request.  A refused request leaves the pool as it was. -/
def call (pool : FramePool) : Call → Reported FramePool Reply
  | .carve base size frameSize =>
      match pool.carve base size frameSize with
      | .ok pool' =>
          ⟨.done, pool', #[.poolCarved pool'.frames pool'.first.base]⟩
      | .error reason => .quiet (.refused reason) pool
  | .allocate =>
      match pool.allocate with
      | .ok (frame, pool') => .quiet (.frame frame) pool'
      | .error reason => .quiet (.refused reason) pool
  | .take =>
      match pool.take? with
      | some (frame, pool') => .quiet (.taken (some frame)) pool'
      | none => .quiet (.taken none) pool
  | .drain =>
      match pool.drain with
      | (count, last, pool') => .quiet (.drained count last) pool'
  | .free frame =>
      match pool.free frame with
      | .ok pool' => .quiet .done pool'
      | .error reason => .quiet (.refused reason) pool
  | .freeAddress pa =>
      match pool.freeAddress pa with
      | .ok pool' => .quiet .done pool'
      | .error reason => .quiet (.refused reason) pool
  | .giveBack frame =>
      let given := pool.giveBack frame
      ⟨.received, given.state, given.events⟩
  | .contains pa => .quiet (.contained (pool.contains pa)) pool

end FourLevelPaging.FramePool
