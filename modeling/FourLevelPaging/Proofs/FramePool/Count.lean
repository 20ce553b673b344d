/-
How many frames a pool has left.  The frames that are handed out and those that
can still be handed out make up the pool, and each request that is carried out
moves one of them.
-/
import FourLevelPaging.Proofs.FramePool.Allocated

namespace FourLevelPaging.FramePool

variable {pool pool' : FramePool} {frame : Frame}

theorem length_freed_le (hvalid : pool.Valid) :
    pool.freed.length ≤ pool.next := by
  have hcard := Finset.card_le_card (toFinset_freed_subset hvalid)
  rwa [List.toFinset_card_of_nodup hvalid.freed_nodup, Finset.card_range]
    at hcard

theorem freeCount_add_allocatedCount (hvalid : pool.Valid) :
    pool.freeCount + pool.allocatedCount = pool.capacity := by
  have hnext := hvalid.next_le
  have hfreed := length_freed_le hvalid
  simp only [freeCount, allocatedCount, capacity]
  omega

theorem Took.allocatedCount_eq (htook : pool.Took frame pool')
    (hvalid : pool.Valid) :
    pool'.allocatedCount = pool.allocatedCount + 1 := by
  rw [← card_allocated htook.valid, ← card_allocated hvalid, htook.allocated_eq,
    Finset.card_insert_of_notMem htook.fresh]

theorem Took.freeCount_eq (htook : pool.Took frame pool')
    (hvalid : pool.Valid) :
    pool.freeCount = pool'.freeCount + 1 := by
  have hbefore := freeCount_add_allocatedCount hvalid
  have hafter := freeCount_add_allocatedCount htook.valid
  have hcount := htook.allocatedCount_eq hvalid
  have hframes : pool'.capacity = pool.capacity := htook.region.frames_eq
  omega

theorem Freed.allocatedCount_eq (hfreed : pool.Freed frame pool')
    (hvalid : pool.Valid) :
    pool.allocatedCount = pool'.allocatedCount + 1 := by
  rw [← card_allocated hfreed.valid, ← card_allocated hvalid,
    hfreed.allocated_eq, Finset.card_erase_add_one hfreed.held]

/-- A frame can be had exactly if there is one left. -/
theorem take?_eq_none_iff (hvalid : pool.Valid) :
    pool.take? = none ↔ pool.freeCount = 0 := by
  have hnext := hvalid.next_le
  cases hfreed : pool.freed with
  | cons i rest => simp [take?, allocate, freeCount, hfreed]
  | nil =>
      by_cases hlt : pool.next < pool.frames
      · simp [take?, allocate, freeCount, hfreed, hlt]
        omega
      · simp [take?, allocate, freeCount, hfreed, hlt]
        omega

end FourLevelPaging.FramePool
