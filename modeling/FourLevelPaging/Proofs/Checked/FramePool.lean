/-
A pool in arrays never leaves them.  The frames handed back are pairwise
different and were all handed out before, so they fit on the stack, and as many
numbers as the region has frames are words.
-/
import FourLevelPaging.Checked.FramePool
import FourLevelPaging.Proofs.Checked.Carries
import FourLevelPaging.Proofs.FramePool.Count

namespace FourLevelPaging

/-- A region ends inside the address range, so it has fewer frames than there
are words. -/
theorem FramePool.frames_lt {pool : FramePool} (hvalid : pool.Valid) :
    pool.frames < 2 ^ 64 := by
  have hrange := hvalid.in_range
  rw [show PageSize.fourK.bytes = 4096 from rfl] at hrange
  omega

namespace ArrayPool

open Checked

variable {limit : Nat} {pool : ArrayPool limit}

/-- The stack lies in its array, and the marks tell what is on it. -/
structure Sound (pool : ArrayPool limit) : Prop where
  height_le : pool.height ≤ limit
  marked_iff : ∀ i (h : i < limit), pool.marks[i] = true ↔ i ∈ pool.view.freed

theorem length_freed (hsound : pool.Sound) :
    pool.view.freed.length = pool.height := by
  have hle := hsound.height_le
  simp [view, hle]

theorem sound_ofRegion {base : PhysAddr} {size frameSize : Word}
    (hregion : ofRegion limit base size frameSize = .ok pool) :
    pool.Sound ∧
      FramePool.ofRegion limit base size frameSize = .ok pool.view := by
  cases hcarved : FramePool.ofRegion limit base size frameSize with
  | error reason =>
      rw [ofRegion, hcarved] at hregion
      cases hregion
  | ok carved =>
      rw [ofRegion, hcarved] at hregion
      obtain rfl := Except.ok.inj hregion
      refine ⟨⟨Nat.zero_le _, fun i h => ?_⟩, ?_⟩
      · simp [view]
      · rw [FramePool.ofRegion] at hcarved
        obtain ⟨-, -, -, rfl⟩ := FramePool.carve_eq_ok hcarved
        simp [view, FramePool.unset]

section Counts

variable (hvalid : pool.view.Valid)

include hvalid

theorem frameAt_eq_ok {i : Nat} (hi : i < pool.frames) :
    pool.frameAt i = .ok (pool.view.frameAt i) := by
  have hrange := hvalid.in_range
  have hbytes : PageSize.fourK.bytes = 4096 := rfl
  have hlt : pool.first.base.toNat + i * PageSize.fourK.bytes < 2 ^ 64 := by
    change pool.first.base.toNat + pool.frames * _ ≤ _ at hrange
    rw [hbytes] at hrange ⊢
    omega
  rw [frameAt, product_eq_ok (by omega), ok_bind, sum_eq_ok hlt]
  rfl

theorem freeCount_eq_ok (hsound : pool.Sound) :
    pool.freeCount = .ok pool.view.freeCount := by
  have hnext : pool.next ≤ pool.frames := hvalid.next_le
  have hfreed := FramePool.length_freed_le hvalid
  have hframes := FramePool.frames_lt hvalid
  rw [length_freed hsound] at hfreed
  change pool.height ≤ pool.next at hfreed
  change pool.frames < 2 ^ 64 at hframes
  rw [freeCount, difference_eq_ok hnext, ok_bind, sum_eq_ok (by omega),
    FramePool.freeCount, length_freed hsound]
  rfl

theorem allocatedCount_eq_ok (hsound : pool.Sound) :
    pool.allocatedCount = .ok pool.view.allocatedCount := by
  have hfreed := FramePool.length_freed_le hvalid
  rw [length_freed hsound] at hfreed
  change pool.height ≤ pool.next at hfreed
  rw [allocatedCount, difference_eq_ok hfreed, FramePool.allocatedCount,
    length_freed hsound]
  rfl

end Counts

theorem contains_eq_ok (pool : ArrayPool limit) (pa : PhysAddr) :
    pool.contains pa = .ok (pool.view.contains pa) := by
  unfold contains
  split
  · next hle =>
      rw [difference_eq_ok hle]
      simp only [ok_bind, pure_eq_ok, FramePool.contains, view, hle,
        decide_true, Bool.true_and]
      rfl
  · next hlt => simp [FramePool.contains, view, hlt]

theorem indexOf?_eq_ok (pool : ArrayPool limit) (pa : PhysAddr) :
    pool.indexOf? pa = .ok (pool.view.indexOf? pa) := by
  rw [indexOf?, contains_eq_ok, ok_bind]
  split
  · next hinside =>
      have hle : pool.first.base.toNat ≤ pa.toNat := by
        simp only [FramePool.contains, Bool.and_eq_true, decide_eq_true_eq]
          at hinside
        exact hinside.1.1
      rw [difference_eq_ok hle, FramePool.indexOf?, if_pos hinside]
      rfl
  · next houtside =>
      rw [FramePool.indexOf?, if_neg houtside]
      rfl

/-- The frames on the stack, the topmost apart. -/
theorem freed_succ {height : Nat} (hsound : pool.Sound)
    (hheight : pool.height = height + 1) :
    ∃ i, pool.stack.toList[height]? = some i ∧
      pool.view.freed = i :: (pool.stack.toList.take height).reverse := by
  have hlt : height < pool.stack.toList.length := by
    have hle := hsound.height_le
    rw [Vector.length_toList]
    omega
  refine ⟨pool.stack.toList[height], List.getElem?_eq_getElem hlt, ?_⟩
  simp only [view, hheight]
  rw [List.take_succ_eq_append_getElem hlt, List.reverse_append]
  rfl

/-- The stack without its topmost frame. -/
theorem sound_pop {height i : Nat} {rest : List Nat} (hsound : pool.Sound)
    (hvalid : pool.view.Valid) (hheight : pool.height = height + 1)
    (hi : i < limit) (hfreed : pool.view.freed = i :: rest)
    (hrest : rest = (pool.stack.toList.take height).reverse) :
    Sound { pool with height, marks := pool.marks.set i false } := by
  have hle := hsound.height_le
  have hnodup := hvalid.freed_nodup
  rw [hfreed, List.nodup_cons] at hnodup
  refine ⟨by simp only; omega, fun j hj => ?_⟩
  change (pool.marks.set i false)[j] = true ↔
    j ∈ (pool.stack.toList.take height).reverse
  rw [← hrest, Vector.getElem_set]
  split
  · next heq =>
      subst heq
      simp [hnodup.1]
  · next hne =>
      rw [hsound.marked_iff j hj, hfreed, List.mem_cons]
      exact or_iff_right (Ne.symm hne)

/-- The stack with one more frame on it. -/
theorem view_push {i : Nat} (hroom : pool.height < limit)
    (marks : Vector Bool limit) :
    view { pool with
        stack := pool.stack.set pool.height i, height := pool.height + 1,
        marks } =
      { pool.view with freed := i :: pool.view.freed } := by
  have hlt : pool.height < (pool.stack.set pool.height i).toList.length := by
    rw [Vector.length_toList]
    exact hroom
  have htake : (pool.stack.set pool.height i).toList.take pool.height =
      pool.stack.toList.take pool.height := by
    rw [Vector.toList_set, List.take_set_of_le (Nat.le_refl _)]
  simp only [view, FramePool.mk.injEq, true_and]
  rw [List.take_succ_eq_append_getElem hlt, List.reverse_append, htake]
  simp

theorem sound_push {i : Nat} (hsound : pool.Sound) (hroom : pool.height < limit)
    (hi : i < limit) :
    Sound { pool with
      stack := pool.stack.set pool.height i
      height := pool.height + 1
      marks := pool.marks.set i true } := by
  refine ⟨hroom, fun j hj => ?_⟩
  rw [view_push hroom, List.mem_cons, ← hsound.marked_iff j hj]
  change (pool.marks.set i true)[j] = true ↔ _
  rw [Vector.getElem_set]
  split
  · next heq => simp [heq]
  · next hne => exact (or_iff_right (Ne.symm hne)).symm

/-- An allocation stays inside the arrays, and hands out the frame it should. -/
theorem allocate_eq_ok (hsound : pool.Sound) (hvalid : pool.view.Valid) :
    ∃ taken pool', pool.allocate = .ok (taken, pool') ∧ pool'.Sound ∧
      pool.view.allocate = taken.map (fun frame => (frame, pool'.view)) ∧
      ∀ reason, taken = .error reason → pool' = pool := by
  have hlimit : pool.frames ≤ limit := hvalid.frames_le
  have hnext : pool.next ≤ pool.frames := hvalid.next_le
  cases hheight : pool.height with
  | zero =>
      have hfreed : pool.view.freed = [] := by simp [view, hheight]
      by_cases hlt : pool.next < pool.frames
      · have hwords : pool.frames < 2 ^ 64 := FramePool.frames_lt hvalid
        refine ⟨.ok (pool.view.frameAt pool.next),
          { pool with next := pool.next + 1 }, ?_,
          ⟨hsound.height_le, hsound.marked_iff⟩, ?_, fun _ h => by cases h⟩
        · simp only [allocate, hheight, Nat.lt_irrefl, ↓reduceIte, hlt]
          rw [sum_eq_ok (by omega), ok_bind, difference_eq_ok (by omega),
            ok_bind, Nat.add_sub_cancel, frameAt_eq_ok hvalid hlt]
          rfl
        · have hview : view { pool with next := pool.next + 1 } =
              { pool.view with next := pool.view.next + 1, freed := [] } := by
            rw [← hfreed]
            rfl
          rw [FramePool.allocate, hfreed, Except.map, hview]
          exact if_pos hlt
      · refine ⟨.error .outOfMemory, pool, ?_, hsound, ?_, fun _ _ => rfl⟩
        · simp only [allocate, hheight, Nat.lt_irrefl, ↓reduceIte, hlt,
            pure_eq_ok]
        · rw [FramePool.allocate, hfreed]
          exact if_neg hlt
  | succ height =>
      obtain ⟨i, hitem, hfreed⟩ := freed_succ hsound hheight
      have hi : i < pool.next := hvalid.freed_lt i (hfreed ▸ List.mem_cons_self)
      have hi' : i < limit := by omega
      refine ⟨.ok (pool.view.frameAt i), _, ?_,
        sound_pop hsound hvalid hheight hi' hfreed rfl, ?_,
        fun _ h => by cases h⟩
      · simp only [allocate, hheight, Nat.succ_pos, ↓reduceIte]
        rw [difference_eq_ok (by omega), ok_bind, Nat.add_sub_cancel,
          item_eq_ok hitem, ok_bind, setItem_eq_ok _ _ hi', ok_bind,
          frameAt_eq_ok hvalid (by omega)]
        rfl
      · rw [FramePool.allocate, hfreed]
        rfl

/-- A free stays inside the arrays, and accepts the frames it should. -/
theorem free_eq_ok (hsound : pool.Sound) (hvalid : pool.view.Valid)
    (frame : Frame) :
    ∃ answer pool', pool.free frame = .ok (answer, pool') ∧ pool'.Sound ∧
      pool.view.free frame = answer.map (fun _ => pool'.view) ∧
      ∀ reason, answer = .error reason → pool' = pool := by
  have hlimit : pool.frames ≤ limit := hvalid.frames_le
  have hnext : pool.next ≤ pool.frames := hvalid.next_le
  have hwords : pool.frames < 2 ^ 64 := FramePool.frames_lt hvalid
  rw [free, indexOf?_eq_ok, ok_bind, FramePool.free]
  cases hindex : pool.view.indexOf? frame.base with
  | none => exact ⟨_, _, rfl, hsound, rfl, fun _ _ => rfl⟩
  | some i =>
      by_cases hunused : pool.next ≤ i
      · have hunused' : pool.view.next ≤ i := hunused
        simp only [if_pos hunused, if_pos hunused']
        exact ⟨_, _, rfl, hsound, rfl, fun _ _ => rfl⟩
      · have hunused' : ¬pool.view.next ≤ i := hunused
        have hi : i < limit := by omega
        have hmark : pool.marks.toList[i]? = some pool.marks[i] := by
          simp [hi]
        simp only [if_neg hunused, if_neg hunused']
        rw [item_eq_ok hmark, ok_bind]
        by_cases hmarked : pool.marks[i] = true
        · rw [if_pos hmarked, if_pos ((hsound.marked_iff i hi).1 hmarked)]
          exact ⟨_, _, rfl, hsound, rfl, fun _ _ => rfl⟩
        · have hout : i ∉ pool.view.freed := fun hmem =>
            hmarked ((hsound.marked_iff i hi).2 hmem)
          have hroom := FramePool.length_freed_le
            (FramePool.freed_cons hvalid (Nat.lt_of_not_le hunused') hout).valid
          rw [List.length_cons, length_freed hsound] at hroom
          change pool.height + 1 ≤ pool.next at hroom
          have hheight : pool.height < limit := by omega
          rw [if_neg hmarked, if_neg hout, setItem_eq_ok _ _ hheight, ok_bind,
            sum_eq_ok (by omega), ok_bind, setItem_eq_ok _ _ hi]
          refine ⟨.ok (), _, rfl, sound_push hsound hheight hi, ?_,
            fun _ h => by cases h⟩
          rw [Except.map, view_push hheight]

theorem carries_giveBack (hsound : pool.Sound) (hvalid : pool.view.Valid)
    (frame : Frame) :
    Carries view Sound (pool.giveBack frame) (pool.view.giveBack frame) := by
  obtain ⟨answer, pool', hrun, hsound', hfree, hkept⟩ :=
    free_eq_ok hsound hvalid frame
  rw [giveBack, hrun, ok_bind, FramePool.giveBack, hfree]
  cases answer with
  | ok _ => exact ⟨_, rfl, hsound', rfl⟩
  | error reason =>
      obtain rfl := hkept reason rfl
      exact ⟨_, rfl, hsound', rfl⟩

/-- Eight frames from 1 MiB on. -/
def small : ArrayPool 8 :=
  { first := .containing ⟨0x100000⟩
    frames := 8
    next := 0
    stack := .replicate 8 0
    height := 0
    marks := .replicate 8 false }

theorem ofRegion_small : ofRegion 8 ⟨0x100000⟩ 0x8000 0x1000 = .ok small := by
  rw [ofRegion, FramePool.ofRegion_small]
  rfl

theorem view_small : small.view = .small := rfl

end ArrayPool

end FourLevelPaging
