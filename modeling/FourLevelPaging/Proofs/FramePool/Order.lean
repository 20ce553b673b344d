/-
In which order the frames of a pool come out.  The frame that came back last is
the first to be handed out again; as long as none is idle, the frames come out
in the order in which they lie in the region.
-/
import FourLevelPaging.Proofs.FramePool.Moves

namespace FourLevelPaging.FramePool

/-- An idle frame is on the shelf, so the pool keeps a frame for reuse. -/
theorem Recorded.not_idle {pool : FramePool} {past : List Move}
    (hrecorded : pool.Recorded past) (hfreed : pool.freed = [])
    (frame : Frame) :
    ¬Move.Idle past frame := by
  intro hidle
  have hmem := Move.mem_shelf_of_idle hidle
  rw [hrecorded.shelf_eq, hfreed] at hmem
  cases hmem

/-- The frame that the pool would reuse is the one that came back last. -/
theorem Recorded.lastIdle {pool : FramePool} {past : List Move}
    (hrecorded : pool.Recorded past) {i : Nat} {rest : List Nat}
    (hfreed : pool.freed = i :: rest) :
    Move.LastIdle past (pool.frameAt i) := by
  have hshelf := hrecorded.shelf_eq
  rw [hfreed, List.map_cons] at hshelf
  exact Move.lastIdle_of_shelf hshelf

/-- After any requests, the frame that a pool hands out next is the idle frame
that came back last, if a frame is idle, and otherwise the one that follows the
frames handed out so far, which are the first of the region. -/
theorem handed_out_in_order {limit : Nat} {base : PhysAddr}
    {size frameSize : Word} {pool now : FramePool} {calls : List Call}
    {past : List Move} (hcarved : ofRegion limit base size frameSize = .ok pool)
    (htrades : ∀ request ∈ calls, request.trades = true)
    (hnow : Outcome.after call pool calls = now)
    (hpast : moves pool calls = past) :
    ∀ request frame, request.trades = true →
      (now.call request).value.returned? = some frame →
      ((∃ other, Move.Idle past other) → Move.LastIdle past frame) ∧
        ((∀ other, ¬Move.Idle past other) →
          frame.base.toNat =
            regionStart base +
              (Move.handedOut past).card * PageSize.fourK.bytes) := by
  intro request frame htrade hreturned
  have hvalid := valid_carve hcarved
  have hrecorded := (Recorded.of_ofRegion hcarved).run hvalid htrades
  have hregion := (outstanding_eq hvalid htrades).2
  have hvalid' := valid_after hvalid calls
  rw [List.nil_append, hpast, hnow] at hrecorded
  rw [hnow] at hregion hvalid'
  have hmoved := moved_call hvalid' htrade
  simp only [Call.move?, hreturned] at hmoved
  generalize (now.call request).state = left at hmoved
  cases hmoved with
  | reused hfreed =>
      have hlast := hrecorded.lastIdle hfreed
      exact ⟨fun _ => hlast, fun hnone => absurd hlast.idle (hnone _)⟩
  | next hfreed hlt =>
      constructor
      · rintro ⟨other, hidle⟩
        exact absurd hidle (hrecorded.not_idle hfreed other)
      · intro _
        have hlt' : now.next < pool.frames := hregion.frames_eq ▸ hlt
        rw [hrecorded.card_handedOut hvalid', hregion.frameAt_eq]
        exact (frameAt_mem_region hcarved hlt').1

/-- After `smallTrades` two frames are idle: the third frame of the region,
which came back last, is handed out first, and then the first frame.  After that
no frame is idle, and the fourth frame follows the three that were handed
out. -/
theorem handed_out_in_order_small :
    ((Outcome.after call small smallTrades).call .take).value.returned? =
        some (.containing ⟨0x102000⟩) ∧
      Move.LastIdle (moves small smallTrades) (.containing ⟨0x102000⟩) ∧
      ((Outcome.after call small (smallTrades ++ [.take])).call
          .allocate).value.returned? =
        some (.containing ⟨0x100000⟩) ∧
      Move.LastIdle (moves small (smallTrades ++ [.take]))
        (.containing ⟨0x100000⟩) ∧
      ((Outcome.after call small (smallTrades ++ [.take, .allocate])).call
          .take).value.returned? =
        some (.containing ⟨0x103000⟩) ∧
      (Page.containing ⟨0x103000⟩ : Frame).base.toNat =
        regionStart ⟨0x100000⟩ + (Move.handedOut
            (moves small (smallTrades ++ [.take, .allocate]))).card *
          PageSize.fourK.bytes := by
  have hfirst :
      ((Outcome.after call small smallTrades).call .take).value.returned? =
        some (.containing ⟨0x102000⟩) := by
    decide +kernel
  have hsecond : ((Outcome.after call small
      (smallTrades ++ [.take])).call .allocate).value.returned? =
        some (.containing ⟨0x100000⟩) := by
    decide +kernel
  have hthird : ((Outcome.after call small
      (smallTrades ++ [.take, .allocate])).call .take).value.returned? =
        some (.containing ⟨0x103000⟩) := by
    decide +kernel
  have hpast : moves small smallTrades =
      [.out (.containing ⟨0x100000⟩), .out (.containing ⟨0x101000⟩),
        .out (.containing ⟨0x102000⟩), .back (.containing ⟨0x100000⟩)] ++
        .back (.containing ⟨0x102000⟩) :: [] := by
    decide +kernel
  have hpast' : moves small (smallTrades ++ [.take]) =
      [.out (.containing ⟨0x100000⟩), .out (.containing ⟨0x101000⟩),
        .out (.containing ⟨0x102000⟩)] ++ .back (.containing ⟨0x100000⟩) ::
        [.back (.containing ⟨0x102000⟩), .out (.containing ⟨0x102000⟩)] := by
    decide +kernel
  have hshelf :
      Move.shelf (moves small (smallTrades ++ [.take, .allocate])) = [] := by
    decide +kernel
  refine ⟨hfirst, ?_, hsecond, ?_, hthird, ?_⟩
  · exact (handed_out_in_order ofRegion_small (by decide) rfl rfl .take _
      rfl hfirst).1 ⟨_, _, _, hpast, List.not_mem_nil⟩
  · exact (handed_out_in_order ofRegion_small (by decide) rfl rfl .allocate _
      rfl hsecond).1 ⟨_, _, _, hpast', by decide +kernel⟩
  · refine (handed_out_in_order ofRegion_small (by decide) rfl rfl .take _
      rfl hthird).2 ?_
    intro other hidle
    have hmem := Move.mem_shelf_of_idle hidle
    rw [hshelf] at hmem
    cases hmem

end FourLevelPaging.FramePool
