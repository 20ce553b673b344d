/-
What becomes of a frame that is handed back, judged by the answers given before:
it is taken back if it is outstanding, it was freed twice if it came out at some
time and is not, and it is none of the pool's otherwise.  A frame that is not
taken back leaves no trace.
-/
import FourLevelPaging.Proofs.FramePool.Moves

namespace FourLevelPaging.FramePool

variable {pool : FramePool}

/-- The answer to the frame at `pa` being handed back, where the frames in `out`
are outstanding and those in `given` were handed out at some time. -/
def verdict (out given : Finset Frame) (pa : PhysAddr) : Reply :=
  if ∃ frame ∈ out, frame.base = pa then .done
  else if ∃ frame ∈ given, frame.base = pa then .refused (.doubleFree pa)
  else .refused (.invalidFree pa)

/-- A frame that is kept for reuse is not taken back a second time. -/
theorem free_of_freed (hvalid : pool.Valid) {i : Nat} (hi : i ∈ pool.freed) :
    pool.free (pool.frameAt i) =
      .error (.doubleFree (pool.frameAt i).base) := by
  have hlt : i < pool.next := hvalid.freed_lt i hi
  have hindex := indexOf?_frameAt hvalid (Nat.lt_of_lt_of_le hlt hvalid.next_le)
  simp only [free, hindex, Nat.not_le.2 hlt, hi, ↓reduceIte]

/-- A frame that was never handed out is not taken back, wherever it lies. -/
theorem free_of_unused (hvalid : pool.Valid) {frame : Frame}
    (hunused : ∀ i < pool.next, pool.frameAt i ≠ frame) :
    pool.free frame = .error (.invalidFree frame.base) := by
  unfold free
  cases hindex : pool.indexOf? frame.base with
  | none => rfl
  | some i =>
      obtain ⟨-, hframe⟩ := frameAt_of_indexOf? hvalid hindex
      have hle : pool.next ≤ i :=
        Nat.le_of_not_lt fun hlt => hunused i hlt hframe
      exact if_pos hle

/-- A frame is known by its base. -/
theorem exists_base_iff {frames : Finset Frame} (frame : Frame) :
    (∃ other ∈ frames, other.base = frame.base) ↔ frame ∈ frames := by
  constructor
  · rintro ⟨other, hmem, hbase⟩
    exact Page.ext hbase ▸ hmem
  · intro hmem
    exact ⟨frame, hmem, rfl⟩

/-- What is answered to a frame depends on where it stands, and to an address
that is no frame on nothing. -/
theorem call_freeAddress_value (hvalid : pool.Valid) {given : Finset Frame}
    (hgiven : given = (Finset.range pool.next).image pool.frameAt)
    (pa : PhysAddr) :
    (pool.call (.freeAddress pa)).value = verdict pool.allocated given pa := by
  have hmem : ∀ frame, frame ∈ given ↔
      ∃ i < pool.next, pool.frameAt i = frame := by
    simp [hgiven]
  by_cases haligned : pa.isAligned .fourK = true
  · obtain ⟨frame, rfl⟩ : ∃ frame : Frame, frame.base = pa :=
      ⟨⟨pa, haligned⟩, rfl⟩
    simp only [call, freeAddress_base, verdict, exists_base_iff]
    by_cases hout : frame ∈ pool.allocated
    · obtain ⟨i, -, hfree⟩ := free_eq_ok hvalid hout
      rw [if_pos hout, hfree]
      rfl
    rw [if_neg hout]
    by_cases hspent : frame ∈ given
    · obtain ⟨i, hi, rfl⟩ := (hmem frame).1 hspent
      have hfreed : i ∈ pool.freed := by
        by_contra hnot
        exact hout (mem_allocated.2 ⟨i, hi, hnot, rfl⟩)
      rw [if_pos hspent, free_of_freed hvalid hfreed]
      rfl
    · have hunused : ∀ i < pool.next, pool.frameAt i ≠ frame :=
        fun i hi heq => hspent ((hmem frame).2 ⟨i, hi, heq⟩)
      rw [if_neg hspent, free_of_unused hvalid hunused]
      rfl
  · have hno : ∀ frames : Finset Frame, ¬∃ frame ∈ frames, frame.base = pa := by
      rintro frames ⟨frame, -, rfl⟩
      exact haligned frame.aligned
    simp only [call, freeAddress_of_unaligned pool haligned, verdict,
      if_neg (hno _)]
    rfl

section Verdict

variable {out given : Finset Frame} {pa : PhysAddr}

theorem verdict_eq_done_iff :
    verdict out given pa = .done ↔ ∃ frame ∈ out, frame.base = pa := by
  unfold verdict
  split_ifs with hout hgiven <;> simp [hout]

theorem verdict_eq_doubleFree_iff :
    verdict out given pa = .refused (.doubleFree pa) ↔
      ∃ frame ∈ given, frame ∉ out ∧ frame.base = pa := by
  unfold verdict
  constructor
  · intro hverdict
    split_ifs at hverdict with hout hgiven
    · obtain ⟨frame, hmem, hbase⟩ := hgiven
      exact ⟨frame, hmem, fun hheld => hout ⟨frame, hheld, hbase⟩, hbase⟩
    · cases hverdict
  · rintro ⟨frame, hmem, hheld, rfl⟩
    rw [if_neg (mt (exists_base_iff frame).1 hheld), if_pos ⟨frame, hmem, rfl⟩]

theorem verdict_eq_invalidFree_iff (hsubset : out ⊆ given) :
    verdict out given pa = .refused (.invalidFree pa) ↔
      ∀ frame ∈ given, frame.base ≠ pa := by
  unfold verdict
  constructor
  · intro hverdict
    split_ifs at hverdict with hout hgiven
    · cases hverdict
    · exact fun frame hmem hbase => hgiven ⟨frame, hmem, hbase⟩
  · intro hnone
    have hgiven : ¬∃ frame ∈ given, frame.base = pa := by
      rintro ⟨frame, hmem, hbase⟩
      exact hnone frame hmem hbase
    have hout : ¬∃ frame ∈ out, frame.base = pa := by
      rintro ⟨frame, hmem, hbase⟩
      exact hnone frame (hsubset hmem) hbase
    rw [if_neg hout, if_neg hgiven]

end Verdict

/-- A frame that is given back is taken back exactly if it is when it is freed,
and the reason why it is not is reported. -/
theorem call_giveBack (pool : FramePool) (frame : Frame) :
    (pool.call (.giveBack frame)).state = (pool.call (.free frame)).state ∧
      ∀ reason, .freeIgnored reason ∈ (pool.call (.giveBack frame)).events ↔
        (pool.call (.free frame)).value = .refused reason := by
  cases hfree : pool.free frame with
  | error cause =>
      simp only [call, giveBack, hfree, Outcome.quiet, true_and]
      intro reason
      rw [Array.mem_singleton, Event.freeIgnored.injEq, Reply.refused.injEq,
        eq_comm]
  | ok pool' => simp [call, giveBack, hfree, Outcome.quiet]

/-- A request by which no frame changes hands leaves the pool as it was. -/
theorem state_of_move?_eq_none (hvalid : pool.Valid) {request : Call}
    (htrades : request.trades = true)
    (hnone : request.move? (pool.call request) = none) :
    (pool.call request).state = pool := by
  have hmoved := moved_call hvalid htrades
  rw [hnone] at hmoved
  generalize (pool.call request).state = left at hmoved
  cases hmoved
  rfl

/-- After any requests, an address is taken back exactly if a frame that is
outstanding starts there; it was freed twice if a frame starts there that was
handed out and is not outstanding, and it is no frame of the pool's if none that
was ever handed out starts there.  The three ways to hand a frame back agree,
and a request by which no frame changes hands (a frame that is not taken back is
one) shows in no later answer. -/
theorem free_verdict {limit : Nat} {base : PhysAddr} {size frameSize : Word}
    {pool now : FramePool} {calls : List Call} {past : List Move}
    {out : Finset Frame}
    (hcarved : ofRegion limit base size frameSize = .ok pool)
    (htrades : ∀ request ∈ calls, request.trades = true)
    (hnow : Outcome.after call pool calls = now)
    (hpast : moves pool calls = past) (hout : outstanding ∅ pool calls = out) :
    (∀ pa,
        ((now.call (.freeAddress pa)).value = .done ↔
            ∃ frame ∈ out, frame.base = pa) ∧
          ((now.call (.freeAddress pa)).value = .refused (.doubleFree pa) ↔
            ∃ frame, .out frame ∈ past ∧ frame ∉ out ∧ frame.base = pa) ∧
          ((now.call (.freeAddress pa)).value = .refused (.invalidFree pa) ↔
            ∀ frame, .out frame ∈ past → frame.base ≠ pa)) ∧
      (∀ frame : Frame,
        now.call (.free frame) = now.call (.freeAddress frame.base) ∧
          (now.call (.giveBack frame)).state = (now.call (.free frame)).state ∧
          ∀ reason, .freeIgnored reason ∈ (now.call (.giveBack frame)).events ↔
            (now.call (.free frame)).value = .refused reason) ∧
      ∀ request later, request.trades = true →
        request.move? (now.call request) = none →
        Outcome.history call (now.call request).state later =
          Outcome.history call now later := by
  have hvalid := valid_carve hcarved
  obtain ⟨hallocated, -⟩ := outstanding_eq hvalid htrades
  have hrecorded := (Recorded.of_ofRegion hcarved).run hvalid htrades
  have hvalid' := valid_after hvalid calls
  rw [allocated_of_ofRegion hcarved, hout, hnow] at hallocated
  rw [List.nil_append, hpast, hnow] at hrecorded
  rw [hnow] at hvalid'
  have hsubset : out ⊆ Move.handedOut past := by
    intro frame hmem
    rw [hallocated] at hmem
    obtain ⟨i, hi, -, hframe⟩ := mem_allocated.1 hmem
    exact Move.mem_handedOut.2 (hrecorded.out_mem_iff.2 ⟨i, hi, hframe⟩)
  refine ⟨fun pa => ?_, fun frame => ?_, fun request later htrade hnone => ?_⟩
  · rw [call_freeAddress_value hvalid' hrecorded.handedOut_eq, ← hallocated]
    simp only [← Move.mem_handedOut]
    exact ⟨verdict_eq_done_iff, verdict_eq_doubleFree_iff,
      verdict_eq_invalidFree_iff hsubset⟩
  · refine ⟨?_, call_giveBack now frame⟩
    simp only [call, freeAddress_base]
  · rw [state_of_move?_eq_none hvalid' htrade hnone]

/-- Of the frames of `smallTrades`, one is outstanding, one is free and one was
never handed out; an address inside a frame is none, and a frame freed twice is
not noticed later. -/
theorem free_verdict_small :
    ((Outcome.after call small smallTrades).call
        (.freeAddress ⟨0x101000⟩)).value = .done ∧
      ((Outcome.after call small smallTrades).call
          (.freeAddress ⟨0x100000⟩)).value =
        .refused (.doubleFree ⟨0x100000⟩) ∧
      ((Outcome.after call small smallTrades).call
          (.freeAddress ⟨0x103000⟩)).value =
        .refused (.invalidFree ⟨0x103000⟩) ∧
      ((Outcome.after call small smallTrades).call
          (.freeAddress ⟨0x101008⟩)).value =
        .refused (.invalidFree ⟨0x101008⟩) ∧
      Outcome.history call ((Outcome.after call small smallTrades).call
          (.giveBack (.containing ⟨0x100000⟩))).state [.take, .allocate] =
        Outcome.history call (Outcome.after call small smallTrades)
          [.take, .allocate] := by
  have htrades : ∀ request ∈ smallTrades, request.trades = true := by decide
  have hpast : moves small smallTrades =
      [.out (.containing ⟨0x100000⟩), .out (.containing ⟨0x101000⟩),
        .out (.containing ⟨0x102000⟩), .back (.containing ⟨0x100000⟩),
        .back (.containing ⟨0x102000⟩)] := by
    decide +kernel
  have hout : outstanding ∅ small smallTrades = {.containing ⟨0x101000⟩} := by
    decide +kernel
  obtain ⟨hverdict, -, hlater⟩ :=
    free_verdict ofRegion_small htrades rfl hpast hout
  refine ⟨(hverdict _).1.2 ⟨_, Finset.mem_singleton_self _, by decide +kernel⟩,
    (hverdict _).2.1.2 ⟨.containing ⟨0x100000⟩, by simp, by decide +kernel,
      by decide +kernel⟩, (hverdict _).2.2.2 ?_, (hverdict _).2.2.2 ?_,
    hlater _ _ rfl (by decide +kernel)⟩
  · intro frame hmem
    simp only [List.mem_cons, Move.out.injEq, reduceCtorEq, or_false,
      List.not_mem_nil] at hmem
    rcases hmem with rfl | rfl | rfl <;> decide +kernel
  · intro frame hmem
    simp only [List.mem_cons, Move.out.injEq, reduceCtorEq, or_false,
      List.not_mem_nil] at hmem
    rcases hmem with rfl | rfl | rfl <;> decide +kernel

end FourLevelPaging.FramePool
