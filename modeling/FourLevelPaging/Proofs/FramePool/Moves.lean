/-
Which frames changed hands, judged by the answers of a pool alone.  The frames
ever handed out are the first of the region, as many as the pool has counted;
those taken back and not handed out since are the ones it keeps for reuse, in
the order in which they came back.
-/
import FourLevelPaging.Proofs.FramePool.Outstanding

namespace FourLevelPaging

/-- A frame that changes hands. -/
inductive Move where
  /-- The frame is handed out. -/
  | out (frame : Frame)
  /-- The frame is taken back. -/
  | back (frame : Frame)
deriving DecidableEq

namespace Move

/-- The frame that is handed out. -/
def out? : Move → Option Frame
  | out frame => some frame
  | back _ => none

/-- The frames that were handed out at some time. -/
def handedOut (moves : List Move) :
    Finset Frame := (moves.filterMap out?).toFinset

/-- The frame was taken back and not handed out since. -/
def Idle (moves : List Move) (frame : Frame) : Prop :=
  ∃ before since, moves = before ++ .back frame :: since ∧ .out frame ∉ since

/-- The frame is idle, and every frame that was taken back after it is not: it
was handed out since. -/
def LastIdle (moves : List Move) (frame : Frame) : Prop :=
  ∃ before since, moves = before ++ .back frame :: since ∧ .out frame ∉ since ∧
    ∀ other earlier later, since = earlier ++ .back other :: later →
      .out other ∈ later

/-- The idle frames after a further move, the latest first. -/
def shelve (shelf : List Frame) : Move → List Frame
  | out frame => shelf.filter (· ≠ frame)
  | back frame => frame :: shelf

/-- The idle frames, the latest first. -/
def shelf (moves : List Move) : List Frame := moves.foldl shelve []

theorem mem_handedOut {moves : List Move} {frame : Frame} :
    frame ∈ handedOut moves ↔ .out frame ∈ moves := by
  rw [handedOut, List.mem_toFinset, List.mem_filterMap]
  constructor
  · rintro ⟨move, hmem, hout⟩
    cases move with
    | out other =>
        obtain rfl := Option.some.inj hout
        exact hmem
    | back other => cases hout
  · intro hmem
    exact ⟨_, hmem, rfl⟩

theorem handedOut_out (moves : List Move) (frame : Frame) :
    handedOut (moves ++ [.out frame]) = insert frame (handedOut moves) := by
  ext other
  simp only [mem_handedOut, List.mem_append, List.mem_singleton, Move.out.injEq,
    Finset.mem_insert]
  exact or_comm

theorem handedOut_back (moves : List Move) (frame : Frame) :
    handedOut (moves ++ [.back frame]) = handedOut moves := by
  ext other
  simp [mem_handedOut]

theorem shelf_concat (moves : List Move) (move : Move) :
    shelf (moves ++ [move]) = shelve (shelf moves) move := by
  rw [shelf, List.foldl_append]
  rfl

/-- A frame stays on the shelf until it is handed out. -/
theorem mem_foldl_shelve {shelf : List Frame} {frame : Frame}
    (hmem : frame ∈ shelf) {since : List Move} (hout : .out frame ∉ since) :
    frame ∈ since.foldl shelve shelf := by
  induction since generalizing shelf with
  | nil => exact hmem
  | cons move rest ih =>
      rw [List.mem_cons, not_or] at hout
      refine ih ?_ hout.2
      cases move with
      | out other =>
          have hne : frame ≠ other := fun heq => hout.1 (congrArg Move.out heq)
          simp [shelve, hmem, hne]
      | back other => exact List.mem_cons_of_mem other hmem

theorem mem_shelf_of_idle {moves : List Move} {frame : Frame}
    (hidle : Idle moves frame) : frame ∈ shelf moves := by
  obtain ⟨before, since, rfl, hout⟩ := hidle
  rw [shelf, List.foldl_append, List.foldl_cons]
  exact mem_foldl_shelve List.mem_cons_self hout

/-- Where a list with one more element at its end can be split. -/
theorem split_concat {moves before since : List Move} {move chosen : Move}
    (heq : moves ++ [move] = before ++ chosen :: since) :
    since = [] ∧ moves = before ∧ move = chosen ∨
      ∃ since', since = since' ++ [move] ∧
        moves = before ++ chosen :: since' := by
  rcases List.eq_nil_or_concat since with rfl | ⟨since', last, rfl⟩
  · obtain ⟨hmoves, hmove⟩ := List.append_inj' heq rfl
    exact Or.inl ⟨rfl, hmoves, List.singleton_inj.1 hmove⟩
  · rw [List.concat_eq_append, ← List.cons_append, ← List.append_assoc] at heq
    obtain ⟨hmoves, hmove⟩ := List.append_inj' heq rfl
    obtain rfl := List.singleton_inj.1 hmove
    exact Or.inr ⟨since', List.concat_eq_append, hmoves⟩

/-- Every frame on the shelf is idle, and the frames that were taken back after
it are in front of it or were handed out since. -/
theorem split_shelf {moves : List Move} {newer older : List Frame}
    {frame : Frame} (hshelf : shelf moves = newer ++ frame :: older) :
    ∃ before since, moves = before ++ .back frame :: since ∧
      .out frame ∉ since ∧
      ∀ other earlier later, since = earlier ++ .back other :: later →
        .out other ∈ later ∨ other ∈ newer := by
  induction moves using List.reverseRecOn generalizing newer older with
  | nil => simp [shelf] at hshelf
  | append_singleton moves move ih =>
      rw [shelf_concat] at hshelf
      cases move with
      | back latest =>
          cases newer with
          | nil =>
              obtain ⟨rfl, -⟩ := List.cons_eq_cons.1 hshelf
              exact ⟨moves, [], rfl, List.not_mem_nil,
                fun other earlier later h => by simp at h⟩
          | cons first newer =>
              obtain ⟨rfl, hrest⟩ := List.cons_eq_cons.1 hshelf
              obtain ⟨before, since, rfl, hout, hlater⟩ := ih hrest
              refine ⟨before, since ++ [.back latest], by simp,
                by simpa using hout, ?_⟩
              intro other earlier later hsplit
              rcases split_concat hsplit with
                ⟨rfl, -, hback⟩ | ⟨later', rfl, hsince⟩
              · obtain rfl := Move.back.inj hback
                exact Or.inr List.mem_cons_self
              · rcases hlater other earlier later' hsince with hmem | hmem
                · exact Or.inl (List.mem_append_left _ hmem)
                · exact Or.inr (List.mem_cons_of_mem latest hmem)
      | out given =>
          obtain ⟨newer', rest, hshelf', rfl, hrest⟩ :=
            List.filter_eq_append_iff.1 hshelf
          obtain ⟨between, older', rfl, hbetween, hframe, -⟩ :=
            List.filter_eq_cons_iff.1 hrest
          rw [← List.append_assoc] at hshelf'
          obtain ⟨before, since, rfl, hout, hlater⟩ := ih hshelf'
          have hne : frame ≠ given := by simpa using hframe
          refine ⟨before, since ++ [.out given], by simp, by simp [hout, hne],
            ?_⟩
          intro other earlier later hsplit
          rcases split_concat hsplit with ⟨-, -, hback⟩ | ⟨later', rfl, hsince⟩
          · cases hback
          · by_cases heq : other = given
            · exact Or.inl (by simp [heq])
            rcases hlater other earlier later' hsince with hmem | hmem
            · exact Or.inl (List.mem_append_left _ hmem)
            · rcases List.mem_append.1 hmem with hmem | hmem
              · exact Or.inr (List.mem_filter.2 ⟨hmem, by simpa using heq⟩)
              · exact absurd (by simpa using heq) (hbetween other hmem)

/-- The first frame on the shelf was taken back last. -/
theorem lastIdle_of_shelf {moves : List Move} {frame : Frame}
    {older : List Frame} (hshelf : shelf moves = frame :: older) :
    LastIdle moves frame := by
  obtain ⟨before, since, hmoves, hout, hlater⟩ :=
    @split_shelf moves [] older frame hshelf
  refine ⟨before, since, hmoves, hout, fun other earlier later hsplit => ?_⟩
  exact (hlater other earlier later hsplit).resolve_right List.not_mem_nil

theorem LastIdle.idle {moves : List Move} {frame : Frame}
    (hlast : LastIdle moves frame) : Idle moves frame := by
  obtain ⟨before, since, hmoves, hout, -⟩ := hlast
  exact ⟨before, since, hmoves, hout⟩

end Move

namespace FramePool

/-- The frame that a request and its outcome show to change hands. -/
def Call.move? (request : Call) (outcome : Reported FramePool Reply) :
    Option Move :=
  match outcome.value.returned? with
  | some frame => some (.out frame)
  | none => (request.accepted? outcome).map .back

/-- The frames that change hands while a list of requests is carried out, in
order. -/
def moves : FramePool → List Call → List Move
  | _, [] => []
  | pool, request :: rest =>
      (request.move? (pool.call request)).toList ++
        moves (pool.call request).state rest

/-- What a request that takes a frame or hands one back does to the counters of
a pool. -/
inductive Moved (pool : FramePool) : Option Move → FramePool → Prop
  | reused {i : Nat} {rest : List Nat} (hfreed : pool.freed = i :: rest) :
      Moved pool (some (.out (pool.frameAt i))) { pool with freed := rest }
  | next (hfreed : pool.freed = []) (hlt : pool.next < pool.frames) :
      Moved pool (some (.out (pool.frameAt pool.next)))
        { pool with next := pool.next + 1 }
  | shelved {i : Nat} (hi : i < pool.next) :
      Moved pool (some (.back (pool.frameAt i))) { pool with freed :=
                                                               i :: pool.freed }
  | kept : Moved pool none pool

section Moved

variable {pool pool' : FramePool} {frame : Frame}

theorem moved_of_allocate (htaken : pool.allocate = .ok (frame, pool')) :
    pool.Moved (some (.out frame)) pool' := by
  rcases allocate_cases htaken with
    ⟨i, rest, hfreed, rfl, rfl⟩ | ⟨hfreed, hlt, rfl, rfl⟩
  · exact .reused hfreed
  · exact .next hfreed hlt

theorem moved_of_free (hvalid : pool.Valid)
    (hfree : pool.free frame = .ok pool') :
    pool.Moved (some (.back frame)) pool' := by
  obtain ⟨i, hi, -, rfl, rfl⟩ := free_cases hvalid hfree
  exact .shelved hi

theorem moved_call (hvalid : pool.Valid) {request : Call}
    (htrades : request.trades = true) :
    pool.Moved (request.move? (pool.call request))
      (pool.call request).state := by
  cases handled_call pool htrades with
  | allocated hreturned htaken =>
      simp only [Call.move?, hreturned]
      exact moved_of_allocate htaken
  | freed hreturned haccepted hfree =>
      simp only [Call.move?, hreturned, haccepted]
      exact moved_of_free hvalid hfree
  | refused hreturned haccepted hkept =>
      simp only [Call.move?, hreturned, haccepted, hkept]
      exact .kept

end Moved

/-- The answers so far tell which frames the pool has handed out and which it
keeps for reuse. -/
structure Recorded (pool : FramePool) (past : List Move) : Prop where
  handedOut_eq :
    Move.handedOut past = (Finset.range pool.next).image pool.frameAt
  shelf_eq : Move.shelf past = pool.freed.map pool.frameAt

namespace Recorded

variable {pool pool' : FramePool} {past : List Move} {move : Option Move}

/-- A move is recorded by the answer that shows it. -/
theorem step (hrecorded : pool.Recorded past) (hvalid : pool.Valid)
    (hmoved : pool.Moved move pool') :
    pool'.Recorded (past ++ move.toList) := by
  obtain ⟨hhanded, hshelf⟩ := hrecorded
  cases hmoved with
  | @reused i rest hfreed =>
      have hnodup := hvalid.freed_nodup
      rw [hfreed, List.nodup_cons] at hnodup
      have hlt : ∀ j ∈ pool.freed, j < pool.next := hvalid.freed_lt
      rw [hfreed] at hlt
      have hi : i < pool.next := hlt i List.mem_cons_self
      have hmem :
          pool.frameAt i ∈ (Finset.range pool.next).image pool.frameAt :=
        Finset.mem_image_of_mem _ (Finset.mem_range.2 hi)
      refine ⟨?_, ?_⟩
      · rw [Option.toList_some, Move.handedOut_out, hhanded]
        exact Finset.insert_eq_of_mem hmem
      · have hrest : ∀ frame ∈ rest.map pool.frameAt,
            decide (frame ≠ pool.frameAt i) = true := by
          intro frame hframe
          obtain ⟨j, hj, rfl⟩ := List.mem_map.1 hframe
          refine decide_eq_true fun heq => hnodup.1 ?_
          have hji : j = i := frameAt_inj hvalid
            (Nat.lt_of_lt_of_le (hlt j (List.mem_cons_of_mem i hj))
              hvalid.next_le) (Nat.lt_of_lt_of_le hi hvalid.next_le) heq
          exact hji ▸ hj
        rw [Option.toList_some, Move.shelf_concat, hshelf, hfreed,
          List.map_cons]
        simp only [Move.shelve, ne_eq, not_true_eq_false, decide_false,
          Bool.false_eq_true, not_false_eq_true, List.filter_cons_of_neg]
        exact List.filter_eq_self.2 hrest
  | next hfreed hlt =>
      refine ⟨?_, ?_⟩
      · rw [Option.toList_some, Move.handedOut_out, hhanded,
          ← Finset.image_insert, ← Finset.range_add_one]
        rfl
      · rw [Option.toList_some, Move.shelf_concat, hshelf, hfreed]
        rfl
  | shelved hi =>
      refine ⟨?_, ?_⟩
      · rw [Option.toList_some, Move.handedOut_back]
        exact hhanded
      · rw [Option.toList_some, Move.shelf_concat, hshelf]
        rfl
  | kept =>
      rw [Option.toList_none, List.append_nil]
      exact ⟨hhanded, hshelf⟩

/-- So is every list of requests. -/
theorem run (hrecorded : pool.Recorded past) (hvalid : pool.Valid)
    {calls : List Call} (htrades : ∀ request ∈ calls, request.trades = true) :
    (Outcome.after call pool calls).Recorded (past ++ moves pool calls) := by
  induction calls generalizing pool past with
  | nil =>
      rw [moves, List.append_nil]
      exact hrecorded
  | cons request rest ih =>
      have hmoved := moved_call hvalid (htrades request List.mem_cons_self)
      have hrest := ih (hrecorded.step hvalid hmoved)
        (valid_call hvalid request)
        fun other hother => htrades other (List.mem_cons_of_mem request hother)
      rw [List.append_assoc] at hrest
      exact hrest

theorem of_ofRegion {limit : Nat} {base : PhysAddr} {size frameSize : Word}
    (hcarved : ofRegion limit base size frameSize = .ok pool) :
    pool.Recorded [] := by
  obtain ⟨-, -, -, rfl⟩ := carve_eq_ok hcarved
  exact ⟨rfl, rfl⟩

theorem out_mem_iff (hrecorded : pool.Recorded past) {frame : Frame} :
    .out frame ∈ past ↔ ∃ i < pool.next, pool.frameAt i = frame := by
  rw [← Move.mem_handedOut, hrecorded.handedOut_eq, Finset.mem_image]
  simp only [Finset.mem_range]

theorem card_handedOut (hrecorded : pool.Recorded past) (hvalid : pool.Valid) :
    (Move.handedOut past).card = pool.next := by
  have hinj : Set.InjOn pool.frameAt (Finset.range pool.next) := by
    intro i hi j hj heq
    rw [Finset.mem_coe, Finset.mem_range] at hi hj
    exact frameAt_inj hvalid (Nat.lt_of_lt_of_le hi hvalid.next_le)
      (Nat.lt_of_lt_of_le hj hvalid.next_le) heq
  rw [hrecorded.handedOut_eq, Finset.card_image_of_injOn hinj,
    Finset.card_range]

end Recorded

end FramePool

end FourLevelPaging
