/-
Which frames are outstanding, judged by the answers of a pool alone: those that
it returned and that were not taken back since.  They are at all times the
frames that the pool holds to be handed out, so none of them is returned a
second time.
-/
import FourLevelPaging.Proofs.FramePool.Count

namespace FourLevelPaging.FramePool

/-- The request takes a frame or hands one back. -/
def Call.trades : Call → Bool
  | .allocate => true
  | .take => true
  | .free _ => true
  | .freeAddress _ => true
  | .giveBack _ => true
  | _ => false

/-- The frame that an answer returns. -/
def Reply.returned? : Reply → Option Frame
  | .frame given => some given
  | .taken given => given
  | _ => none

/-- The frame that a request handed back, if it was accepted.  A frame that is
merely received was accepted if nothing was reported. -/
def Call.accepted? (outcome : Reported FramePool Reply) : Call → Option Frame
  | .free frame => if outcome.value = .done then some frame else none
  | .freeAddress pa =>
      if outcome.value = .done then some (.containing pa) else none
  | .giveBack frame => if outcome.events = #[] then some frame else none
  | _ => none

/-- The frames that are outstanding after a request, if those in `held` were
before. -/
def record (held : Finset Frame) (request : Call)
    (outcome : Reported FramePool Reply) : Finset Frame :=
  match outcome.value.returned? with
  | some frame => insert frame held
  | none =>
      match request.accepted? outcome with
      | some frame => held.erase frame
      | none => held

/-- The frames that are outstanding after a list of requests. -/
def outstanding (held : Finset Frame) : FramePool → List Call → Finset Frame
  | _, [] => held
  | pool, request :: rest =>
      outstanding (record held request (pool.call request))
        (pool.call request).state rest

/-- What a request that takes a frame or hands one back does to the pool, and
what its outcome shows of it. -/
inductive Traded (pool : FramePool) (request : Call)
    (outcome : Reported FramePool Reply) : Prop
  | took {frame : Frame} (hreturned : outcome.value.returned? = some frame)
      (htook : pool.Took frame outcome.state)
  | freed {frame : Frame} (hreturned : outcome.value.returned? = none)
      (haccepted : request.accepted? outcome = some frame)
      (hfreed : pool.Freed frame outcome.state)
  | kept (hreturned : outcome.value.returned? = none)
      (haccepted : request.accepted? outcome = none)
      (hkept : outcome.state = pool)

/-- What a request that takes a frame or hands one back comes to: an allocation,
a free, or nothing. -/
inductive Handled (pool : FramePool) (request : Call)
    (outcome : Reported FramePool Reply) : Prop
  | allocated {frame : Frame} (hreturned : outcome.value.returned? = some frame)
      (htaken : pool.allocate = .ok (frame, outcome.state))
  | freed {frame : Frame} (hreturned : outcome.value.returned? = none)
      (haccepted : request.accepted? outcome = some frame)
      (hfree : pool.free frame = .ok outcome.state)
  | refused (hreturned : outcome.value.returned? = none)
      (haccepted : request.accepted? outcome = none)
      (hkept : outcome.state = pool)

theorem handled_call (pool : FramePool) {request : Call}
    (htrades : request.trades = true) :
    pool.Handled request (pool.call request) := by
  cases request with
  | allocate =>
      cases htaken : pool.allocate with
      | error reason =>
          simp only [call, htaken]
          exact .refused rfl rfl rfl
      | ok taken =>
          simp only [call, htaken]
          exact .allocated rfl htaken
  | take =>
      cases htaken : pool.allocate with
      | error reason =>
          simp only [call, take?, htaken]
          exact .refused rfl rfl rfl
      | ok taken =>
          simp only [call, take?, htaken]
          exact .allocated rfl htaken
  | free frame =>
      cases hfree : pool.free frame with
      | error reason =>
          simp only [call, hfree]
          exact .refused rfl rfl rfl
      | ok pool' =>
          simp only [call, hfree]
          exact .freed rfl rfl hfree
  | freeAddress pa =>
      cases hfree : pool.freeAddress pa with
      | error reason =>
          simp only [call, hfree]
          exact .refused rfl rfl rfl
      | ok pool' =>
          simp only [call, hfree]
          exact .freed rfl rfl (free_of_freeAddress hfree)
  | giveBack frame =>
      cases hfree : pool.free frame with
      | error reason =>
          simp only [call, giveBack, hfree]
          exact .refused rfl rfl rfl
      | ok pool' =>
          simp only [call, giveBack, hfree]
          exact .freed rfl rfl hfree
  | carve | drain | contains => cases htrades

/-- A request that trades a frame returns one, takes one back or leaves the pool
alone. -/
theorem traded_call {pool : FramePool} (hvalid : pool.Valid) {request : Call}
    (htrades : request.trades = true) :
    pool.Traded request (pool.call request) := by
  cases handled_call pool htrades with
  | allocated hreturned htaken =>
      exact .took hreturned (took_of_allocate hvalid htaken)
  | freed hreturned haccepted hfree =>
      exact .freed hreturned haccepted (freed_of_free hvalid hfree)
  | refused hreturned haccepted hkept => exact .kept hreturned haccepted hkept

/-- The answer to a request tells which frames are handed out after it. -/
theorem record_of_traded {pool : FramePool} {request : Call}
    {outcome : Reported FramePool Reply}
    (htraded : pool.Traded request outcome) :
    record pool.allocated request outcome = outcome.state.allocated := by
  cases htraded with
  | took hreturned htook => simp only [record, hreturned, htook.allocated_eq]
  | freed hreturned haccepted hfreed =>
      simp only [record, hreturned, haccepted, hfreed.allocated_eq]
  | kept hreturned haccepted hkept =>
      simp only [record, hreturned, haccepted, hkept]

theorem Traded.region {pool : FramePool} {request : Call}
    {outcome : Reported FramePool Reply}
    (htraded : pool.Traded request outcome) :
    pool.SameRegion outcome.state := by
  cases htraded with
  | took _ htook => exact htook.region
  | freed _ _ hfreed => exact hfreed.region
  | kept _ _ hkept => exact hkept ▸ .refl pool

/-- The answers to a list of requests tell which frames are handed out in the
end. -/
theorem outstanding_eq {pool : FramePool} (hvalid : pool.Valid)
    {calls : List Call} (htrades : ∀ request ∈ calls, request.trades = true) :
    outstanding pool.allocated pool calls =
        (Outcome.after call pool calls).allocated ∧
      pool.SameRegion (Outcome.after call pool calls) := by
  induction calls generalizing pool with
  | nil => exact ⟨rfl, .refl pool⟩
  | cons request rest ih =>
      have htraded := traded_call hvalid (htrades request List.mem_cons_self)
      obtain ⟨hrest, hregion⟩ := ih (valid_call hvalid request)
        fun other hother => htrades other (List.mem_cons_of_mem request hother)
      rw [outstanding, record_of_traded htraded]
      exact ⟨hrest, htraded.region.trans hregion⟩

/-- A frame can be had exactly if not all are handed out. -/
theorem exhausted_iff {pool : FramePool} (hvalid : pool.Valid) :
    pool.take? = none ↔ pool.allocated.card = pool.capacity := by
  have hcount := freeCount_add_allocatedCount hvalid
  rw [take?_eq_none_iff hvalid, card_allocated hvalid]
  omega

theorem allocate_eq_error_iff {pool : FramePool} :
    (∃ reason, pool.allocate = .error reason) ↔ pool.take? = none := by
  unfold take?
  cases pool.allocate with
  | error reason => simp
  | ok taken => simp

/-- Where the frames of a region lie. -/
theorem frameAt_mem_region {limit : Nat} {base : PhysAddr}
    {size frameSize : Word} {pool : FramePool}
    (hcarved : ofRegion limit base size frameSize = .ok pool) {i : Nat}
    (hi : i < pool.frames) :
    (pool.frameAt i).base.toNat = regionStart base + i * PageSize.fourK.bytes ∧
      base.toNat ≤ (pool.frameAt i).base.toNat ∧
      (pool.frameAt i).base.toNat + PageSize.fourK.bytes ≤
        base.toNat + size.toNat := by
  have hend := carve_end hcarved
  have hlies := toNat_frameAt (valid_carve hcarved) hi
  have hfirst := toNat_first_of_carve hcarved
  have hbytes : PageSize.fourK.bytes = 4096 := rfl
  have hle : base.toNat ≤ regionStart base := by
    rw [regionStart, hbytes]
    omega
  rw [hfirst, hbytes] at hend hlies
  rw [hlies, hbytes]
  omega

/-- No frame is handed out in a region that was just carved. -/
theorem allocated_of_ofRegion {limit : Nat} {base : PhysAddr}
    {size frameSize : Word} {pool : FramePool}
    (hcarved : ofRegion limit base size frameSize = .ok pool) :
    pool.allocated = ∅ := by
  obtain ⟨-, -, -, rfl⟩ := carve_eq_ok hcarved
  rfl

/-- After any requests, the frames that a pool returns next are frames of its
region that are not outstanding; there is one unless all are outstanding, and
the two counts agree with the answers given so far. -/
theorem outstanding_not_returned {limit : Nat} {base : PhysAddr}
    {size frameSize : Word} {pool now : FramePool} {calls : List Call}
    {out : Finset Frame}
    (hcarved : ofRegion limit base size frameSize = .ok pool)
    (htrades : ∀ request ∈ calls, request.trades = true)
    (hnow : Outcome.after call pool calls = now)
    (hout : outstanding ∅ pool calls = out) :
    (∀ request frame, request.trades = true →
        (now.call request).value.returned? = some frame →
        frame ∉ out ∧ frame.base.toNat % PageSize.fourK.bytes = 0 ∧
          (∃ i < now.capacity,
            frame.base.toNat = regionStart base + i * PageSize.fourK.bytes) ∧
          base.toNat ≤ frame.base.toNat ∧
          frame.base.toNat + PageSize.fourK.bytes ≤ base.toNat + size.toNat) ∧
      ((∃ reason, now.allocate = .error reason) ↔ out.card = now.capacity) ∧
      (now.take? = none ↔ out.card = now.capacity) ∧
      now.allocatedCount = out.card ∧
      now.freeCount + now.allocatedCount = now.capacity ∧
      now.freed.length ≤ now.next ∧ now.next ≤ now.frames ∧
      now.capacity = pool.capacity := by
  have hvalid := valid_carve hcarved
  obtain ⟨hallocated, hregion⟩ := outstanding_eq hvalid htrades
  have hvalid' := valid_after hvalid calls
  rw [allocated_of_ofRegion hcarved, hout, hnow] at hallocated
  rw [hnow] at hregion hvalid'
  have hexhausted := exhausted_iff hvalid'
  rw [← hallocated] at hexhausted
  refine ⟨?_, allocate_eq_error_iff.trans hexhausted, hexhausted, ?_,
    freeCount_add_allocatedCount hvalid', length_freed_le hvalid',
    hvalid'.next_le, hregion.frames_eq⟩
  · intro request frame hrequest hreturned
    cases traded_call hvalid' hrequest with
    | freed hnone => cases hnone.symm.trans hreturned
    | kept hnone => cases hnone.symm.trans hreturned
    | @took other hsome htook =>
        obtain rfl := Option.some.inj (hsome.symm.trans hreturned)
        obtain ⟨i, hi, rfl⟩ := htook.inside
        have hi' : i < pool.frames := hregion.frames_eq ▸ hi
        obtain ⟨hlies, hlow, hhigh⟩ := frameAt_mem_region hcarved hi'
        rw [← hregion.frameAt_eq] at hlies hlow hhigh
        exact ⟨hallocated ▸ htook.fresh,
          Address.isAligned_iff.1 (Page.aligned _), ⟨i, hi, hlies⟩, hlow, hhigh⟩
  · rw [hallocated, card_allocated hvalid']

/-- Three frames are taken and two of them handed back, one of these twice. -/
def smallTrades : List Call :=
  [.allocate, .take, .allocate, .freeAddress ⟨0x100000⟩,
    .free (.containing ⟨0x100000⟩), .giveBack (.containing ⟨0x102000⟩)]

/-- One frame is still outstanding, and the one that came back last is returned
next. -/
theorem outstanding_not_returned_small :
    outstanding ∅ small smallTrades = {.containing ⟨0x101000⟩} ∧
      ((Outcome.after call small smallTrades).call .allocate).value =
        .frame (.containing ⟨0x102000⟩) ∧
      .containing ⟨0x102000⟩ ∉ outstanding ∅ small smallTrades ∧
      (Outcome.after call small smallTrades).allocatedCount =
        (outstanding ∅ small smallTrades).card := by
  have hreturned :
      ((Outcome.after call small smallTrades).call .allocate).value =
        .frame (.containing ⟨0x102000⟩) := by
    decide +kernel
  have htrades : ∀ request ∈ smallTrades, request.trades = true := by decide
  obtain ⟨hnext, -, -, hcount, -⟩ :=
    outstanding_not_returned ofRegion_small htrades rfl rfl
  exact ⟨by decide +kernel, hreturned,
    (hnext .allocate (.containing ⟨0x102000⟩) rfl (by rw [hreturned]; rfl)).1,
    hcount⟩

end FourLevelPaging.FramePool
