/-
Which frames a pool makes of a region.  They are the whole frames that lie in
the region, as many as there is room for; a pool that starts over with them is a
fresh one, in arrays as well, and a region that is refused leaves the pool as it
was.
-/
import FourLevelPaging.Proofs.Checked.FramePool.Call
import FourLevelPaging.Proofs.FramePool.Moves
import Mathlib.Algebra.Order.Floor.Div

namespace FourLevelPaging.FramePool

/-- How many whole frames lie in a region, as far as a pool of `limit` frames
has room for them. -/
def wholeFrames (limit : Nat) (base : PhysAddr) (size : Word) : Nat :=
  min limit ((base.toNat + size.toNat) / PageSize.fourK.bytes -
    base.toNat ⌈/⌉ PageSize.fourK.bytes)

/-- Where the frame at a position in the region from `base` on starts. -/
def frameStart (base : PhysAddr) (k : Nat) : Nat :=
  (base.toNat ⌈/⌉ PageSize.fourK.bytes + k) * PageSize.fourK.bytes

/-- The pool has the first `count` frames of a region, all of them still to be
handed out. -/
structure Carved (pool : FramePool) (base : PhysAddr) (size : Word)
    (count : Nat) : Prop where
  capacity_eq : pool.capacity = count
  freeCount_eq : pool.freeCount = count
  allocatedCount_eq : pool.allocatedCount = 0
  inside : ∀ k < count, base.toNat ≤ frameStart base k ∧
    frameStart base (k + 1) ≤ base.toNat + size.toNat
  contains_iff : ∀ pa, pool.contains pa = true ↔
    ∃ k < count, frameStart base k ≤ pa.toNat ∧
      pa.toNat < frameStart base (k + 1)
  /-- Allocations without a free between them return the frames in order, and
  then fail. -/
  handsOut : ∀ requests : List Call,
    (∀ request ∈ requests, request = .allocate ∨ request = .take) →
      requests.length = count →
      (Outcome.history call pool requests).map (fun done =>
            done.value.returned?.map fun frame => frame.base.toNat) =
          (List.range count).map (fun k => some (frameStart base k)) ∧
        (Outcome.after call pool requests).allocate = .error .outOfMemory ∧
        (Outcome.after call pool requests).take? = none

section Region

variable {base : PhysAddr} {size : Word}

theorem ceilDiv_fourK (base : PhysAddr) :
    base.toNat ⌈/⌉ PageSize.fourK.bytes = (base.toNat + 4095) / 4096 :=
  Nat.ceilDiv_eq_add_pred_div _ _

theorem regionStart_add (base : PhysAddr) (k : Nat) :
    regionStart base + k * PageSize.fourK.bytes = frameStart base k := by
  rw [frameStart, Nat.add_mul, ceilDiv_fourK]
  rfl

theorem min_regionFrames (limit : Nat) (base : PhysAddr) (size : Word) :
    min (regionFrames base size) limit = wholeFrames limit base size := by
  have hbytes : PageSize.fourK.bytes = 4096 := rfl
  rw [wholeFrames, ceilDiv_fourK, regionFrames, regionStart, hbytes,
    Nat.min_comm]
  congr 1
  omega

/-- The frames of a region end inside it. -/
theorem frameStart_le {limit k : Nat} (hk : k < wholeFrames limit base size) :
    base.toNat ≤ frameStart base k ∧
      frameStart base (k + 1) ≤ base.toNat + size.toNat := by
  have hbytes : PageSize.fourK.bytes = 4096 := rfl
  rw [wholeFrames, ceilDiv_fourK, hbytes] at hk
  rw [frameStart, frameStart, ceilDiv_fourK, hbytes]
  omega

end Region

section Allocations

variable {pool : FramePool}

theorem call_of_unused (hfreed : pool.freed = [])
    (hlt : pool.next < pool.frames) {request : Call}
    (hrequest : request = .allocate ∨ request = .take) :
    (pool.call request).value.returned? = some (pool.frameAt pool.next) ∧
      (pool.call request).state = { pool with next := pool.next + 1 } := by
  have htaken : pool.allocate =
      .ok (pool.frameAt pool.next, { pool with next := pool.next + 1 }) := by
    simp only [allocate, hfreed, if_pos hlt]
  rcases hrequest with rfl | rfl
  · simp only [call, htaken]
    exact ⟨rfl, rfl⟩
  · simp only [call, take?, htaken]
    exact ⟨rfl, rfl⟩

/-- While no frame is kept for reuse, the frames come out as they lie in the
region. -/
theorem history_of_unused (hfreed : pool.freed = []) {requests : List Call}
    (hrequests : ∀ request ∈ requests, request = .allocate ∨ request = .take)
    (hroom : pool.next + requests.length ≤ pool.frames) :
    (Outcome.history call pool requests).map (fun done =>
          done.value.returned?) =
        (List.range' pool.next requests.length).map (fun k =>
          some (pool.frameAt k)) ∧
      Outcome.after call pool requests =
        { pool with next := pool.next + requests.length } := by
  induction requests generalizing pool with
  | nil => exact ⟨rfl, rfl⟩
  | cons request rest ih =>
      rw [List.length_cons] at hroom
      obtain ⟨hreturned, hstate⟩ := call_of_unused hfreed (by omega)
        (hrequests request List.mem_cons_self)
      obtain ⟨hrest, hafter⟩ := @ih { pool with next := pool.next + 1 } hfreed
        (fun other hother =>
          hrequests other (List.mem_cons_of_mem request hother))
        (by simp only; omega)
      simp only [Outcome.history, Outcome.after, List.map_cons, hstate,
        hreturned, hrest, hafter, List.length_cons, List.range'_succ]
      refine ⟨rfl, ?_⟩
      rw [Nat.add_right_comm, Nat.add_assoc]

theorem limit_drainUpTo (hvalid : pool.Valid) (count : Nat) :
    (drainUpTo count pool).2.2.limit = pool.limit := by
  induction count generalizing pool with
  | zero => rfl
  | succ count ih =>
      unfold drainUpTo
      split
      · rfl
      · next frame pool' htaken =>
          have htook := took_of_allocate hvalid htaken
          exact (ih htook.valid).trans htook.region.limit_eq

/-- How many frames a pool has room for never changes. -/
theorem limit_call (hvalid : pool.Valid) (request : Call) :
    (pool.call request).state.limit = pool.limit := by
  by_cases htrades : request.trades = true
  · exact (traded_call hvalid htrades).region.limit_eq
  cases request with
  | carve base size frameSize =>
      simp only [call]
      split
      · next pool' hcarved =>
          obtain ⟨-, -, -, rfl⟩ := carve_eq_ok hcarved
          rfl
      · rfl
  | drain => exact limit_drainUpTo hvalid _
  | contains pa => rfl
  | allocate | take | free | freeAddress | giveBack => exact absurd rfl htrades

theorem limit_after (hvalid : pool.Valid) (calls : List Call) :
    (Outcome.after call pool calls).limit = pool.limit := by
  induction calls generalizing pool with
  | nil => rfl
  | cons request rest ih =>
      exact (ih (valid_call hvalid request)).trans (limit_call hvalid request)

end Allocations

section Carve

variable {limit count : Nat} {pool pool' : FramePool} {base : PhysAddr}
  {size frameSize : Word}

/-- What a pool held before does not show in what it makes of a region. -/
theorem carve_eq_ofRegion (pool : FramePool) (base : PhysAddr)
    (size frameSize : Word) :
    pool.carve base size frameSize =
      ofRegion pool.limit base size frameSize := by
  rw [ofRegion, carve, carve, unset]

/-- A region is accepted if it holds a whole frame; then it does not wrap
around. -/
theorem carve_cases (pool : FramePool) (hlimit : pool.limit = limit)
    (base : PhysAddr) (size frameSize : Word) :
    ((frameSize.toNat = PageSize.fourK.bytes ∧
          base.toNat + size.toNat < 2 ^ 64 ∧
          0 < wholeFrames limit base size) ∧
        ∃ pool', pool.carve base size frameSize = .ok pool') ∨
      ¬(frameSize.toNat = PageSize.fourK.bytes ∧
          base.toNat + size.toNat < 2 ^ 64 ∧
          0 < wholeFrames limit base size) ∧
        pool.carve base size frameSize =
          .error (if frameSize.toNat = PageSize.fourK.bytes then
            .emptyPool base size else .unsupportedFrameSize frameSize) := by
  have hbytes : PageSize.fourK.bytes = 4096 := rfl
  have hcount := min_regionFrames limit base size
  by_cases hsize : frameSize.toNat = PageSize.fourK.bytes
  · by_cases hend : 2 ^ 64 ≤ base.toNat + size.toNat
    · refine Or.inr ⟨fun h => Nat.not_le.2 h.2.1 hend, ?_⟩
      simp only [carve, hsize, hend, ne_eq, not_true_eq_false, ↓reduceIte]
    by_cases hnone : wholeFrames limit base size = 0
    · refine Or.inr ⟨fun h => Nat.ne_of_gt h.2.2 hnone, ?_⟩
      simp only [carve, hsize, hend, hlimit, hcount, hnone, ne_eq,
        not_true_eq_false, ↓reduceIte, ite_self]
    · refine Or.inl ⟨⟨hsize, Nat.lt_of_not_le hend, Nat.pos_of_ne_zero hnone⟩,
        ?_⟩
      have hstart : ¬2 ^ 64 ≤ base.toNat + (PageSize.fourK.bytes - 1) := by
        have hinside := (frameStart_le (Nat.pos_of_ne_zero hnone)).2
        rw [frameStart, ceilDiv_fourK] at hinside
        rw [hbytes] at hinside ⊢
        omega
      simp only [carve, hsize, hend, hstart, hlimit, hcount, hnone, ne_eq,
        not_true_eq_false, ↓reduceIte, Except.ok.injEq, exists_eq']
  · refine Or.inr ⟨fun h => hsize h.1, ?_⟩
    simp only [carve, hsize, ne_eq, not_false_eq_true, ↓reduceIte]

theorem carved_of_carve (hlimit : pool.limit = limit)
    (hcount : wholeFrames limit base size = count)
    (hcarved : pool.carve base size frameSize = .ok pool') :
    pool'.Carved base size count := by
  have hbytes : PageSize.fourK.bytes = 4096 := rfl
  have hvalid := valid_carve hcarved
  have hfirst := toNat_first_of_carve hcarved
  obtain ⟨-, -, -, heq⟩ := carve_eq_ok hcarved
  rw [hlimit, min_regionFrames, hcount] at heq
  have hframes : pool'.frames = count := by rw [heq]
  have hnext : pool'.next = 0 := by rw [heq]
  have hfreed : pool'.freed = [] := by rw [heq]
  refine ⟨hframes, ?_, ?_, fun k hk => frameStart_le (hcount.symm ▸ hk),
    fun pa => ?_, ?_⟩
  · rw [freeCount, hframes, hnext, hfreed]
    rfl
  · rw [allocatedCount, hnext, hfreed]
    rfl
  · simp only [contains, Bool.and_eq_true, decide_eq_true_eq, hframes, hfirst,
      ← regionStart_add, hbytes]
    constructor
    · rintro ⟨hle, hlt⟩
      exact ⟨_, hlt, by omega, by omega⟩
    · rintro ⟨k, hk, hle, hlt⟩
      omega
  · intro requests hrequests hlength
    obtain ⟨hhistory, hafter⟩ := history_of_unused hfreed hrequests (by omega)
    have hspent : (Outcome.after call pool' requests).allocate =
        .error .outOfMemory := by
      have hle : ¬pool'.next + requests.length < pool'.frames := by omega
      simp only [hafter, allocate, hfreed, if_neg hle]
    refine ⟨?_, hspent, by rw [take?, hspent]⟩
    have hstarts : ∀ k < count,
        (pool'.frameAt k).base.toNat = frameStart base k := by
      intro k hk
      rw [toNat_frameAt hvalid (hframes ▸ hk), hfirst, regionStart_add]
    have hmap := congrArg
      (List.map (Option.map fun frame : Frame => frame.base.toNat)) hhistory
    rw [List.map_map, List.map_map, hnext, hlength, ← List.range_eq_range']
      at hmap
    refine hmap.trans (List.map_congr_left fun k hk => ?_)
    exact congrArg some (hstarts k (List.mem_range.1 hk))

/-- A pool in arrays that starts over answers from then on as a fresh one,
whatever its arrays held. -/
theorem array_carve_eq_ok
    (hcarved : ofRegion limit base size frameSize = .ok pool)
    (arrays : ArrayPool limit) :
    ∃ arrays', arrays.carve base size frameSize = .ok arrays' ∧
      ∀ later, ∃ history, arrays'.run later = .ok history ∧
        history.map (Outcome.mapState ArrayPool.view) =
          Outcome.history call pool later := by
  have hview : arrays.view.carve base size frameSize = .ok pool :=
    (carve_eq_ofRegion arrays.view base size frameSize).trans hcarved
  obtain ⟨arrays', hrun, hsound, rfl⟩ := ArrayPool.carve_eq_ok arrays hview
  exact ⟨arrays', hrun, ArrayPool.run_eq_ok hsound (valid_carve hcarved)⟩

end Carve

/-- After any requests, a pool accepts a region if the frames are 4 KiB long and
the region ends inside the address range and holds a whole frame.  Then the pool
is a fresh one: it consists of the whole frames of the region, as many as it has
room for, none of them handed out, and its arrays answer as those of a fresh one
whatever they held.  Otherwise the reason is given, and the refusal shows in no
later answer. -/
theorem carving_outcome {limit count : Nat} {calls : List Call}
    {now : FramePool} {base : PhysAddr} {size frameSize : Word}
    {done : Reported FramePool Reply}
    (hnow : Outcome.after call (unset limit) calls = now)
    (hdone : now.call (.carve base size frameSize) = done)
    (hcount : wholeFrames limit base size = count) :
    (done.value = .done ↔ frameSize.toNat = PageSize.fourK.bytes ∧
        base.toNat + size.toNat < 2 ^ 64 ∧ 0 < count) ∧
      (done.value = .done →
        done.state.Carved base size count ∧
          ofRegion limit base size frameSize = .ok done.state ∧
          ∀ arrays : ArrayPool limit, ∃ arrays',
            arrays.carve base size frameSize = .ok arrays' ∧
              ∀ later, ∃ history, arrays'.run later = .ok history ∧
                history.map (Outcome.mapState ArrayPool.view) =
                  Outcome.history call done.state later) ∧
      (done.value ≠ .done →
        done.value = .refused (if frameSize.toNat = PageSize.fourK.bytes then
            .emptyPool base size else .unsupportedFrameSize frameSize) ∧
          ∀ later, Outcome.history call done.state later =
            Outcome.history call now later) := by
  have hlimit : now.limit = limit := by
    rw [← hnow]
    exact limit_after (valid_unset limit) calls
  subst hcount
  rcases carve_cases now hlimit base size frameSize with
    ⟨hfits, pool', hcarved⟩ | ⟨hunfit, hrefused⟩
  · have hdone' : done.value = .done ∧ done.state = pool' := by
      rw [← hdone]
      simp only [call, hcarved, and_self]
    have hfresh : ofRegion limit base size frameSize = .ok pool' := by
      rw [← hlimit, ← carve_eq_ofRegion]
      exact hcarved
    rw [hdone'.1, hdone'.2]
    refine ⟨iff_of_true rfl hfits, fun _ => ?_, fun hne => absurd rfl hne⟩
    exact ⟨carved_of_carve hlimit rfl hcarved, hfresh, array_carve_eq_ok hfresh⟩
  · have hdone' :
        done.value = .refused (if frameSize.toNat = PageSize.fourK.bytes then
            .emptyPool base size else .unsupportedFrameSize frameSize) ∧
          done.state = now := by
      rw [← hdone]
      simp only [call, hrefused, Outcome.quiet, and_self]
    have hne : done.value ≠ .done := by
      rw [hdone'.1]
      exact fun h => by cases h
    refine ⟨iff_of_false hne hunfit, fun h => absurd h hne,
      fun _ => ⟨hdone'.1, ?_⟩⟩
    intro later
    rw [hdone'.2]

/-- Two of four frames were handed out and one of them came back; then the pool
starts over. -/
def carvedBefore : List Call :=
  [.carve ⟨0x100000⟩ 0x4000 0x1000, .allocate, .allocate,
    .freeAddress ⟨0x100000⟩]

/-- The last whole frame below a region's end near the end of the address range
becomes the pool; without its last byte the region holds no whole frame. -/
theorem carving_outcome_near_end :
    ((Outcome.after call (unset 4) carvedBefore).call
        (.carve ⟨0xFFFFFFFFFFFFD800⟩ 0x1800 0x1000)).state.Carved
        ⟨0xFFFFFFFFFFFFD800⟩ 0x1800 1 ∧
      ((Outcome.after call (unset 4) carvedBefore).call
        (.carve ⟨0xFFFFFFFFFFFFD800⟩ 0x17FF 0x1000)).value =
          .refused (.emptyPool ⟨0xFFFFFFFFFFFFD800⟩ 0x17FF) := by
  have haccepted := @carving_outcome 4 1 carvedBefore _ ⟨0xFFFFFFFFFFFFD800⟩
    0x1800 0x1000 _ rfl rfl (by decide +kernel)
  have hrefused := @carving_outcome 4 0 carvedBefore _ ⟨0xFFFFFFFFFFFFD800⟩
    0x17FF 0x1000 _ rfl rfl (by decide +kernel)
  refine ⟨(haccepted.2.1 (haccepted.1.2 ⟨by decide, by decide, by decide⟩)).1,
    ?_⟩
  exact (hrefused.2.2 fun h => absurd (hrefused.1.1 h).2.2 (Nat.lt_irrefl 0)).1

end FourLevelPaging.FramePool
