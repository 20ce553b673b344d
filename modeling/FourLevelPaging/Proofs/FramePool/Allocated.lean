/-
Which frames of a pool are handed out.  As long as the counters of the pool fit
together, an allocation adds one frame that was not handed out before, a free
takes one away, and a frame that is handed out is never refused.
-/
import FourLevelPaging.FramePool.Call
import Mathlib.Data.Finset.Card
import Mathlib.Data.Finset.Image

namespace FourLevelPaging

/-- Every frame that was handed back was accepted. -/
def AllAccepted (events : Array Event) : Prop :=
  ∀ reason, Event.freeIgnored reason ∉ events

namespace AllAccepted

theorem empty : AllAccepted #[] := by
  intro reason
  simp

theorem append {first second : Array Event} (hfirst : AllAccepted first)
    (hsecond : AllAccepted second) : AllAccepted (first ++ second) := by
  intro reason
  rw [Array.mem_append, not_or]
  exact ⟨hfirst reason, hsecond reason⟩

theorem push {events : Array Event} (hevents : AllAccepted events)
    {event : Event} (hevent : ∀ reason, event ≠ .freeIgnored reason) :
    AllAccepted (events.push event) := by
  intro reason
  rw [Array.mem_push, not_or]
  exact ⟨hevents reason, fun heq => hevent reason heq.symm⟩

theorem singleton {event : Event}
    (hevent : ∀ reason, event ≠ .freeIgnored reason) : AllAccepted #[event] :=
  empty.push hevent

end AllAccepted

namespace FramePool

/-- The counters of a pool fit together, and its frames end inside the address
range. -/
structure Valid (pool : FramePool) : Prop where
  next_le : pool.next ≤ pool.frames
  frames_le : pool.frames ≤ pool.limit
  freed_lt : ∀ i ∈ pool.freed, i < pool.next
  freed_nodup : pool.freed.Nodup
  in_range : pool.first.base.toNat + pool.frames * PageSize.fourK.bytes ≤ 2 ^ 64

/-- The frames that are handed out. -/
def allocated (pool : FramePool) : Finset Frame :=
  ((Finset.range pool.next).filter (· ∉ pool.freed)).image pool.frameAt

/-- Every frame of the pool lies below `bound`. -/
def Below (pool : FramePool) (bound : Nat) : Prop :=
  ∀ i < pool.frames, (pool.frameAt i).base.toNat < bound

/-- Both pools consist of the same frames. -/
structure SameRegion (pool other : FramePool) : Prop where
  first_eq : other.first = pool.first
  frames_eq : other.frames = pool.frames
  limit_eq : other.limit = pool.limit

/-- A pool that some requests can lead to. -/
def Reachable (pool : FramePool) : Prop :=
  ∃ limit calls, Outcome.after call (unset limit) calls = pool

theorem mem_allocated {pool : FramePool} {frame : Frame} :
    frame ∈ pool.allocated ↔
      ∃ i < pool.next, i ∉ pool.freed ∧ pool.frameAt i = frame := by
  simp [allocated, and_assoc]

namespace SameRegion

theorem refl (pool : FramePool) : pool.SameRegion pool := ⟨rfl, rfl, rfl⟩

theorem symm {pool other : FramePool} (h : pool.SameRegion other) :
    other.SameRegion pool :=
  ⟨h.first_eq.symm, h.frames_eq.symm, h.limit_eq.symm⟩

theorem trans {first second third : FramePool} (h₁ : first.SameRegion second)
    (h₂ : second.SameRegion third) : first.SameRegion third :=
  ⟨h₂.first_eq.trans h₁.first_eq, h₂.frames_eq.trans h₁.frames_eq,
    h₂.limit_eq.trans h₁.limit_eq⟩

theorem frameAt_eq {pool other : FramePool} (hregion : pool.SameRegion other)
    (i : Nat) : other.frameAt i = pool.frameAt i := by
  simp [frameAt, hregion.first_eq]

theorem below {pool other : FramePool} (hregion : pool.SameRegion other)
    {bound : Nat} (hlow : pool.Below bound) : other.Below bound := by
  intro i hi
  rw [hregion.frames_eq] at hi
  rw [hregion.frameAt_eq]
  exact hlow i hi

end SameRegion

theorem toNat_frameAt {pool : FramePool} (hvalid : pool.Valid) {i : Nat}
    (hi : i < pool.frames) :
    (pool.frameAt i).base.toNat =
      pool.first.base.toNat + i * PageSize.fourK.bytes := by
  have hbytes : PageSize.fourK.bytes = 4096 := rfl
  have hrange := hvalid.in_range
  have haligned := Address.isAligned_iff.1 pool.first.aligned
  rw [hbytes] at hrange haligned ⊢
  have hlt : pool.first.base.toNat + i * 4096 < 2 ^ 64 := by omega
  rw [frameAt, Page.toNat_base_containing, hbytes,
    Address.toNat_ofNat_of_lt hlt]
  omega

theorem frameAt_inj {pool : FramePool} (hvalid : pool.Valid) {i j : Nat}
    (hi : i < pool.frames) (hj : j < pool.frames)
    (heq : pool.frameAt i = pool.frameAt j) : i = j := by
  have hbytes : PageSize.fourK.bytes = 4096 := rfl
  have hsame := congrArg (fun frame : Frame => frame.base.toNat) heq
  simp only [toNat_frameAt hvalid hi, toNat_frameAt hvalid hj, hbytes] at hsame
  omega

theorem frameAt_mem_allocated {pool : FramePool} (hvalid : pool.Valid) {i : Nat}
    (hi : i < pool.frames) :
    pool.frameAt i ∈ pool.allocated ↔ i < pool.next ∧ i ∉ pool.freed := by
  rw [mem_allocated]
  constructor
  · intro hout
    rcases hout with ⟨j, hj, hout, heq⟩
    have hji : j = i :=
      frameAt_inj hvalid (Nat.lt_of_lt_of_le hj hvalid.next_le) hi heq
    subst j
    exact ⟨hj, hout⟩
  · intro hout
    rcases hout with ⟨hlt, hout⟩
    exact ⟨i, hlt, hout, rfl⟩

theorem index_frameAt {pool : FramePool} (hvalid : pool.Valid) {i : Nat}
    (hi : i < pool.frames) :
    ((pool.frameAt i).base.toNat - pool.first.base.toNat) /
      PageSize.fourK.bytes = i := by
  have hbytes : PageSize.fourK.bytes = 4096 := rfl
  rw [toNat_frameAt hvalid hi, hbytes]
  omega

theorem contains_frameAt {pool : FramePool} (hvalid : pool.Valid) {i : Nat}
    (hi : i < pool.frames) : pool.contains (pool.frameAt i).base = true := by
  have hle : pool.first.base.toNat ≤ (pool.frameAt i).base.toNat := by
    rw [toNat_frameAt hvalid hi]
    exact Nat.le_add_right _ _
  simp [contains, index_frameAt hvalid hi, hle, hi]

theorem indexOf?_frameAt {pool : FramePool} (hvalid : pool.Valid) {i : Nat}
    (hi : i < pool.frames) : pool.indexOf? (pool.frameAt i).base = some i := by
  simp [indexOf?, contains_frameAt hvalid hi, (pool.frameAt i).aligned,
    index_frameAt hvalid hi]

theorem frameAt_of_indexOf? {pool : FramePool} (hvalid : pool.Valid)
    {frame : Frame} {i : Nat} (hindex : pool.indexOf? frame.base = some i) :
    i < pool.frames ∧ pool.frameAt i = frame := by
  have hbytes : PageSize.fourK.bytes = 4096 := rfl
  simp only [indexOf?, contains, Bool.and_eq_true, decide_eq_true_eq,
    Option.ite_none_right_eq_some, Option.some.injEq] at hindex
  rcases hindex with ⟨⟨⟨hle, hlt⟩, -⟩, heq⟩
  rw [heq] at hlt
  refine ⟨hlt, Page.ext (Address.toNat_inj.1 ?_)⟩
  have hfirst := Address.isAligned_iff.1 pool.first.aligned
  have hframe := Address.isAligned_iff.1 frame.aligned
  rw [toNat_frameAt hvalid hlt]
  rw [hbytes] at heq hfirst hframe ⊢
  omega

theorem toFinset_freed_subset {pool : FramePool} (hvalid : pool.Valid) :
    pool.freed.toFinset ⊆ Finset.range pool.next := by
  intro i hi
  exact Finset.mem_range.2 (hvalid.freed_lt i (List.mem_toFinset.1 hi))

theorem card_allocated {pool : FramePool} (hvalid : pool.Valid) :
    pool.allocated.card = pool.allocatedCount := by
  have hinj : Set.InjOn pool.frameAt
      ((Finset.range pool.next).filter (· ∉ pool.freed)) := by
    intro i hi j hj heq
    simp only [Finset.coe_filter, Finset.mem_range, Set.mem_ofPred_eq] at hi hj
    exact frameAt_inj hvalid (Nat.lt_of_lt_of_le hi.1 hvalid.next_le)
      (Nat.lt_of_lt_of_le hj.1 hvalid.next_le) heq
  have hfilter : (Finset.range pool.next).filter (· ∉ pool.freed) =
      Finset.range pool.next \ pool.freed.toFinset := by
    ext i
    simp
  rw [allocated, Finset.card_image_of_injOn hinj, hfilter,
    Finset.card_sdiff_of_subset (toFinset_freed_subset hvalid),
    Finset.card_range, List.toFinset_card_of_nodup hvalid.freed_nodup,
    allocatedCount]

/-- What an allocation does: `frame` joins the frames that are handed out. -/
structure Took (pool : FramePool) (frame : Frame) (pool' : FramePool) :
    Prop where
  valid : pool'.Valid
  region : pool.SameRegion pool'
  fresh : frame ∉ pool.allocated
  allocated_eq : pool'.allocated = insert frame pool.allocated
  inside : ∃ i < pool.frames, pool.frameAt i = frame

theorem Took.low {pool pool' : FramePool} {frame : Frame}
    (htook : pool.Took frame pool') {bound : Nat} (hlow : pool.Below bound) :
    frame.base.toNat < bound := by
  obtain ⟨i, hi, rfl⟩ := htook.inside
  exact hlow i hi

theorem took_reused {pool : FramePool} (hvalid : pool.Valid) {i : Nat}
    {rest : List Nat} (hfreed : pool.freed = i :: rest) :
    pool.Took (pool.frameAt i) { pool with freed := rest } := by
  have hnodup := hvalid.freed_nodup
  rw [hfreed, List.nodup_cons] at hnodup
  have hi : i < pool.next := hvalid.freed_lt i (by simp [hfreed])
  have hi' : i < pool.frames := Nat.lt_of_lt_of_le hi hvalid.next_le
  refine ⟨⟨hvalid.next_le, hvalid.frames_le, ?_, hnodup.2, hvalid.in_range⟩,
    ⟨rfl, rfl, rfl⟩, ?_, ?_, i, hi', rfl⟩
  · intro j hj
    exact hvalid.freed_lt j (by simp [hfreed, hj])
  · rw [frameAt_mem_allocated hvalid hi']
    simp [hfreed]
  · ext frame
    rw [Finset.mem_insert, mem_allocated, mem_allocated]
    constructor
    · intro hmem
      rcases hmem with ⟨j, hj, hout, rfl⟩
      by_cases hji : j = i
      · exact Or.inl (by rw [hji]; rfl)
      · exact Or.inr ⟨j, hj, by simp [hfreed, hji, hout], rfl⟩
    · intro hmem
      rcases hmem with rfl | ⟨j, hj, hout, rfl⟩
      · exact ⟨i, hi, hnodup.1, rfl⟩
      · rw [hfreed, List.mem_cons, not_or] at hout
        exact ⟨j, hj, hout.2, rfl⟩

theorem took_next {pool : FramePool} (hvalid : pool.Valid)
    (hlt : pool.next < pool.frames) :
    pool.Took (pool.frameAt pool.next) { pool with next := pool.next + 1 } := by
  refine ⟨⟨hlt, hvalid.frames_le, ?_, hvalid.freed_nodup, hvalid.in_range⟩,
    ⟨rfl, rfl, rfl⟩, ?_, ?_, pool.next, hlt, rfl⟩
  · intro j hj
    exact Nat.lt_succ_of_lt (hvalid.freed_lt j hj)
  · rw [frameAt_mem_allocated hvalid hlt]
    simp
  · ext frame
    rw [Finset.mem_insert, mem_allocated, mem_allocated]
    constructor
    · intro hmem
      rcases hmem with ⟨j, hj, hout, rfl⟩
      by_cases hjn : j = pool.next
      · exact Or.inl (by rw [hjn]; rfl)
      · exact Or.inr ⟨j, Nat.lt_of_le_of_ne (Nat.le_of_lt_succ hj) hjn, hout,
          rfl⟩
    · intro hmem
      rcases hmem with rfl | ⟨j, hj, hout, rfl⟩
      · refine ⟨pool.next, Nat.lt_succ_self _, ?_, rfl⟩
        exact fun hmem => Nat.lt_irrefl _ (hvalid.freed_lt _ hmem)
      · exact ⟨j, Nat.lt_succ_of_lt hj, hout, rfl⟩

/-- An allocation hands out the frame that came back last, or the next one never
used. -/
theorem allocate_cases {pool pool' : FramePool} {frame : Frame}
    (htaken : pool.allocate = .ok (frame, pool')) :
    (∃ i rest, pool.freed = i :: rest ∧ frame = pool.frameAt i ∧
      pool' = { pool with freed := rest }) ∨
    pool.freed = [] ∧ pool.next < pool.frames ∧ frame = pool.frameAt pool.next ∧
      pool' = { pool with next := pool.next + 1 } := by
  cases hfreed : pool.freed with
  | cons i rest =>
      simp only [allocate, hfreed, Except.ok.injEq, Prod.mk.injEq] at htaken
      exact Or.inl ⟨i, rest, rfl, htaken.1.symm, htaken.2.symm⟩
  | nil =>
      by_cases hlt : pool.next < pool.frames
      · simp only [allocate, hfreed, hlt, ↓reduceIte, Except.ok.injEq,
          Prod.mk.injEq] at htaken
        exact Or.inr ⟨rfl, hlt, htaken.1.symm, htaken.2.symm⟩
      · simp [allocate, hfreed, hlt] at htaken

theorem took_of_allocate {pool pool' : FramePool} {frame : Frame}
    (hvalid : pool.Valid) (htaken : pool.allocate = .ok (frame, pool')) :
    pool.Took frame pool' := by
  rcases allocate_cases htaken with
    ⟨i, rest, hfreed, rfl, rfl⟩ | ⟨-, hlt, rfl, rfl⟩
  · exact took_reused hvalid hfreed
  · exact took_next hvalid hlt

theorem took_of_take? {pool pool' : FramePool} {frame : Frame}
    (hvalid : pool.Valid) (htaken : pool.take? = some (frame, pool')) :
    pool.Took frame pool' := by
  unfold take? at htaken
  split at htaken
  · next taken heq =>
      cases htaken
      exact took_of_allocate hvalid heq
  · cases htaken

/-- What a free does: `frame` leaves the frames that are handed out. -/
structure Freed (pool : FramePool) (frame : Frame) (pool' : FramePool) :
    Prop where
  valid : pool'.Valid
  region : pool.SameRegion pool'
  held : frame ∈ pool.allocated
  allocated_eq : pool'.allocated = pool.allocated.erase frame

theorem freed_cons {pool : FramePool} (hvalid : pool.Valid) {i : Nat}
    (hi : i < pool.next) (hout : i ∉ pool.freed) :
    pool.Freed (pool.frameAt i) { pool with freed := i :: pool.freed } := by
  have hi' : i < pool.frames := Nat.lt_of_lt_of_le hi hvalid.next_le
  refine ⟨⟨hvalid.next_le, hvalid.frames_le, ?_,
    List.nodup_cons.2 ⟨hout, hvalid.freed_nodup⟩, hvalid.in_range⟩,
    ⟨rfl, rfl, rfl⟩, (frameAt_mem_allocated hvalid hi').2 ⟨hi, hout⟩, ?_⟩
  · intro j hj
    rcases List.mem_cons.1 hj with rfl | hj
    · exact hi
    · exact hvalid.freed_lt j hj
  · ext frame
    rw [Finset.mem_erase, mem_allocated, mem_allocated]
    constructor
    · intro hmem
      rcases hmem with ⟨j, hj, hnot, rfl⟩
      rw [List.mem_cons, not_or] at hnot
      refine ⟨fun heq => hnot.1 ?_, j, hj, hnot.2, rfl⟩
      exact frameAt_inj hvalid (Nat.lt_of_lt_of_le hj hvalid.next_le) hi' heq
    · intro hmem
      rcases hmem with ⟨hne, j, hj, hnot, rfl⟩
      refine ⟨j, hj, ?_, rfl⟩
      rw [List.mem_cons, not_or]
      exact ⟨fun heq => hne (by rw [heq]), hnot⟩

/-- A free takes back a frame that is handed out. -/
theorem free_cases {pool pool' : FramePool} {frame : Frame}
    (hvalid : pool.Valid) (hfree : pool.free frame = .ok pool') :
    ∃ i < pool.next, i ∉ pool.freed ∧ frame = pool.frameAt i ∧
      pool' = { pool with freed := i :: pool.freed } := by
  unfold free at hfree
  split at hfree
  · cases hfree
  · next i hindex =>
      obtain ⟨-, rfl⟩ := frameAt_of_indexOf? hvalid hindex
      by_cases hle : pool.next ≤ i
      · simp [hle] at hfree
      · by_cases hmem : i ∈ pool.freed
        · simp [hle, hmem] at hfree
        · simp only [hle, hmem, ↓reduceIte, Except.ok.injEq] at hfree
          exact ⟨i, Nat.lt_of_not_le hle, hmem, rfl, hfree.symm⟩

theorem freed_of_free {pool pool' : FramePool} {frame : Frame}
    (hvalid : pool.Valid) (hfree : pool.free frame = .ok pool') :
    pool.Freed frame pool' := by
  obtain ⟨i, hi, hout, rfl, rfl⟩ := free_cases hvalid hfree
  exact freed_cons hvalid hi hout

/-- A base is the base of its own frame. -/
theorem freeAddress_base (pool : FramePool) (frame : Frame) :
    pool.freeAddress frame.base = pool.free frame := by
  simp only [freeAddress, Page.ofBase?, frame.aligned, ↓reduceDIte]

theorem freeAddress_of_unaligned (pool : FramePool) {pa : PhysAddr}
    (hunaligned : ¬pa.isAligned .fourK = true) :
    pool.freeAddress pa = .error (.invalidFree pa) := by
  simp only [freeAddress, Page.ofBase?, hunaligned, ↓reduceDIte,
    Bool.false_eq_true]

theorem free_of_freeAddress {pool pool' : FramePool} {pa : PhysAddr}
    (hfree : pool.freeAddress pa = .ok pool') :
    pool.free (.containing pa) = .ok pool' := by
  by_cases haligned : pa.isAligned .fourK = true
  · have hframe : Page.containing pa = (⟨pa, haligned⟩ : Frame) :=
      Page.containing_base ⟨pa, haligned⟩
    rw [hframe, ← freeAddress_base]
    exact hfree
  · rw [freeAddress_of_unaligned pool haligned] at hfree
    cases hfree

/-- A frame that is handed out is taken back, and will be the first to be used
again. -/
theorem free_eq_ok {pool : FramePool} (hvalid : pool.Valid) {frame : Frame}
    (hheld : frame ∈ pool.allocated) :
    ∃ i, pool.frameAt i = frame ∧
      pool.free frame = .ok { pool with freed := i :: pool.freed } := by
  obtain ⟨i, hi, hout, rfl⟩ := mem_allocated.1 hheld
  have hindex :=
    indexOf?_frameAt hvalid (Nat.lt_of_lt_of_le hi hvalid.next_le)
  exact ⟨i, rfl, by simp [free, hindex, Nat.not_le.2 hi, hout]⟩

theorem freed_giveBack {pool : FramePool} (hvalid : pool.Valid) {frame : Frame}
    (hheld : frame ∈ pool.allocated) :
    pool.Freed frame (pool.giveBack frame).state ∧
      (pool.giveBack frame).events = #[] := by
  obtain ⟨i, -, hfree⟩ := free_eq_ok hvalid hheld
  simp only [giveBack, hfree, Outcome.quiet]
  exact ⟨freed_of_free hvalid hfree, trivial⟩

/-- A frame that was handed back is the next to be handed out, and then the pool
is as it was. -/
theorem take?_giveBack {pool : FramePool} (hvalid : pool.Valid) {frame : Frame}
    (hheld : frame ∈ pool.allocated) :
    (pool.giveBack frame).state.take? = some (frame, pool) := by
  obtain ⟨i, rfl, hfree⟩ := free_eq_ok hvalid hheld
  simp only [giveBack, hfree, Outcome.quiet, take?, allocate]
  rfl

theorem valid_giveBack {pool : FramePool} (hvalid : pool.Valid)
    (frame : Frame) :
    (pool.giveBack frame).state.Valid := by
  unfold giveBack
  split
  · next pool' hfree => exact (freed_of_free hvalid hfree).valid
  · exact hvalid

theorem valid_unset (limit : Nat) : (unset limit).Valid := by
  refine ⟨Nat.le_refl 0, Nat.zero_le limit, ?_, List.nodup_nil, ?_⟩
  · intro i hi
    cases hi
  · simp only [unset, Nat.zero_mul, Nat.add_zero]
    exact Nat.le_of_lt (Address.toNat_lt _)

/-- What carving a region does, if the region is accepted. -/
theorem carve_eq_ok {pool pool' : FramePool} {base : PhysAddr}
    {size frameSize : Word}
    (hcarved : pool.carve base size frameSize = .ok pool') :
    base.toNat + size.toNat < 2 ^ 64 ∧ regionStart base < 2 ^ 64 ∧
      min (regionFrames base size) pool.limit ≠ 0 ∧
      pool' = { pool with
        first := .containing (.ofNat (regionStart base))
        frames := min (regionFrames base size) pool.limit
        next := 0
        freed := [] } := by
  unfold carve at hcarved
  split at hcarved
  · cases hcarved
  split at hcarved
  · cases hcarved
  split at hcarved
  · cases hcarved
  split at hcarved
  · cases hcarved
  next hend hstart hsome =>
    cases hcarved
    have hle : regionStart base ≤ base.toNat + (PageSize.fourK.bytes - 1) :=
      Nat.div_mul_le_self _ _
    exact ⟨Nat.lt_of_not_le hend,
      Nat.lt_of_le_of_lt hle (Nat.lt_of_not_le hstart), hsome, rfl⟩

theorem toNat_first_of_carve {pool pool' : FramePool} {base : PhysAddr}
    {size frameSize : Word}
    (hcarved : pool.carve base size frameSize = .ok pool') :
    pool'.first.base.toNat = regionStart base := by
  obtain ⟨-, hstart, -, rfl⟩ := carve_eq_ok hcarved
  have hmultiple : regionStart base % PageSize.fourK.bytes = 0 :=
    Nat.mul_mod_left _ _
  rw [Page.toNat_base_containing, Address.toNat_ofNat_of_lt hstart,
    Nat.div_mul_cancel (Nat.dvd_of_mod_eq_zero hmultiple)]

/-- The frames of a region end where the region ends. -/
theorem carve_end {pool pool' : FramePool} {base : PhysAddr}
    {size frameSize : Word}
    (hcarved : pool.carve base size frameSize = .ok pool') :
    pool'.first.base.toNat + pool'.frames * PageSize.fourK.bytes ≤
      base.toNat + size.toNat := by
  obtain ⟨-, -, hsome, heq⟩ := carve_eq_ok hcarved
  have hframes : pool'.frames = min (regionFrames base size) pool.limit := by
    rw [heq]
  have hbytes : PageSize.fourK.bytes = 4096 := rfl
  rw [toNat_first_of_carve hcarved, hframes]
  rw [regionFrames, hbytes] at hsome ⊢
  omega

theorem valid_carve {pool pool' : FramePool} {base : PhysAddr}
    {size frameSize : Word}
    (hcarved : pool.carve base size frameSize = .ok pool') : pool'.Valid := by
  have hlast := carve_end hcarved
  obtain ⟨hend, -, -, rfl⟩ := carve_eq_ok hcarved
  refine ⟨Nat.zero_le _, Nat.min_le_right _ _, ?_, List.nodup_nil, ?_⟩
  · intro i hi
    cases hi
  · exact Nat.le_trans hlast (Nat.le_of_lt hend)

theorem below_of_carve {pool pool' : FramePool} {base : PhysAddr}
    {size frameSize : Word}
    (hcarved : pool.carve base size frameSize = .ok pool') {bound : Nat}
    (hbound : base.toNat + size.toNat ≤ bound) : pool'.Below bound := by
  intro i hi
  have hlast := carve_end hcarved
  have hbytes : PageSize.fourK.bytes = 4096 := rfl
  rw [toNat_frameAt (valid_carve hcarved) hi]
  rw [hbytes] at hlast ⊢
  omega

theorem valid_drainUpTo {pool : FramePool} (hvalid : pool.Valid) (count : Nat) :
    (drainUpTo count pool).2.2.Valid := by
  induction count generalizing pool with
  | zero => exact hvalid
  | succ count ih =>
      unfold drainUpTo
      split
      · exact hvalid
      · next frame pool' htaken =>
          exact ih (took_of_allocate hvalid htaken).valid

theorem valid_call {pool : FramePool} (hvalid : pool.Valid) (request : Call) :
    (pool.call request).state.Valid := by
  cases request with
  | carve base size frameSize =>
      simp only [call]
      split
      · next pool' hcarved => exact valid_carve hcarved
      · exact hvalid
  | allocate =>
      simp only [call]
      split
      · next frame pool' htaken => exact (took_of_allocate hvalid htaken).valid
      · exact hvalid
  | take =>
      simp only [call]
      split
      · next frame pool' htaken => exact (took_of_take? hvalid htaken).valid
      · exact hvalid
  | drain => exact valid_drainUpTo hvalid _
  | free frame =>
      simp only [call]
      split
      · next pool' hfree => exact (freed_of_free hvalid hfree).valid
      · exact hvalid
  | freeAddress pa =>
      simp only [call]
      split
      · next pool' hfree =>
          exact (freed_of_free hvalid (free_of_freeAddress hfree)).valid
      · exact hvalid
  | giveBack frame => exact valid_giveBack hvalid frame
  | contains pa => exact hvalid

theorem valid_after {pool : FramePool} (hvalid : pool.Valid)
    (calls : List Call) :
    (Outcome.after call pool calls).Valid := by
  induction calls generalizing pool with
  | nil => exact hvalid
  | cons request rest ih => exact ih (valid_call hvalid request)

theorem Reachable.valid {pool : FramePool} (hreachable : pool.Reachable) :
    pool.Valid := by
  rcases hreachable with ⟨limit, calls, rfl⟩
  exact valid_after (valid_unset limit) calls

theorem reachable_of_ofRegion {limit : Nat} {base : PhysAddr}
    {size frameSize : Word} {pool : FramePool}
    (hcarved : ofRegion limit base size frameSize = .ok pool) :
    pool.Reachable := by
  rw [ofRegion] at hcarved
  refine ⟨limit, [.carve base size frameSize], ?_⟩
  simp only [Outcome.after, call]
  rw [hcarved]

/-- Eight frames from 1 MiB on. -/
def small : FramePool :=
  { limit := 8, first := .containing ⟨0x100000⟩, frames := 8, next := 0,
    freed := [] }

theorem ofRegion_small : ofRegion 8 ⟨0x100000⟩ 0x8000 0x1000 = .ok small := by
  decide +kernel

theorem below_small : small.Below (2 ^ 52) :=
  below_of_carve ofRegion_small (by decide)

end FramePool

end FourLevelPaging
