/-
One step along a way never leaves memory.  The node it starts from is one of the
tree, so its frame is handed out; the index has nine bits; and the frame of a
node that is added is handed out and was in no tree.
-/
import FourLevelPaging.Checked.Store
import FourLevelPaging.Proofs.Checked.FramePool
import FourLevelPaging.Proofs.Tree.Descend

namespace FourLevelPaging

open Checked

theorem Level.rawIndex_eq (level : Level) (va : VirtAddr) :
    level.rawIndex va = (level.index va).val := by
  have hmask : (0x1FF : Word).toNat = 2 ^ 9 - 1 := rfl
  rw [rawIndex, BitVec.toNat_and, hmask, Nat.and_two_pow_sub_one_eq_mod,
    BitVec.toNat_ushiftRight, Nat.shiftRight_eq_div_pow]
  rfl

namespace Entry

/-- The bits of an address that an entry has room for fit in it. -/
theorem number_lt (base : PhysAddr) :
    ((base.bits &&& addressMask) >>> 12).toNat < 2 ^ 40 := by
  have hmask : addressMask.toNat = 0xFFFFFFFFFF000 := by decide
  have hle : base.bits.toNat &&& addressMask.toNat ≤ addressMask.toNat :=
    Nat.and_le_right
  rw [BitVec.toNat_ushiftRight, BitVec.toNat_and, Nat.shiftRight_eq_div_pow]
  rw [hmask] at hle ⊢
  omega

theorem checkedLeaf_eq_ok {base : PhysAddr}
    (haligned : base.isAligned .fourK = true) (flags : Flags) :
    checkedLeaf base flags = .ok (leaf (base.page .fourK) flags) := by
  have hframe : (⟨base, haligned⟩ : Frame) = base.page .fourK :=
    (Page.containing_base ⟨base, haligned⟩).symm
  have hleaf := leafAt_frame ⟨base, haligned⟩ flags
  simp only [checkedLeaf, hleaf, hframe, if_pos (number_lt base)]

theorem checkedTable_eq_ok (frame : Frame) (flags : Flags) :
    checkedTable frame flags = .ok (table frame flags) := by
  rw [checkedTable, checkedLeaf_eq_ok frame.aligned, Address.page,
    Page.containing_base, table]

end Entry

namespace Store

variable {limit : Nat} {s : Store limit}

/-- The pool is in order. -/
def Sound (s : Store limit) : Prop := s.pool.Sound

theorem get_eq_ok (s : Store limit) (frame : Frame) (i : Index) :
    s.get frame i.val = .ok (s.view.read frame i) := by
  apply item_eq_ok
  simp [Node.get, view, Memory.read, Ram.read]

theorem put_eq_ok (s : Store limit) (frame : Frame) (i : Index) (e : Entry) :
    s.put frame i.val e = .ok { s with ram := s.ram.write frame i e } := by
  rw [put, setItem_eq_ok _ _ i.isLt]
  rfl

theorem carries_giveBack (hsound : s.Sound) (hvalid : s.view.pool.Valid)
    (frame : Frame) :
    Carries view Sound (s.giveBack frame) (s.view.giveBack frame) := by
  obtain ⟨given, hrun, hsound', hgiven⟩ :=
    ArrayPool.carries_giveBack hsound hvalid frame
  refine ⟨⟨(), { s with pool := given.state }, given.events⟩, ?_, hsound', ?_⟩
  · rw [giveBack, hrun]
    rfl
  · rw [Memory.giveBack, show s.view.pool = s.pool.view from rfl, ← hgiven]
    rfl

theorem carries_giveBackAll (hsound : s.Sound) (hvalid : s.view.pool.Valid)
    (frames : List Frame) :
    Carries view Sound (giveBackAll frames s)
      (Memory.giveBackAll frames s.view) := by
  induction frames generalizing s with
  | nil => exact ⟨_, rfl, hsound, rfl⟩
  | cons frame rest ih =>
      obtain ⟨first, hfirst, hsound', hstate⟩ :=
        carries_giveBack hsound hvalid frame
      have hvalid' : first.state.view.pool.Valid := by
        have hkept := FramePool.valid_giveBack hvalid frame
        rw [← show first.state.view.pool = (s.view.pool.giveBack frame).state
          from congrArg (fun done => done.state.pool) hstate] at hkept
        exact hkept
      obtain ⟨others, hothers, hsound'', hrest⟩ := ih hsound' hvalid'
      refine ⟨⟨(), others.state, first.events ++ others.events⟩, ?_, hsound'',
        ?_⟩
      · rw [giveBackAll, hfirst, ok_bind, hothers]
        rfl
      · rw [Memory.giveBackAll, ← hstate]
        change _ =
          Outcome.mk () (Memory.giveBackAll rest first.state.view).state
            (first.events ++ (Memory.giveBackAll rest first.state.view).events)
        rw [← hrest]
        rfl

section Node

variable {roots : List Frame} {held : Finset Frame} {root : Frame}
  {level : Level} {path : List Index} {frame : Frame}
  (hforest : Forest s.view roots held) (hroot : root ∈ roots)
  (hreach : s.ram.Reach root level path frame)

include hforest hroot hreach

theorem access_eq_ok : s.access root frame = .ok () :=
  if_pos ⟨hforest.mem_allocated_of_reach hroot hreach,
    Ram.mem_nodes_root_iff.2 ⟨level, path, hreach⟩⟩

theorem peek_eq_ok (i : Index) :
    s.peek root level frame i.val = .ok (s.ram.child level ⟨frame, i⟩) := by
  have hread : s.view.read frame i = s.ram.read frame i := rfl
  rw [peek, access_eq_ok hforest hroot hreach, ok_bind, get_eq_ok, ok_bind,
    hread, Ram.child]
  by_cases hpresent : (s.ram.read frame i).present = true
  · by_cases hleaf : level.isLeaf (s.ram.read frame i) = true
    · simp only [hpresent, hleaf, ↓reduceIte, pure_eq_ok]
    · simp only [hpresent, hleaf, Bool.false_eq_true, ↓reduceIte, pure_eq_ok]
  · simp only [hpresent, Bool.false_eq_true, ↓reduceIte, pure_eq_ok]

end Node

/-- Taking a frame for a node. -/
theorem allocate_cases (hsound : s.Sound) (hvalid : s.view.pool.Valid) :
    (∃ reason, s.pool.allocate = .ok (.error reason, s.pool) ∧
        s.view.newNode? = none) ∨
      ∃ node pool', s.pool.allocate = .ok (.ok node, pool') ∧ pool'.Sound ∧
        s.view.newNode? = some (node, view ⟨s.ram.zero node, pool'⟩) := by
  obtain ⟨taken, pool', hrun, hsound', hview, hkept⟩ :=
    ArrayPool.allocate_eq_ok hsound hvalid
  change s.view.pool.allocate = _ at hview
  cases taken with
  | error reason =>
      obtain rfl := hkept reason rfl
      refine Or.inl ⟨reason, hrun, ?_⟩
      rw [Memory.newNode?, FramePool.take?, hview]
      rfl
  | ok node =>
      refine Or.inr ⟨node, pool', hrun, hsound', ?_⟩
      rw [Memory.newNode?, FramePool.take?, hview]
      rfl

variable {roots : List Frame} {held : Finset Frame} {root : Frame}
  {level : Level} {path : List Index} {frame : Frame}

/-- A frame that was just taken can be blanked: it was in no tree. -/
theorem blank_eq_ok (hforest : Forest s.view roots held) {node : Frame}
    {pool' : ArrayPool limit}
    (hnew : s.view.newNode? = some (node, view ⟨s.ram.zero node, pool'⟩))
    {others : List Frame} (hothers : ∀ root ∈ others, root ∈ roots) :
    blank { s with pool := pool' } others node =
      .ok ⟨s.ram.zero node, pool'⟩ := by
  have htook : s.view.pool.Took node pool'.view :=
    (Memory.fetched_of_newNode? hforest.valid hnew).took
  refine if_pos ⟨?_, fun root hroot hmem => ?_⟩
  · rw [htook.allocated_eq]
    exact Finset.mem_insert_self _ _
  · exact hforest.ne_of_fresh htook.fresh (hothers root hroot)
      (Ram.mem_nodes_root_iff.1 hmem) rfl

/-- Where an entry leads to nothing, a node is added or no frame is left for
one. -/
theorem carries_link (hsound : s.Sound) (hforest : Forest s.view roots held)
    (hroot : root ∈ roots) {below : Level} (hnext : level.next = some below)
    {i : Index} (hchild : s.ram.child level ⟨frame, i⟩ = .absent)
    (flags : Flags) :
    Carries view Sound (s.link root below frame i.val flags)
      (s.view.childOrCreate level ⟨frame, i⟩ flags) := by
  have habsent : s.view.ram.child level ⟨frame, i⟩ = .absent := hchild
  rcases allocate_cases hsound hforest.valid with
    ⟨reason, hrun, hnew⟩ | ⟨node, pool', hrun, hsound', hnew⟩
  · rw [Memory.childOrCreate_of_starved hnext habsent hnew, link, hrun]
    exact ⟨_, rfl, hsound, rfl⟩
  · have hblank := blank_eq_ok hforest hnew (List.forall_mem_singleton.2 hroot)
    rw [Memory.childOrCreate_of_created hnext habsent hnew, link, hrun, ok_bind]
    dsimp only
    rw [hblank, ok_bind, Entry.checkedTable_eq_ok, ok_bind, put_eq_ok]
    exact ⟨_, rfl, hsound', rfl⟩

theorem carries_follow (hsound : s.Sound) (hforest : Forest s.view roots held)
    (hroot : root ∈ roots) (hreach : s.ram.Reach root level path frame)
    (i : Index) (flags : Flags) :
    Carries view Sound (s.follow root level frame i.val flags)
      (s.view.childOrCreate level ⟨frame, i⟩ flags) := by
  rw [follow, peek_eq_ok hforest hroot hreach, ok_bind]
  cases hchild : s.ram.child level ⟨frame, i⟩ with
  | created node => exact absurd hchild Ram.child_ne_created
  | leaf e =>
      have hfound : s.view.ram.child level ⟨frame, i⟩ = .leaf e := hchild
      rw [Memory.childOrCreate_of_leaf hfound]
      exact ⟨_, rfl, hsound, rfl⟩
  | table node =>
      have hfound : s.view.ram.child level ⟨frame, i⟩ = .table node := hchild
      simp only [Memory.childOrCreate, hfound]
      rw [get_eq_ok, ok_bind]
      split
      · rw [put_eq_ok]
        exact ⟨_, rfl, hsound, rfl⟩
      · exact ⟨_, rfl, hsound, rfl⟩
  | absent =>
      have habsent : s.view.ram.child level ⟨frame, i⟩ = .absent := hchild
      cases hnext : level.next with
      | none =>
          rw [Memory.childOrCreate_of_last hnext habsent]
          exact ⟨_, rfl, hsound, rfl⟩
      | some below => exact carries_link hsound hforest hroot hnext hchild flags

end Store

end FourLevelPaging
