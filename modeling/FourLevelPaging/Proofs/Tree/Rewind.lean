/-
Taking the nodes that a way down added out again, and adding them once more.
They go back to the pool deepest first and come out of it in the other order, so
the second time each of them stands where it stood before.
-/
import FourLevelPaging.Proofs.AddressSpace.InPlace
import FourLevelPaging.Proofs.Tree.Open

namespace FourLevelPaging

namespace FramePool

/-- The frames of the list are those that the pool hands out next, and when they
are out it is the second pool. -/
def Hands : FramePool → List Frame → FramePool → Prop
  | pool, [], pool' => pool = pool'
  | pool, frame :: rest, pool' =>
      ∃ mid, pool.take? = some (frame, mid) ∧ Hands mid rest pool'

end FramePool

/-- `mem'` is `mem` again, but for the links in `opened`, which are open to user
code now; its pool hands out `nodes` next, and is `pool` then. -/
structure Memory.Rewound (mem : Memory) (opened : List Cell)
    (nodes : List Frame) (pool : FramePool) (mem' : Memory) : Prop where
  restored : mem.Restored opened mem'
  hands : mem'.pool.Hands nodes pool

namespace Memory

variable {mem mid mem' : Memory} {frame node : Frame} {va : VirtAddr}
  {flags : Flags} {i : Index} {nodes : List Frame} {pool : FramePool}

/-- Where a way of taking nodes out begins is told by the node alone. -/
theorem reclaim_index (mem : Memory) (frame : Frame) (i j : Index)
    (cells : List Cell) :
    mem.reclaim (⟨frame, i⟩ :: cells) = mem.reclaim (⟨frame, j⟩ :: cells) := by
  cases cells <;> rfl

theorem reclaim_of_empty (hempty : ∀ j, mem.read node j = .empty) (i : Index)
    (parent : Cell) (cells : List Cell) :
    (mem.reclaim (⟨node, i⟩ :: parent :: cells)).state =
      (((mem.clear parent.frame parent.index).giveBack node).state.reclaim
        (parent :: cells)).state := by
  have hnone : (mem.ram.node node).isEmpty = true :=
    Node.isEmpty_iff.2 fun j => congrArg Entry.present (hempty j)
  simp [reclaim, hnone]

/-- Unlinking a node that was made for an empty place, and handing it back. -/
theorem Rewound.detach (hblank : mem.read frame i = .empty)
    (hfetched : mem.Fetched node mid) {e : Entry}
    (h : (mid.write frame i e).Rewound [] nodes pool mem') :
    mem.Rewound [] (node :: nodes) pool
      ((mem'.clear frame i).giveBack node).state := by
  have hfresh := hfetched.took.fresh
  have hallocated : mem'.pool.allocated = insert node mem.pool.allocated :=
    h.restored.allocated_eq.trans hfetched.took.allocated_eq
  have hheld : node ∈ mem'.pool.allocated :=
    hallocated ▸ Finset.mem_insert_self _ _
  obtain ⟨hfreed, -⟩ := FramePool.freed_giveBack h.restored.valid hheld
  refine ⟨⟨hfreed.valid, ?_, ?_, ?_⟩, mem'.pool,
    FramePool.take?_giveBack h.restored.valid hheld, h.hands⟩
  · exact (hfetched.took.region.trans h.restored.region).trans hfreed.region
  · exact hfreed.allocated_eq.trans
      (by rw [hallocated, Finset.erase_insert hfresh])
  · intro other hother j
    have hne : other ≠ node := fun heq => hfresh (heq ▸ hother)
    change (mem'.clear frame i).read other j = _
    rw [if_neg List.not_mem_nil, clear, read_write]
    split
    · next hcell =>
        rcases hcell with ⟨rfl, rfl⟩
        exact hblank.symm
    · next hcell =>
        have hmid : other ∈ mid.pool.allocated :=
          hfetched.took.allocated_eq ▸ Finset.mem_insert_of_mem hother
        rw [h.restored.read_eq other hmid j, if_neg List.not_mem_nil,
          read_write, if_neg hcell, hfetched.read_other hne]

/-- Fetching a node that was detached, and linking it where it was. -/
theorem Rewound.attach (h : mem.Rewound [] (node :: nodes) pool mem')
    (hfetched : mem.Fetched node mid) (frame : Frame) (i : Index) (e : Entry) :
    ∃ mid', mem'.newNode? = some (node, mid') ∧
      (mid.write frame i e).Rewound [] nodes pool (mid'.write frame i e) := by
  obtain ⟨left, htaken, hhands⟩ := h.hands
  have hnew :
      mem'.newNode? = some (node, zero { mem' with pool := left } node) := by
    simp [newNode?, htaken]
  have hfetched' := fetched_of_newNode? h.restored.valid hnew
  refine ⟨_, hnew, ⟨hfetched'.took.valid, ?_, ?_, fun other hother j => ?_⟩,
    hhands⟩
  · exact hfetched.took.region.symm.trans
      (h.restored.region.trans hfetched'.took.region)
  · refine hfetched'.took.allocated_eq.trans ?_
    rw [h.restored.allocated_eq]
    exact hfetched.took.allocated_eq.symm
  · change other ∈ mid.pool.allocated at hother
    rw [hfetched.took.allocated_eq, Finset.mem_insert] at hother
    rw [if_neg List.not_mem_nil, read_write, read_write]
    split
    · rfl
    · by_cases hnode : other = node
      · subst hnode
        rw [hfetched.read_self, hfetched'.read_self]
      · have hmem := hother.resolve_left hnode
        rw [hfetched.read_other hnode, hfetched'.read_other hnode,
          h.restored.read_eq other hmem j, if_neg List.not_mem_nil]

/-- Taking out the nodes that a way down added where nothing was leads back up
to where they begin. -/
theorem reclaim_descend {level target : Level} {levels : List Level}
    (hleads : level.Leads levels target) (hvalid : mem.pool.Valid)
    (hframe : frame ∈ mem.pool.allocated)
    (hblank : mem.read frame (level.index va) = .empty) {last : Frame}
    (hok : (mem.descend va flags levels frame).value.1 = .ok last)
    (halike : (mem.descend va flags levels frame).state.Alike mem') :
    ∃ done, mem.Rewound []
        ((mem.descend va flags levels frame).value.2.map Added.node)
        (mem.descend va flags levels frame).state.pool done ∧
      ∀ i j cells, (mem'.reclaim (⟨last, i⟩ ::
        (((mem.descend va flags levels frame).value.2.map Added.cell).reverse ++
          cells))).state = (done.reclaim (⟨frame, j⟩ :: cells)).state := by
  induction hleads generalizing frame mem with
  | here =>
      cases hok
      refine ⟨mem', ⟨halike.restored hvalid, halike.pool_eq⟩,
        fun i j cells => ?_⟩
      rw [mem'.reclaim_index _ i j]
      rfl
  | @next level below target rest hnext hrest ih =>
      have habsent : mem.ram.child level ⟨frame, level.index va⟩ = .absent :=
        child_of_read_empty hblank
      cases hnew : mem.newNode? with
      | none =>
          rw [descend_of_starved hnext habsent hnew] at hok
          cases hok
      | some taken =>
          rcases taken with ⟨node, mid⟩
          have hfetched := fetched_of_newNode? hvalid hnew
          have hne : frame ≠ node := fun h => hfetched.took.fresh (h ▸ hframe)
          have hnode : node ∈ mid.pool.allocated :=
            hfetched.took.allocated_eq ▸ Finset.mem_insert_self _ _
          have hlinked : (mid.write frame (level.index va)
              (.table node flags)).pool.Valid :=
            hfetched.took.valid
          have hempty : ∀ j,
              (mid.write frame (level.index va) (.table node flags)).read node
                j = .empty := by
            intro j
            rw [read_write, if_neg fun h => hne h.1]
            exact hfetched.read_self j
          rw [descend_of_created hnext habsent hnew] at hok halike ⊢
          obtain ⟨done, hrewound, hclimb⟩ :=
            ih hlinked hnode (hempty _) hok halike
          refine ⟨_, hrewound.detach hblank hfetched, fun i j cells => ?_⟩
          have hbare : ∀ j, done.read node j = .empty := by
            intro j
            rw [hrewound.restored.read_eq node hnode j, if_neg List.not_mem_nil]
            exact hempty j
          rw [List.map_cons, List.reverse_cons, List.append_assoc,
            List.singleton_append, hclimb i i, reclaim_of_empty hbare,
            reclaim_index _ frame _ j]

section Opened

variable {cell : Cell} {links : List Cell}

/-- Memory that was restored but for links that were opened after another
one. -/
theorem Restored.of_opened
    (h : (mem.opened cell (AddressSpace.parentFlags flags)).Restored
      (if flags.has .user then links else []) mem') :
    mem.Restored (if flags.has .user then cell :: links else []) mem' := by
  have hpool := mem.opened_pool cell (AddressSpace.parentFlags flags)
  refine ⟨h.valid, hpool ▸ h.region, h.allocated_eq.trans (congrArg _ hpool),
    ?_⟩
  intro frame hframe i
  rw [h.read_eq frame (hpool ▸ hframe) i, read_opened,
    AddressSpace.has_user_parentFlags]
  by_cases huser : flags.has .user = true
  · by_cases hcell : cell = ⟨frame, i⟩
    · simp [huser, hcell, Entry.put_put_self]
    · simp [huser, hcell, Ne.symm hcell]
  · simp [huser]

/-- Opening a link again that is open already. -/
theorem Restored.opened
    (h : mem.Restored (if flags.has .user then cell :: links else []) mem') :
    (mem.opened cell (AddressSpace.parentFlags flags)).Restored
      (if flags.has .user then links else [])
      (mem'.opened cell (AddressSpace.parentFlags flags)) := by
  have hpool := mem.opened_pool cell (AddressSpace.parentFlags flags)
  have hpool' := mem'.opened_pool cell (AddressSpace.parentFlags flags)
  refine ⟨hpool' ▸ h.valid, ?_, ?_, ?_⟩
  · rw [hpool, hpool']
    exact h.region
  · rw [hpool, hpool']
    exact h.allocated_eq
  · intro frame hframe i
    rw [hpool] at hframe
    rw [read_opened, read_opened, h.read_eq frame hframe i,
      AddressSpace.has_user_parentFlags]
    by_cases huser : flags.has .user = true
    · by_cases hcell : cell = ⟨frame, i⟩
      · simp [huser, hcell, Entry.put_put_self]
      · simp [huser, hcell, Ne.symm hcell]
    · simp [huser]

end Opened

end Memory

namespace Forest

variable {mem mem' : Memory} {roots : List Frame} {held : Finset Frame}
  {root : Frame} {va : VirtAddr} {flags : Flags} {level target : Level}
  {levels : List Level} {frame last : Frame} {cells : List Cell}

/-- Below an entry that leads to nothing, a way passes only places of nodes that
it adds. -/
theorem trail_descend (hleads : level.Leads levels target)
    (hforest : Forest mem roots held) (hroot : root ∈ roots)
    (hreach : mem.ram.Reach root level (level.pathTo va) frame)
    (habsent : mem.ram.child level ⟨frame, level.index va⟩ = .absent)
    (htrail : mem.ram.Trail root va level cells) (hok :
      (mem.descend va (AddressSpace.parentFlags flags) levels frame).value.1 =
        .ok last) :
    (mem.descend va (AddressSpace.parentFlags flags)
      levels frame).state.ram.Trail root va target (((mem.descend va
        (AddressSpace.parentFlags flags) levels frame).value.2.map
      Added.cell).reverse ++ cells) := by
  induction hleads generalizing frame mem cells with
  | here => exact htrail
  | @next level below target rest hnext hrest ih =>
      cases hnew : mem.newNode? with
      | none =>
          rw [Memory.descend_of_starved hnext habsent hnew] at hok
          cases hok
      | some taken =>
          rcases taken with ⟨node, mid⟩
          have hfetched := Memory.fetched_of_newNode? hforest.valid hnew
          obtain ⟨hforest', -, hreach'⟩ :=
            hforest.grow hroot hreach habsent hnext hfetched (flags.has .user)
          rw [← Level.pathTo_of_next hnext] at hreach'
          have hkept := hforest.keepsLinks_grow hroot hreach habsent hfetched
            (.table node (AddressSpace.parentFlags flags))
          have habsent' : (mid.write frame (level.index va) (.table node
                  (AddressSpace.parentFlags flags))).ram.child
                below ⟨node, below.index va⟩ =
              .absent :=
            Memory.child_linked hfetched
              (hforest.mem_allocated_of_reach hroot hreach) _ _ _
          have htrail' :=
            Ram.Trail.step (htrail.congr fun _ h => hkept.reach hroot h)
              (hkept.reach hroot hreach) hnext
          rw [Memory.descend_of_created hnext habsent hnew] at hok ⊢
          have hall := ih hforest' hreach' habsent' htrail' hok
          rw [List.map_cons, List.reverse_cons, List.append_assoc,
            List.singleton_append]
          exact hall

/-- Nothing is taken out where a tree without empty nodes is as it was. -/
theorem reclaim_restored (hforest : Forest mem roots held)
    (htrim : mem.Trim held roots) (hroot : root ∈ roots)
    (hreach : mem.ram.Reach root level (level.pathTo va) frame)
    (htrail : mem.ram.Trail root va level cells)
    (hrestored : mem.Restored [] mem') (i : Index) :
    (mem'.reclaim (⟨frame, i⟩ :: cells)).state = mem' := by
  cases htrail with
  | root => rfl
  | @step upper _ cells other htrail' hreach' hnext =>
      have hframe := hforest.mem_allocated_of_reach hroot hreach
      rw [Level.pathTo_of_next hnext] at hreach
      obtain ⟨j, hj⟩ := hforest.exists_entry htrim hroot hreach
      have hentry : mem'.read frame j = mem.read frame j := by
        rw [hrestored.read_eq frame hframe j, if_neg List.not_mem_nil]
      have hsome : ¬(mem'.ram.node frame).isEmpty = true := by
        intro hempty
        have hnone := Node.isEmpty_iff.1 hempty j
        exact hj (Ram.child_eq_absent_iff.2
          ((congrArg Entry.present hentry).symm.trans hnone))
      simp [Memory.reclaim, hsome, Outcome.quiet]

/-- Taking out the empty nodes on a way that was just gone down takes out the
nodes that were added on it, and no other. -/
theorem rewound_reclaim (hleads : level.Leads levels target)
    (hforest : Forest mem roots held) (htrim : mem.Trim held roots)
    (hroot : root ∈ roots)
    (hreach : mem.ram.Reach root level (level.pathTo va) frame)
    {done : Reported Memory (Except MapError Frame × List Added)}
    (hdone : mem.descend va (AddressSpace.parentFlags flags) levels frame =
      done) (hok : done.value.1 = .ok last)
    (htrail : done.state.ram.Trail root va target cells)
    (halike : done.state.Alike mem') (i : Index) :
    mem.Rewound (mem.ram.linksToOpen va flags levels frame)
      (done.value.2.map Added.node)
      done.state.pool (mem'.reclaim (⟨last, i⟩ :: cells)).state := by
  subst hdone
  induction hleads generalizing frame mem with
  | here =>
      cases hok
      have hrestored : mem.Restored [] mem' := halike.restored hforest.valid
      have hlinks : mem.ram.linksToOpen va flags [] last = [] := by
        simp [Ram.linksToOpen, Ram.links]
      rw [hforest.reclaim_restored htrim hroot hreach htrail hrestored, hlinks]
      exact ⟨hrestored, halike.pool_eq⟩
  | @next level below target rest hnext hrest ih =>
      cases hchild : mem.ram.child level ⟨frame, level.index va⟩ with
      | created node => exact absurd hchild Ram.child_ne_created
      | leaf e =>
          rw [Memory.descend_of_leaf hchild] at hok
          cases hok
      | table node =>
          obtain ⟨hforest', hsame⟩ :=
            hforest.opened hroot hreach hchild (AddressSpace.parentFlags flags)
          have hreach' := hreach.along hnext hchild
          have hpool := mem.opened_pool ⟨frame, level.index va⟩
            (AddressSpace.parentFlags flags)
          have htrim' := htrim.opened ⟨frame, level.index va⟩
            (AddressSpace.parentFlags flags)
          rw [Memory.descend_of_table hchild] at hok htrail halike ⊢
          have hrewound := ih hforest' htrim'
            ((Ram.Reach.congr_child (hsame hroot)).2 hreach') hok htrail halike
          rw [Ram.linksToOpen, Ram.links_congr hrest (hsame hroot) hreach']
            at hrewound
          rw [Ram.linksToOpen, Ram.links_of_table hchild]
          exact ⟨hrewound.restored.of_opened, hrewound.hands⟩
      | absent =>
          have hlinks :=
            Ram.linksToOpen_of_absent (.next hnext hrest) hchild flags
          have hblank := hforest.read_of_child_absent hroot hreach hchild
          have hframe := hforest.mem_allocated_of_reach hroot hreach
          obtain ⟨older, htrail'⟩ := hreach.exists_trail rfl
          obtain ⟨before, hrewound, hclimb⟩ :=
            Memory.reclaim_descend (.next hnext hrest)
              hforest.valid hframe hblank hok halike
          obtain rfl := htrail.unique (hforest.trail_descend (.next hnext hrest)
            hroot hreach hchild htrail' hok)
          rw [hlinks, hclimb i i, hforest.reclaim_restored htrim hroot hreach
            htrail' hrewound.restored]
          exact hrewound

/-- Where a way down was taken back, the same way down adds the same nodes in
the same places, and ends with the same memory. -/
theorem descend_rewound (hleads : level.Leads levels target)
    (hforest : Forest mem roots held) (hroot : root ∈ roots)
    (hreach : mem.ram.Reach root level (level.pathTo va) frame)
    {done : Reported Memory (Except MapError Frame × List Added)}
    (hdone : mem.descend va (AddressSpace.parentFlags flags) levels frame =
      done) (hok : done.value.1 = .ok last)
    (hrewound : mem.Rewound (mem.ram.linksToOpen va flags levels frame)
      (done.value.2.map Added.node) done.state.pool mem') :
    (mem'.descend va (AddressSpace.parentFlags flags) levels frame).value =
        done.value ∧
      done.state.Alike (mem'.descend va (AddressSpace.parentFlags flags)
        levels frame).state := by
  subst hdone
  induction hleads generalizing frame mem mem' with
  | here =>
      refine ⟨rfl, hrewound.hands, fun other hother i => ?_⟩
      apply (hrewound.restored.read_eq other hother i).trans
      simp only [Ram.linksToOpen, Ram.links, ite_self, List.not_mem_nil,
        ↓reduceIte]
      rfl
  | @next level below target rest hnext hrest ih =>
      have hsame := (hforest.of_restored hrewound.restored fun cell hmem => by
        obtain ⟨upper, node, hupper, hchild⟩ :=
          Ram.of_mem_linksToOpen (.next hnext hrest) hreach hmem
        exact ⟨root, hroot, upper, _, node, hupper, hchild⟩).2 hroot hreach
          (level.index va)
      cases hchild : mem.ram.child level ⟨frame, level.index va⟩ with
      | created node => exact absurd hchild Ram.child_ne_created
      | leaf e =>
          rw [Memory.descend_of_leaf hchild] at hok
          cases hok
      | table node =>
          obtain ⟨hforest', hopened⟩ :=
            hforest.opened hroot hreach hchild (AddressSpace.parentFlags flags)
          have hreach' := hreach.along hnext hchild
          have hpool := mem'.opened_pool ⟨frame, level.index va⟩
            (AddressSpace.parentFlags flags)
          rw [Memory.descend_of_table hchild] at hok hrewound ⊢
          rw [Memory.descend_of_table (hsame.trans hchild)]
          refine ih hforest' ((Ram.Reach.congr_child (hopened hroot)).2 hreach')
            hok ⟨?_, ?_⟩
          · have hrestored := hrewound.restored
            rw [Ram.linksToOpen, Ram.links_of_table hchild] at hrestored
            rw [Ram.linksToOpen, Ram.links_congr hrest (hopened hroot) hreach']
            exact hrestored.opened
          · rw [hpool]
            exact hrewound.hands
      | absent =>
          cases hnew : mem.newNode? with
          | none =>
              rw [Memory.descend_of_starved hnext hchild hnew] at hok
              cases hok
          | some taken =>
              rcases taken with ⟨node, mid⟩
              have hfetched := Memory.fetched_of_newNode? hforest.valid hnew
              obtain ⟨hforest', -, hreach'⟩ :=
                hforest.grow hroot hreach hchild hnext hfetched
                  (flags.has .user)
              rw [← Level.pathTo_of_next hnext] at hreach'
              rw [Memory.descend_of_created hnext hchild hnew] at hok hrewound ⊢
              rw [Ram.linksToOpen_of_absent (.next hnext hrest) hchild]
                at hrewound
              obtain ⟨mid', hnew', hlinked⟩ := hrewound.attach hfetched frame
                (level.index va) (.table node (AddressSpace.parentFlags flags))
              rw [Memory.descend_of_created hnext (hsame.trans hchild) hnew']
              have hnothing : (mid.write frame (level.index va) (.table node
                    (AddressSpace.parentFlags flags))).ram.linksToOpen
                  va flags rest node = [] :=
                Ram.linksToOpen_of_absent hrest (Memory.child_linked hfetched
                  (hforest.mem_allocated_of_reach hroot hreach) _ _ _) flags
              rw [← hnothing] at hlinked
              obtain ⟨hvalue, halike⟩ := ih hforest' hreach' hok hlinked
              exact ⟨congrArg (fun value : Except MapError Frame × List Added =>
                  (value.1, ⟨⟨frame, level.index va⟩, node⟩ :: value.2)) hvalue,
                halike⟩

end Forest

end FourLevelPaging
