/-
The nodes that a mapping has to add.  A walk follows the links that are there
and then either meets a leaf, or comes to its end, or adds one node for each
level that is missing; it fails at the first of them that no frame is left for.
-/
import FourLevelPaging.Proofs.FramePool.Count
import FourLevelPaging.Proofs.Tree.RollBack
import FourLevelPaging.Proofs.Tree.Trim

namespace FourLevelPaging

/-- The levels below the given ones, top first, at which no node stands on the
way of `va`. -/
noncomputable def Ram.missing (ram : Ram) (root : Frame) (va : VirtAddr)
    (levels : List Level) : List Level :=
  open Classical in
  (levels.filterMap Level.next).filter fun level =>
    decide ¬∃ frame, ram.Reach root level (level.pathTo va) frame

namespace Level.Leads

variable {level target : Level} {levels : List Level}

theorem height_le (hleads : level.Leads levels target) :
    target.height ≤ level.height := by
  induction hleads with
  | here => exact Nat.le_refl _
  | next hnext _ ih =>
      have hheight := Level.height_of_next hnext
      omega

theorem length_filterMap_next (hleads : level.Leads levels target) :
    (levels.filterMap Level.next).length = levels.length := by
  induction hleads with
  | here => rfl
  | next hnext _ ih => simp [hnext, ih]

/-- The levels met on the way lie below the one it starts from. -/
theorem height_lt_of_mem (hleads : level.Leads levels target) {below : Level}
    (hmem : below ∈ levels.filterMap Level.next) :
    below.height < level.height := by
  induction hleads with
  | here => cases hmem
  | @next level next target rest hnext hrest ih =>
      have hheight := Level.height_of_next hnext
      rw [List.filterMap_cons_some hnext, List.mem_cons] at hmem
      rcases hmem with rfl | hmem
      · omega
      · have hlt := ih hmem
        omega

end Level.Leads

namespace Ram

variable {ram ram' : Ram} {root : Frame} {va : VirtAddr} {level target : Level}
  {levels : List Level} {frame : Frame}

theorem missing_of_table {below : Level} {rest : List Level} {node : Frame}
    (hnext : level.next = some below)
    (hreach : ram.Reach root below (below.pathTo va) node) :
    ram.missing root va (level :: rest) = ram.missing root va rest := by
  have hthere : ∃ frame, ram.Reach root below (below.pathTo va) frame :=
    ⟨node, hreach⟩
  simp [missing, hnext, hthere]

/-- From a node that points at no further node on, all nodes are missing. -/
theorem missing_of_not_table (hleads : level.Leads levels target)
    (hreach : ram.Reach root level (level.pathTo va) frame)
    (hchild : ∀ node, ram.child level ⟨frame, level.index va⟩ ≠ .table node) :
    ram.missing root va levels = levels.filterMap Level.next := by
  simp only [missing, List.filter_eq_self, decide_eq_true_eq, not_exists]
  intro below hmem node
  exact hreach.not_below hchild (hleads.height_lt_of_mem hmem)

end Ram

/-- `mid` holds the trees of `mem` with the same leaves, nodes and frames
left. -/
structure Memory.SameTrees (mem : Memory) (roots : List Frame)
    (held : Finset Frame) (mid : Memory) : Prop where
  forest : Forest mid roots held
  child_eq : ∀ {root level path frame}, root ∈ roots →
    mem.ram.Reach root level path frame → ∀ i,
      mid.ram.child level ⟨frame, i⟩ = mem.ram.child level ⟨frame, i⟩
  pool_eq : mid.pool = mem.pool

/-- A walk for `va` through the given levels follows existing links as far as it
can, which is to the node of the level `last` in `node`, with the levels `rest`
still ahead. -/
structure Ram.Stops (ram : Ram) (root : Frame) (va : VirtAddr)
    (levels : List Level) (target last : Level) (rest : List Level)
    (node : Frame) : Prop where
  leads : last.Leads rest target
  reach : ram.Reach root last (last.pathTo va) node
  stopped :
    rest = [] ∨ ∀ other, ram.child last ⟨node, last.index va⟩ ≠ .table other
  missing_eq : ram.missing root va levels = rest.filterMap Level.next

theorem Ram.stops_here {ram : Ram} {root : Frame} {va : VirtAddr}
    {level target : Level} {levels : List Level} {frame : Frame}
    (hleads : level.Leads levels target)
    (hreach : ram.Reach root level (level.pathTo va) frame)
    (hstop : levels = [] ∨
      ∀ other, ram.child level ⟨frame, level.index va⟩ ≠ .table other) :
    ram.Stops root va levels target level levels frame := by
  refine ⟨hleads, hreach, hstop, ?_⟩
  rcases hstop with rfl | hchild
  · rfl
  · exact Ram.missing_of_not_table hleads hreach hchild

namespace Memory.SameTrees

variable {mem mid : Memory} {roots : List Frame} {held : Finset Frame}
  {root : Frame}

theorem refl (hforest : Forest mem roots held) : mem.SameTrees roots held mem :=
  ⟨hforest, fun _ _ _ => rfl, rfl⟩

theorem reach_iff (hsame : mem.SameTrees roots held mid) (hroot : root ∈ roots)
    {level : Level} {path : List Index} {frame : Frame} :
    mid.ram.Reach root level path frame ↔ mem.ram.Reach root level path frame :=
  Ram.Reach.congr_child (hsame.child_eq hroot)

/-- Opening a link to user code does not change the trees. -/
theorem opened (hsame : mem.SameTrees roots held mid) (hroot : root ∈ roots)
    {level : Level} {path : List Index} {frame node : Frame} {i : Index}
    (hreach : mem.ram.Reach root level path frame)
    (hchild : mem.ram.child level ⟨frame, i⟩ = .table node) (flags : Flags) :
    mem.SameTrees roots held (mid.opened ⟨frame, i⟩ flags) := by
  obtain ⟨hforest, hopened⟩ :=
    hsame.forest.opened hroot ((hsame.reach_iff hroot).2 hreach)
      ((hsame.child_eq hroot hreach i).trans hchild) flags
  refine ⟨hforest, ?_, (mid.opened_pool _ flags).trans hsame.pool_eq⟩
  intro root' level' path' frame' hroot' hreach' j
  rw [hopened hroot' ((hsame.reach_iff hroot').2 hreach') j]
  exact hsame.child_eq hroot' hreach' j

/-- Every way down first follows the links that are there. -/
theorem follow (hsame : mem.SameTrees roots held mid) (hroot : root ∈ roots)
    (va : VirtAddr) (flags : Flags) {level target : Level} {levels : List Level}
    {frame : Frame} (hleads : level.Leads levels target)
    (hreach : mem.ram.Reach root level (level.pathTo va) frame) :
    ∃ last rest node mid', mem.ram.Stops root va levels target last rest node ∧
      mem.SameTrees roots held mid' ∧
      mid.descend va flags levels frame = mid'.descend va flags rest node := by
  induction hleads generalizing frame mid with
  | here level =>
      exact ⟨_, _, _, mid, Ram.stops_here (.here level) hreach (Or.inl rfl),
        hsame, rfl⟩
  | @next level below target rest hnext hrest ih =>
      by_cases htable : ∃ node, mem.ram.child level ⟨frame, level.index va⟩ =
        .table node
      · rcases htable with ⟨node, hchild⟩
        have hbelow := hreach.along hnext hchild
        obtain ⟨last, rest', node', mid', hstops, hsame', heq⟩ :=
          ih (hsame.opened hroot hreach hchild flags) hbelow
        refine ⟨last, rest', node', mid',
          ⟨hstops.leads, hstops.reach, hstops.stopped, ?_⟩, hsame', ?_⟩
        · rw [Ram.missing_of_table hnext hbelow, hstops.missing_eq]
        · rw [Memory.descend_of_table
              ((hsame.child_eq hroot hreach _).trans hchild),
            heq]
      · exact ⟨_, _, _, mid, Ram.stops_here (.next hnext hrest) hreach
          (Or.inr (not_exists.1 htable)), hsame, rfl⟩

end Memory.SameTrees

namespace Memory

variable {mem mem' : Memory} {va : VirtAddr} {flags : Flags} {node : Frame}

theorem newNode?_eq_none_iff (hvalid : mem.pool.Valid) :
    mem.newNode? = none ↔ mem.pool.freeCount = 0 := by
  rw [← FramePool.take?_eq_none_iff hvalid, newNode?]
  split
  · next htaken => simp [htaken]
  · next htaken => simp [htaken]

/-- The node that was added last points at nothing. -/
theorem child_linked (hfetched : mem.Fetched node mem') {frame : Frame}
    (hframe : frame ∈ mem.pool.allocated) (i j : Index) (level : Level) :
    (mem'.write frame i (.table node flags)).ram.child level ⟨node, j⟩ =
      .absent := by
  have hne : frame ≠ node := fun h => hfetched.took.fresh (h ▸ hframe)
  apply child_of_read_empty
  rw [read_write, if_neg fun h => hne h.1]
  exact hfetched.read_self j

/-- Where links are missing, a way down adds one node for each of them.  It is
refused exactly if the pool runs out of frames, at the first node that there is
no frame for. -/
theorem descend_of_absent {level target : Level} {levels : List Level}
    (hleads : level.Leads levels target) (hvalid : mem.pool.Valid)
    {frame : Frame} (hframe : frame ∈ mem.pool.allocated)
    (habsent : mem.ram.child level ⟨frame, level.index va⟩ = .absent) :
    (levels.length ≤ mem.pool.freeCount →
        ∃ node, (mem.descend va flags levels frame).value.1 = .ok node ∧
          (mem.descend va flags levels frame).state.ram.child target
            ⟨node, target.index va⟩ = .absent ∧
          mem.pool.freeCount =
            (mem.descend va flags levels frame).state.pool.freeCount +
              levels.length) ∧
      ∀ below, (levels.filterMap Level.next)[mem.pool.freeCount]? = some below →
        (mem.descend va flags levels frame).value.1 =
          .error (.outOfMemory below) := by
  induction hleads generalizing frame mem with
  | here => exact ⟨fun _ => ⟨frame, rfl, habsent, rfl⟩, fun _ h => nomatch h⟩
  | @next level below target rest hnext hrest ih =>
      rw [List.filterMap_cons_some hnext]
      cases hnew : mem.newNode? with
      | none =>
          have hfree := (newNode?_eq_none_iff hvalid).1 hnew
          rw [descend_of_starved hnext habsent hnew, hfree]
          refine ⟨fun hle => absurd hle (by simp), fun level' h => ?_⟩
          obtain rfl : below = level' := by simpa using h
          rfl
      | some taken =>
          rcases taken with ⟨node, mem'⟩
          have hfetched := fetched_of_newNode? hvalid hnew
          have hfree := hfetched.took.freeCount_eq hvalid
          have hlinked : (mem'.write frame (level.index va)
              (.table node flags)).pool.Valid := hfetched.took.valid
          have hnode : node ∈ mem'.pool.allocated := by
            rw [hfetched.took.allocated_eq]
            exact Finset.mem_insert_self _ _
          obtain ⟨hok, herror⟩ :=
            ih hlinked hnode (child_linked hfetched hframe _ _ _)
          rw [descend_of_created hnext habsent hnew, hfree]
          constructor
          · intro hle
            obtain ⟨last, hvalue, hchild, hcount⟩ :=
              hok (Nat.le_of_succ_le_succ hle)
            exact ⟨last, hvalue, hchild, congrArg (· + 1) hcount⟩
          · intro level' h
            exact herror level' h

/-- Opening a link takes no entry away. -/
theorem Trim.opened {held : Finset Frame} {bare : List Frame}
    (htrim : mem.Trim held bare) (cell : Cell) (flags : Flags) :
    (mem.opened cell flags).Trim held bare := by
  refine htrim.of_present
    (congrArg FramePool.allocated (mem.opened_pool cell flags))
    fun other _ i hi => ?_
  rw [read_opened]
  split
  · exact (Entry.present_put_user _ true).trans hi
  · exact hi

/-- A way down leaves at most the node it ends at without entries. -/
theorem trim_descend {held : Finset Frame} {bare : List Frame}
    {level target : Level} {levels : List Level}
    (hleads : level.Leads levels target) (hvalid : mem.pool.Valid)
    {frame : Frame} (htrim : mem.Trim held (frame :: bare))
    (hok : (mem.descend va flags levels frame).value.1 = .ok node) :
    (mem.descend va flags levels frame).state.Trim held (node :: bare) := by
  induction hleads generalizing frame mem with
  | here =>
      cases hok
      exact htrim
  | @next level below target rest hnext hrest ih =>
      cases hchild : mem.ram.child level ⟨frame, level.index va⟩ with
      | created other => exact absurd hchild Ram.child_ne_created
      | leaf e =>
          rw [descend_of_leaf hchild] at hok
          cases hok
      | table other =>
          have hpool := mem.opened_pool ⟨frame, level.index va⟩ flags
          rw [descend_of_table hchild] at hok ⊢
          refine ih (hpool ▸ hvalid) ?_ hok
          have hentry := (Ram.child_eq_table_iff.1 hchild).1
          have hopened :=
            (htrim.of_entry hentry).opened ⟨frame, level.index va⟩ flags
          exact hopened.mono fun _ => List.mem_cons_of_mem _
      | absent =>
          cases hnew : mem.newNode? with
          | none =>
              rw [descend_of_starved hnext hchild hnew] at hok
              cases hok
          | some taken =>
              rcases taken with ⟨other, mem'⟩
              have hfetched := fetched_of_newNode? hvalid hnew
              have hlinked : (mem'.write frame (level.index va)
                  (.table other flags)).pool.Valid := hfetched.took.valid
              rw [descend_of_created hnext hchild hnew] at hok ⊢
              exact ih hlinked (htrim.link hfetched _ flags) hok

end Memory

end FourLevelPaging
