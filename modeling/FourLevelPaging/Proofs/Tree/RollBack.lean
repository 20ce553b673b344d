/-
Taking a way down back.  Clearing the entry of the first node added detaches
all of them, every frame that was handed out before holds what it held, and the
pool has the same frames handed out.  Only links that were opened on the way
stay open.
-/
import FourLevelPaging.Proofs.Tree.Descend

namespace FourLevelPaging

namespace FramePool

/-- The second pool is the first with the frames of `nodes` handed out, which
were not handed out before. -/
structure Drew (pool : FramePool) (nodes : List Frame) (pool' : FramePool) :
    Prop where
  valid : pool'.Valid
  region : pool.SameRegion pool'
  fresh : ∀ node ∈ nodes, node ∉ pool.allocated
  nodup : nodes.Nodup
  allocated_eq : pool'.allocated = pool.allocated ∪ nodes.toFinset

namespace Drew

variable {pool pool' pool'' : FramePool} {node : Frame} {nodes : List Frame}

theorem nil (hvalid : pool.Valid) : pool.Drew [] pool :=
  ⟨hvalid, .refl pool, (fun _ hmem => nomatch hmem), List.nodup_nil, by simp⟩

theorem cons (htook : pool.Took node pool') (hdrew : pool'.Drew nodes pool'') :
    pool.Drew (node :: nodes) pool'' := by
  have hfresh : ∀ other ∈ nodes, other ≠ node ∧ other ∉ pool.allocated := by
    intro other hother
    have hnot := hdrew.fresh other hother
    rw [htook.allocated_eq, Finset.mem_insert, not_or] at hnot
    exact hnot
  refine ⟨hdrew.valid, htook.region.trans hdrew.region, ?_, ?_, ?_⟩
  · intro other hother
    rcases List.mem_cons.1 hother with rfl | hother
    · exact htook.fresh
    · exact (hfresh other hother).2
  · rw [List.nodup_cons]
    exact ⟨fun hmem => (hfresh node hmem).1 rfl, hdrew.nodup⟩
  · rw [hdrew.allocated_eq, htook.allocated_eq]
    ext other
    simp only [Finset.mem_union, Finset.mem_insert, List.mem_toFinset,
      List.mem_cons]
    tauto

end Drew

end FramePool

namespace Memory

variable {mem : Memory} {va : VirtAddr} {flags : Flags}

theorem drew_descend (va : VirtAddr) (flags : Flags) {level target : Level}
    {levels : List Level} (hleads : level.Leads levels target)
    (hvalid : mem.pool.Valid) (frame : Frame) :
    mem.pool.Drew ((mem.descend va flags levels frame).value.2.map Added.node)
      (mem.descend va flags levels frame).state.pool := by
  induction hleads generalizing frame mem with
  | here => exact .nil hvalid
  | @next level below target rest hnext hrest ih =>
      cases hchild : mem.ram.child level ⟨frame, level.index va⟩ with
      | created node => exact absurd hchild Ram.child_ne_created
      | leaf e =>
          rw [descend_of_leaf hchild]
          exact .nil hvalid
      | table node =>
          have hpool := mem.opened_pool ⟨frame, level.index va⟩ flags
          rw [descend_of_table hchild, ← hpool]
          exact ih (hpool ▸ hvalid) node
      | absent =>
          cases hnew : mem.newNode? with
          | none =>
              rw [descend_of_starved hnext hchild hnew]
              exact .nil hvalid
          | some taken =>
              rcases taken with ⟨node, mem'⟩
              have htook := (fetched_of_newNode? hvalid hnew).took
              have hlinked : (mem'.write frame (level.index va)
                  (.table node flags)).pool.Valid := htook.valid
              rw [descend_of_created hnext hchild hnew]
              exact .cons htook (ih hlinked node)

/-- A way down from a node without entries writes to that node and to the nodes
it adds, and nowhere else. -/
theorem read_descend_of_blank (va : VirtAddr) (flags : Flags)
    {level target : Level} {levels : List Level}
    (hleads : level.Leads levels target) (hvalid : mem.pool.Valid)
    {frame : Frame} (hframe : frame ∈ mem.pool.allocated)
    (hblank : ∀ i, mem.read frame i = .empty) {other : Frame}
    (hother : other ∈ mem.pool.allocated) (hne : other ≠ frame) (i : Index) :
    (mem.descend va flags levels frame).state.read other i =
      mem.read other i := by
  induction hleads generalizing frame mem with
  | here => rfl
  | @next level below target rest hnext hrest ih =>
      have hchild : mem.ram.child level ⟨frame, level.index va⟩ = .absent :=
        child_of_read_empty (hblank _)
      cases hnew : mem.newNode? with
      | none =>
          rw [descend_of_starved hnext hchild hnew]
          rfl
      | some taken =>
          rcases taken with ⟨node, mem'⟩
          have hfetched := fetched_of_newNode? hvalid hnew
          have hmem : ∀ {frame}, frame ∈ mem.pool.allocated →
              frame ∈ mem'.pool.allocated ∧ frame ≠ node := by
            intro frame hframe
            rw [hfetched.took.allocated_eq, Finset.mem_insert]
            exact ⟨Or.inr hframe, fun h => hfetched.took.fresh (h ▸ hframe)⟩
          have hnode : node ∈ mem'.pool.allocated := by
            rw [hfetched.took.allocated_eq]
            exact Finset.mem_insert_self _ _
          have hlinked : (mem'.write frame (level.index va)
              (.table node flags)).pool.Valid := hfetched.took.valid
          have hempty : ∀ j, (mem'.write frame (level.index va)
              (.table node flags)).read node j = .empty := by
            intro j
            rw [read_write, if_neg fun h => (hmem hframe).2 h.1]
            exact hfetched.read_self j
          rw [descend_of_created hnext hchild hnew]
          apply (ih hlinked hnode hempty (hmem hother).1 (hmem hother).2).trans
          rw [read_write, if_neg fun h => hne h.1.symm]
          exact hfetched.read_other (hmem hother).2 i

/-- Handing back what was drawn leaves the same frames handed out as before. -/
theorem giveBackAll_of_drew {pool : FramePool} {nodes : List Frame}
    (hdrew : pool.Drew nodes mem.pool) :
    (giveBackAll nodes mem).state.pool.Valid ∧
      pool.SameRegion (giveBackAll nodes mem).state.pool ∧
      (giveBackAll nodes mem).state.pool.allocated = pool.allocated ∧
      (giveBackAll nodes mem).events = #[] := by
  induction nodes generalizing mem with
  | nil =>
      have heq := hdrew.allocated_eq
      rw [List.toFinset_nil, Finset.union_empty] at heq
      exact ⟨hdrew.valid, hdrew.region, heq, rfl⟩
  | cons node rest ih =>
      obtain ⟨hnot, hnodup⟩ := List.nodup_cons.1 hdrew.nodup
      have hheld : node ∈ mem.pool.allocated := by
        rw [hdrew.allocated_eq]
        simp
      obtain ⟨hfreed, hquiet⟩ := FramePool.freed_giveBack hdrew.valid hheld
      have hfresh := hdrew.fresh node List.mem_cons_self
      have hrest : pool.Drew rest (mem.giveBack node).state.pool := by
        refine ⟨hfreed.valid, hdrew.region.trans hfreed.region,
          fun other hother => hdrew.fresh other (List.mem_cons_of_mem _ hother),
          hnodup, hfreed.allocated_eq.trans ?_⟩
        rw [hdrew.allocated_eq]
        ext other
        by_cases heq : other = node
        · subst other
          simp [hfresh, hnot]
        · simp [heq]
      obtain ⟨hvalid, hregion, hallocated, hevents⟩ := ih hrest
      refine ⟨hvalid, hregion, hallocated, ?_⟩
      have hfirst : (mem.giveBack node).events = #[] := hquiet
      simp [giveBackAll, hfirst, hevents]

theorem rollBack_state (mem : Memory) (added : List Added) :
    (mem.rollBack added).state =
      (giveBackAll (added.map Added.node) (mem.unlinked added)).state := by
  cases added <;> rfl

theorem unlinked_pool (mem : Memory) (added : List Added) :
    (mem.unlinked added).pool = mem.pool := by
  cases added <;> rfl

/-- Taking back the nodes drawn from a pool leaves the same frames handed out
as before. -/
theorem rollBack_of_drew {pool : FramePool} {added : List Added}
    (hdrew : pool.Drew (added.map Added.node) mem.pool) :
    (mem.rollBack added).state.pool.Valid ∧
      pool.SameRegion (mem.rollBack added).state.pool ∧
      (mem.rollBack added).state.pool.allocated = pool.allocated ∧
      AllAccepted (mem.rollBack added).events := by
  rw [← mem.unlinked_pool added] at hdrew
  obtain ⟨hvalid, hregion, hallocated, hquiet⟩ := giveBackAll_of_drew hdrew
  rw [rollBack_state]
  refine ⟨hvalid, hregion, hallocated, ?_⟩
  cases added with
  | nil => exact .empty
  | cons top rest =>
      rw [unlinked] at hquiet
      simp only [rollBack, hquiet]
      exact AllAccepted.empty.push fun _ => by simp

/-- `mem'` is `mem` again, but for the links in `opened`, which are open to user
code now, and for frames that are not handed out. -/
structure Restored (mem : Memory) (opened : List Cell) (mem' : Memory) :
    Prop where
  valid : mem'.pool.Valid
  region : mem.pool.SameRegion mem'.pool
  allocated_eq : mem'.pool.allocated = mem.pool.allocated
  read_eq : ∀ frame ∈ mem.pool.allocated, ∀ i, mem'.read frame i =
    if ⟨frame, i⟩ ∈ opened then (mem.read frame i).put .user true
    else mem.read frame i

theorem Restored.refl (hvalid : mem.pool.Valid) : mem.Restored [] mem :=
  ⟨hvalid, .refl _, rfl, fun _ _ _ => by simp⟩

end Memory

namespace Forest

variable {mem : Memory} {roots : List Frame} {held : Finset Frame}
  {root : Frame} {va : VirtAddr} {flags : Flags}

/-- Clearing the entry that leads to the first of the nodes added takes all of
them away again. -/
theorem read_cleared_descend {level below target : Level} {levels : List Level}
    (hleads : below.Leads levels target) (hforest : Forest mem roots held)
    (hroot : root ∈ roots) {frame : Frame}
    (hreach : mem.ram.Reach root level (level.pathTo va) frame)
    (hchild : mem.ram.child level ⟨frame, level.index va⟩ = .absent)
    {node : Frame} {mem' : Memory} (hfetched : mem.Fetched node mem')
    {other : Frame} (hother : other ∈ mem.pool.allocated) (i : Index) :
    ((((mem'.write frame (level.index va) (.table node flags)).descend va flags
        levels node).state).clear frame (level.index va)).read other i =
      mem.read other i := by
  have hallocated := hfetched.took.allocated_eq
  have hne : ∀ {frame}, frame ∈ mem.pool.allocated → frame ≠ node :=
    fun hframe h => hfetched.took.fresh (h ▸ hframe)
  have hframe := hforest.mem_allocated_of_reach hroot hreach
  have hvalid :
      (mem'.write frame (level.index va) (.table node flags)).pool.Valid :=
    hfetched.took.valid
  have hblank :
      ∀ j, (mem'.write frame (level.index va) (.table node flags)).read node j =
        .empty := by
    intro j
    rw [Memory.read_write, if_neg fun h => hne hframe h.1]
    exact hfetched.read_self j
  rw [Memory.clear, Memory.read_write]
  split
  · next hcell =>
      rcases hcell with ⟨rfl, rfl⟩
      exact (hforest.read_of_child_absent hroot hreach hchild).symm
  · next hcell =>
      have hkept := Memory.read_descend_of_blank va flags hleads hvalid
        (hallocated ▸ Finset.mem_insert_self _ _) hblank
        (hallocated ▸ Finset.mem_insert_of_mem hother) (hne hother) i
      rw [hkept, Memory.read_write, if_neg hcell,
        hfetched.read_other (hne hother)]

/-- The entries of the frames handed out before, once the nodes that a way down
added are unlinked. -/
theorem read_unlinked {level target : Level} {levels : List Level}
    (hleads : level.Leads levels target) (hforest : Forest mem roots held)
    (hroot : root ∈ roots) {frame : Frame}
    (hreach : mem.ram.Reach root level (level.pathTo va) frame) {other : Frame}
    (hother : other ∈ mem.pool.allocated) (i : Index) :
    ((mem.descend va (AddressSpace.parentFlags flags) levels
          frame).state.unlinked
        (mem.descend va (AddressSpace.parentFlags flags) levels
          frame).value.2).read other i =
      if flags.has .user = true ∧
          ⟨other, i⟩ ∈ mem.ram.links va levels frame then
        (mem.read other i).put .user true
      else mem.read other i := by
  induction hleads generalizing frame mem with
  | here => simp [Ram.links, Memory.descend, Outcome.quiet, Memory.unlinked]
  | @next level below target rest hnext hrest ih =>
      cases hchild : mem.ram.child level ⟨frame, level.index va⟩ with
      | created node => exact absurd hchild Ram.child_ne_created
      | leaf e =>
          have hlinks : mem.ram.links va (level :: rest) frame = [] :=
            Ram.links_of_not_table fun node h => by simp [hchild] at h
          rw [Memory.descend_of_leaf hchild, hlinks]
          simp [Outcome.quiet, Memory.unlinked]
      | table node =>
          obtain ⟨hforest', hsame⟩ :=
            hforest.opened hroot hreach hchild (AddressSpace.parentFlags flags)
          have hreach' := hreach.along hnext hchild
          have hlinks : (mem.opened ⟨frame, level.index va⟩
              (AddressSpace.parentFlags flags)).ram.links va rest node =
                mem.ram.links va rest node :=
            Ram.links_congr hrest (hsame hroot) hreach'
          have hother' : other ∈ (mem.opened ⟨frame, level.index va⟩
              (AddressSpace.parentFlags flags)).pool.allocated := by
            rw [mem.opened_pool]
            exact hother
          rw [Memory.descend_of_table hchild,
            ih hforest' ((Ram.Reach.congr_child (hsame hroot)).2 hreach')
              hother', hlinks, Ram.links_of_table hchild, Memory.read_opened,
            AddressSpace.has_user_parentFlags]
          simp only [List.mem_cons]
          by_cases huser : flags.has .user = true
          · by_cases hcell : (⟨frame, level.index va⟩ : Cell) = ⟨other, i⟩
            · simp [huser, hcell, Entry.put_put_self]
            · simp [huser, hcell, Ne.symm hcell]
          · simp [huser]
      | absent =>
          have hlinks : mem.ram.links va (level :: rest) frame = [] :=
            Ram.links_of_not_table fun node h => by simp [hchild] at h
          cases hnew : mem.newNode? with
          | none =>
              rw [Memory.descend_of_starved hnext hchild hnew, hlinks]
              simp [Outcome.quiet, Memory.unlinked]
          | some taken =>
              rcases taken with ⟨node, mem'⟩
              have hfetched := Memory.fetched_of_newNode? hforest.valid hnew
              rw [Memory.descend_of_created hnext hchild hnew, hlinks]
              simp only [Memory.unlinked, List.not_mem_nil, and_false,
                ↓reduceIte]
              exact hforest.read_cleared_descend hrest hroot hreach hchild
                hfetched hother i

/-- A way down that is taken back restores the memory it started from. -/
theorem restored_rollBack {level target : Level} {levels : List Level}
    (hleads : level.Leads levels target) (hforest : Forest mem roots held)
    (hroot : root ∈ roots) {frame : Frame}
    (hreach : mem.ram.Reach root level (level.pathTo va) frame)
    {done : Reported Memory (Except MapError Frame × List Added)}
    (hdone : mem.descend va (AddressSpace.parentFlags flags) levels frame =
      done) :
    mem.Restored (mem.ram.linksToOpen va flags levels frame)
        (done.state.rollBack done.value.2).state ∧
      AllAccepted (done.state.rollBack done.value.2).events := by
  subst hdone
  have hdrew := Memory.drew_descend va (AddressSpace.parentFlags flags) hleads
    hforest.valid frame
  obtain ⟨hvalid, hregion, hallocated, haccepted⟩ :=
    Memory.rollBack_of_drew hdrew
  refine ⟨⟨hvalid, hregion, hallocated, ?_⟩, haccepted⟩
  intro other hother i
  rw [Memory.rollBack_state, Memory.read, Memory.giveBackAll_ram]
  apply (hforest.read_unlinked hleads hroot hreach hother i).trans
  by_cases huser : flags.has .user = true
  · simp [Ram.linksToOpen, huser]
  · simp [Ram.linksToOpen, huser]

/-- Memory that is restored holds the same trees with the same leaves. -/
theorem of_restored (hforest : Forest mem roots held) {mem' : Memory}
    {opened : List Cell} (hrestored : mem.Restored opened mem')
    (hopened : ∀ cell ∈ opened, ∃ root ∈ roots, ∃ level path node,
      mem.ram.Reach root level path cell.frame ∧
        mem.ram.child level cell = .table node) :
    Forest mem' roots held ∧
      ∀ {root level path frame}, root ∈ roots →
        mem.ram.Reach root level path frame → ∀ i,
          mem'.ram.child level ⟨frame, i⟩ = mem.ram.child level ⟨frame, i⟩ := by
  apply hforest.open_links hrestored.valid hrestored.region
    hrestored.allocated_eq
  intro root level path frame hroot hreach i
  rw [hrestored.read_eq frame (hforest.mem_allocated_of_reach hroot hreach) i]
  split
  · next hmem =>
      obtain ⟨root', hroot', level', path', node, hreach', hchild⟩ :=
        hopened _ hmem
      obtain ⟨-, rfl, -⟩ := hforest.reach_eq hroot hreach hroot' hreach'
      exact Or.inr ⟨rfl, node, hchild⟩
  · exact Or.inl rfl

end Forest

end FourLevelPaging
