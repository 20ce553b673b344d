/-
What an operation on a space writes to: nodes of its own tree, and frames that
were not handed out when it began.  The frames that others hold are read as
before, and so are the nodes of other trees, which for one tree are frames of
others too.
-/
import FourLevelPaging.Proofs.AddressSpace.Map
import FourLevelPaging.Proofs.AddressSpace.Unmap

namespace FourLevelPaging

/-- The frames handed out that hold no node of the tree under `root`. -/
noncomputable def Memory.others (mem : Memory) (root : Frame) : Finset Frame :=
  open Classical in mem.pool.allocated.filter fun frame =>
    ¬mem.ram.Owns root frame

theorem Memory.mem_others {mem : Memory} {root frame : Frame} :
    frame ∈ mem.others root ↔
      frame ∈ mem.pool.allocated ∧ ¬mem.ram.Owns root frame := by
  simp [others]

namespace Forest

variable {mem : Memory} {roots : List Frame} {held : Finset Frame}
  {root : Frame} {va : VirtAddr} {flags : Flags}

/-- One of the trees on its own: to it the other trees are frames that others
hold. -/
theorem narrow (hforest : Forest mem roots held) (hroot : root ∈ roots) :
    Forest mem [root] (mem.others root) := by
  refine ⟨hforest.valid, hforest.low, List.nodup_singleton root, ?_, ?_, ?_, ?_⟩
  · intro root₁ root₂ level₁ level₂ path₁ path₂ frame hroot₁ hroot₂ h₁ h₂
    obtain rfl := List.mem_singleton.1 hroot₁
    obtain rfl := List.mem_singleton.1 hroot₂
    exact hforest.unique hroot hroot h₁ h₂
  · intro frame
    rw [Memory.mem_others]
    constructor
    · intro hframe
      by_cases howns : mem.ram.Owns root frame
      · exact Or.inr ⟨root, List.mem_singleton_self root, howns⟩
      · exact Or.inl ⟨hframe, howns⟩
    · intro howned
      rcases howned with ⟨hframe, -⟩ | ⟨root', hroot', level, path, hreach⟩
      · exact hframe
      · obtain rfl := List.mem_singleton.1 hroot'
        exact hforest.mem_allocated_of_reach hroot hreach
  · intro root' frame hroot' howns hmem
    obtain rfl := List.mem_singleton.1 hroot'
    exact (Memory.mem_others.1 hmem).2 howns
  · intro root' level path frame hroot' hreach i
    obtain rfl := List.mem_singleton.1 hroot'
    exact hforest.proper hroot hreach i

/-- A frame that is held is not one that holds a node. -/
theorem ne_of_held (hforest : Forest mem roots held) (hroot : root ∈ roots)
    {level : Level} {path : List Index} {frame other : Frame}
    (hreach : mem.ram.Reach root level path frame) (hheld : other ∈ held) :
    frame ≠ other := by
  rintro rfl
  exact hforest.apart hroot ⟨level, path, hreach⟩ hheld

/-- A way down writes to no frame that is held. -/
theorem read_descend_of_held {level target : Level} {levels : List Level}
    (hleads : level.Leads levels target) (hforest : Forest mem roots held)
    (hroot : root ∈ roots) {frame : Frame}
    (hreach : mem.ram.Reach root level (level.pathTo va) frame) {other : Frame}
    (hheld : other ∈ held) (i : Index) :
    (mem.descend va (AddressSpace.parentFlags flags) levels frame).state.read
        other i =
      mem.read other i := by
  induction hleads generalizing frame mem with
  | here => rfl
  | @next level below target rest hnext hrest ih =>
      have hne := hforest.ne_of_held hroot hreach hheld
      cases hchild : mem.ram.child level ⟨frame, level.index va⟩ with
      | created node => exact absurd hchild Ram.child_ne_created
      | leaf e =>
          rw [Memory.descend_of_leaf hchild]
          rfl
      | table node =>
          obtain ⟨hforest', hsame⟩ :=
            hforest.opened hroot hreach hchild (AddressSpace.parentFlags flags)
          have hreach' := (Ram.Reach.congr_child (hsame hroot)).2
            (hreach.along hnext hchild)
          rw [Memory.descend_of_table hchild, ih hforest' hreach',
            Memory.read_opened, if_neg fun h => hne (Cell.mk.inj h.2).1]
      | absent =>
          cases hnew : mem.newNode? with
          | none =>
              rw [Memory.descend_of_starved hnext hchild hnew]
              rfl
          | some taken =>
              rcases taken with ⟨node, mem'⟩
              have hfetched := Memory.fetched_of_newNode? hforest.valid hnew
              obtain ⟨hforest', -, hreach'⟩ :=
                hforest.grow hroot hreach hchild hnext hfetched
                  (flags.has .user)
              rw [← Level.pathTo_of_next hnext] at hreach'
              have hfresh : other ≠ node := by
                rintro rfl
                exact hfetched.took.fresh
                  ((hforest.allocated other).2 (Or.inl hheld))
              rw [Memory.descend_of_created hnext hchild hnew]
              apply (ih hforest' hreach').trans
              rw [Memory.read_write, if_neg fun h => hne h.1,
                hfetched.read_other hfresh]

/-- Taking out empty nodes writes to no frame that is held. -/
theorem read_reclaim_of_held (hforest : Forest mem roots held)
    (hroot : root ∈ roots) {level : Level} {node : Frame} {cells : List Cell}
    (hreach : mem.ram.Reach root level (level.pathTo va) node)
    (htrail : mem.ram.Trail root va level cells) (i : Index) {other : Frame}
    (hheld : other ∈ held) (j : Index) :
    (mem.reclaim (⟨node, i⟩ :: cells)).state.read other j =
      mem.read other j := by
  induction cells generalizing mem level node i with
  | nil => rfl
  | cons parent rest ih =>
      rw [Memory.reclaim]
      split
      · next hempty =>
          obtain ⟨hkept, -, upper, hupper, htrail'⟩ :=
            hforest.climb hroot hreach htrail hempty
          have hne := hkept.forest.ne_of_held hroot hupper hheld
          apply (ih hkept.forest hupper htrail' parent.index).trans
          change (mem.clear parent.frame parent.index).read other j = _
          rw [Memory.clear, Memory.read_write, if_neg fun h => hne h.1]
      · rfl

end Forest

namespace AddressSpace

variable {space : AddressSpace} {mem : Memory} {roots : List Frame}
  {held : Finset Frame} (hforest : Forest mem roots held)
  (hroot : space.root ∈ roots)

include hforest hroot

/-- A request to map a page writes to no frame that is held, whether or not it
is refused. -/
theorem read_mapSized_of_held (va : VirtAddr) (pa : PhysAddr) (size : PageSize)
    (flags : Flags) {frame : Frame} (hheld : frame ∈ held) (i : Index) :
    (space.mapSized mem va pa size flags).state.read frame i =
      mem.read frame i := by
  cases hanswer : (space.mapSized mem va pa size flags).value with
  | error reason =>
      obtain ⟨hrestored, -⟩ := restored_mapSized hforest hroot hanswer
      rw [hrestored.read_eq frame
          ((hforest.allocated frame).2 (Or.inl hheld)) i,
        if_neg]
      intro hmem
      obtain ⟨level, node, hreach, -⟩ := link_of_mem_linksToOpen hmem
      exact hforest.ne_of_held hroot hreach hheld rfl
  | ok mapped =>
      obtain ⟨⟨hcanonical, hva, hpa⟩, walk, node, rfl, hok, hchild⟩ :=
        walk_of_mapSized hanswer
      obtain ⟨hkept, hend⟩ := hforest.descend size.leads_above hroot .root
      have hne := hkept.forest.ne_of_held hroot (hend node hok) hheld
      rw [mapSized_of_placed hcanonical (Bool.and_eq_true_iff.2 ⟨hva, hpa⟩) rfl
          hok hchild,
        Memory.read_write, if_neg fun h => hne h.1]
      exact hforest.read_descend_of_held size.leads_above hroot .root hheld i

theorem read_map_of_held (va : VirtAddr) (pa : PhysAddr) (flags : Flags)
    {frame : Frame} (hheld : frame ∈ held) (i : Index) :
    (space.map mem va pa flags).state.read frame i = mem.read frame i := by
  rw [(space.map_eq mem va pa flags).2]
  exact read_mapSized_of_held hforest hroot va pa _ flags hheld i

/-- Unmapping writes to no frame that is held. -/
theorem read_unmap_of_held (va : VirtAddr) {frame : Frame}
    (hheld : frame ∈ held) (i : Index) :
    (space.unmap mem va).state.read frame i = mem.read frame i := by
  cases hfind : space.find? mem.ram va with
  | none =>
      rw [unmap_of_find?_eq_none hfind]
      rfl
  | some hit =>
      obtain ⟨-, -, hleaf, htrail⟩ := leafAt_hit hfind
      have hiff : ∀ {level path node},
          (mem.clear hit.cell.frame hit.cell.index).ram.Reach space.root level
              path node ↔
            mem.ram.Reach space.root level path node :=
        reach_cleared_iff hforest hroot hfind hroot
      have hne := hforest.ne_of_held hroot hleaf.reach hheld
      rw [unmap_of_find? hfind]
      apply ((forest_cleared hforest hroot hfind).read_reclaim_of_held hroot
        (hiff.2 hleaf.reach) (htrail.congr fun _ h => hiff.2 h)
        hit.cell.index hheld i).trans
      rw [Memory.clear, Memory.read_write, if_neg fun h => hne h.1]

end AddressSpace

/-- Making a space writes to no frame that is handed out. -/
theorem AddressSpace.read_create {mem : Memory} (hvalid : mem.pool.Valid)
    {space : AddressSpace} (hmade : (create mem).value = .ok space)
    {frame : Frame} (hframe : frame ∈ mem.pool.allocated) (i : Index) :
    (create mem).state.read frame i = mem.read frame i := by
  have hfetched := (fetched_of_create hvalid hmade).1
  apply hfetched.read_other
  rintro rfl
  exact hfetched.took.fresh hframe

end FourLevelPaging
