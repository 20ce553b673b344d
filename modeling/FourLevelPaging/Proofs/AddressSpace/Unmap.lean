/-
Unmapping one page.  The leaf is cleared, and the nodes on its way that are left
without entries are unlinked and handed back one after the other; no other leaf
is touched, and no empty node stays behind.
-/
import FourLevelPaging.AddressSpace.Unmap
import FourLevelPaging.Proofs.FramePool.Count
import FourLevelPaging.Proofs.Tree.Trim

namespace FourLevelPaging

namespace Ram

variable {ram : Ram} {root : Frame} {va : VirtAddr}

/-- The entry above a node on the way of an address leads to the node. -/
theorem Reach.child_above {level upper : Level} {frame node : Frame}
    (hreach : ram.Reach root level (level.pathTo va) node)
    (hupper : ram.Reach root upper (upper.pathTo va) frame)
    (hnext : upper.next = some level) :
    ram.child upper ⟨frame, upper.index va⟩ = .table node := by
  rw [Level.pathTo_of_next hnext] at hreach
  cases hreach with
  | step hreach' _ hchild =>
      obtain rfl := hupper.level_eq hreach'
      obtain rfl := hupper.frame_eq hreach'
      exact hchild

theorem child_of_isEmpty {level : Level} {frame : Frame}
    (hempty : (ram.node frame).isEmpty = true) (i : Index) :
    ram.child level ⟨frame, i⟩ = .absent :=
  child_of_not_present (Node.isEmpty_iff.1 hempty i)

end Ram

namespace Forest

variable {mem : Memory} {roots : List Frame} {held : Finset Frame}
  {root : Frame} {va : VirtAddr}

/-- Unlinking an empty node and handing it back. -/
theorem detach (hforest : Forest mem roots held) (hroot : root ∈ roots)
    {level below : Level} {path : List Index} {frame node : Frame} {i : Index}
    (hreach : mem.ram.Reach root level path frame)
    (hchild : mem.ram.child level ⟨frame, i⟩ = .table node)
    (hnext : level.next = some below)
    (hempty : ∀ j, mem.ram.child below ⟨node, j⟩ = .absent) :
    Kept mem roots held ((mem.clear frame i).giveBack node) := by
  have howns : mem.ram.Owns root node := ⟨_, _, .step hreach hnext hchild⟩
  have hforest' := hforest.unlink hroot hreach hchild hnext hempty
  have hleaves := hforest.sameLeaves_unlink hroot hreach hchild hnext hempty
  obtain ⟨hforest'', hleaves', hquiet⟩ :=
    hforest'.giveBack (Finset.mem_insert_self node held)
  rw [Finset.erase_insert (hforest.apart hroot howns)] at hforest''
  refine ⟨hforest'', hleaves.trans hleaves', ?_⟩
  rw [hquiet]
  exact .empty

/-- Taking out an empty node leads up to the node above it, which stays on the
way of the address. -/
theorem climb (hforest : Forest mem roots held) (hroot : root ∈ roots)
    {level : Level} {node : Frame} {parent : Cell} {cells : List Cell}
    (hreach : mem.ram.Reach root level (level.pathTo va) node)
    (htrail : mem.ram.Trail root va level (parent :: cells))
    (hempty : (mem.ram.node node).isEmpty = true) :
    Kept mem roots held ((mem.clear parent.frame parent.index).giveBack node) ∧
      mem.pool.Freed node
        ((mem.clear parent.frame parent.index).giveBack node).state.pool ∧
      ∃ upper,
        ((mem.clear parent.frame parent.index).giveBack node).state.ram.Reach
            root upper (upper.pathTo va) parent.frame ∧
          ((mem.clear parent.frame parent.index).giveBack node).state.ram.Trail
            root va upper cells := by
  cases htrail with
  | @step upper _ _ frame htrail hupper hnext =>
      have hchild := hreach.child_above hupper hnext
      have habsent : ∀ j, mem.ram.child level ⟨node, j⟩ = .absent :=
        Ram.child_of_isEmpty hempty
      have hiff : ∀ {level' path' frame'},
          ((mem.clear frame (upper.index va)).giveBack node).state.ram.Reach
              root level' path' frame' ↔
            mem.ram.Reach root level' path' frame' ∧ frame' ≠ node :=
        hforest.reach_unlink_iff hroot hupper hchild hnext habsent hroot
      have hheight := Level.height_of_next hnext
      have hother : ∀ {level' frame'}, level.height < level'.height →
          mem.ram.Reach root level' (level'.pathTo va) frame' →
          frame' ≠ node := by
        rintro level' frame' hlt h rfl
        obtain ⟨-, rfl, -⟩ := hforest.reach_eq hroot hreach hroot h
        exact Nat.lt_irrefl _ hlt
      refine ⟨hforest.detach hroot hupper hchild hnext habsent, ?_, upper,
        ?_, ?_⟩
      · exact (FramePool.freed_giveBack hforest.valid
          (hforest.mem_allocated_of_reach hroot hreach)).1
      · exact hiff.2 ⟨hupper, hother (by omega) hupper⟩
      · exact htrail.congr fun hlt h => hiff.2 ⟨h, hother (by omega) h⟩

/-- Empty nodes were taken out from `node` upwards: the trees and leaves are
kept, as many frames went back to the pool as are counted, and no node is left
empty if `node` was the only one that could be. -/
structure Reclaimed (mem : Memory) (roots : List Frame) (held : Finset Frame)
    (node : Frame) (done : Reported Memory Nat) : Prop where
  kept : Kept mem roots held done
  region : mem.pool.SameRegion done.state.pool
  count : mem.pool.allocatedCount = done.state.pool.allocatedCount + done.value
  trim : mem.Trim held (node :: roots) → done.state.Trim held roots

theorem reclaimed_of_not_empty (hforest : Forest mem roots held) {node : Frame}
    (hempty : ¬(mem.ram.node node).isEmpty = true) :
    Reclaimed mem roots held node (.quiet 0 mem) := by
  refine ⟨⟨hforest, .refl _ _, .empty⟩, .refl _, rfl, fun htrim => ?_⟩
  rw [Node.isEmpty_iff, not_forall] at hempty
  rcases hempty with ⟨i, hi⟩
  exact htrim.of_entry (Bool.not_eq_false _ ▸ hi)

/-- Taking out empty nodes from the end of a way upwards. -/
theorem reclaim (hforest : Forest mem roots held) (hroot : root ∈ roots)
    {level : Level} {node : Frame} {cells : List Cell}
    (hreach : mem.ram.Reach root level (level.pathTo va) node)
    (htrail : mem.ram.Trail root va level cells) (i : Index) :
    Reclaimed mem roots held node (mem.reclaim (⟨node, i⟩ :: cells)) := by
  induction cells generalizing mem level node i with
  | nil =>
      refine ⟨⟨hforest, .refl _ _, .empty⟩, .refl _, rfl, fun htrim => ?_⟩
      cases htrail
      cases hreach
      exact htrim.mono fun frame hmem => by
        rcases List.mem_cons.1 hmem with rfl | hmem
        · exact hroot
        · exact hmem
  | cons parent rest ih =>
      rw [Memory.reclaim]
      split
      · next hempty =>
          obtain ⟨hkept, hfreed, upper, hupper, htrail'⟩ :=
            hforest.climb hroot hreach htrail hempty
          have hrest := ih hkept.forest hupper htrail' parent.index
          have hcount := hfreed.allocatedCount_eq hforest.valid
          have hreported : AllAccepted
              (((mem.clear parent.frame parent.index).giveBack node).events.push
                (.nodeReclaimed node)) :=
            hkept.accepted.push fun _ => nofun
          refine ⟨⟨hrest.kept.forest, hkept.leaves.trans hrest.kept.leaves,
              hreported.append hrest.kept.accepted⟩,
            hfreed.region.trans hrest.region, ?_, fun htrim => hrest.trim ?_⟩
          · exact hcount.trans (congrArg (· + 1) hrest.count)
          · have hcleared := htrim.clear parent.frame parent.index
            refine Memory.Trim.giveBack (hcleared.mono fun frame => ?_) hfreed
            simp only [List.mem_cons]
            tauto
      · next hempty => exact hforest.reclaimed_of_not_empty hempty

end Forest

/-- The page of `target` that holds `va` was taken away from what `before` maps,
and nothing else; `unmapped` is the leaf that mapped it. -/
structure Removes (before after : VirtAddr → Option Target) (va : VirtAddr)
    (target : Target) (unmapped : Unmapped) : Prop where
  size_eq : unmapped.size = target.size
  base_eq : unmapped.entry.base = target.phys.alignDown target.size
  flags_eq : unmapped.entry.flags = target.flags
  inside :
    ∀ a : VirtAddr, a.page target.size = va.page target.size → after a = none
  outside : ∀ a : VirtAddr, a.page target.size ≠ va.page target.size →
    after a = before a

/-- The base of a leaf is where it takes the first address of its page. -/
theorem Entry.alignDown_phys_target {e : Entry} {size : PageSize}
    (haligned : e.base.isAligned size = true) (va : VirtAddr) :
    (e.target size va).phys.alignDown size = e.base := by
  have hbase : e.base.toNat < 2 ^ 52 := by
    have hlt := e.frameNumber.isLt
    rw [e.toNat_base, show PageSize.fourK.bytes = 4096 from rfl]
    omega
  have hoffset : va.toNat % size.bytes < size.bytes :=
    Nat.mod_lt _ size.bytes_pos
  have hbytes := size.bytes_le_oneG
  have hphys : (e.target size va).phys.toNat =
      e.base.toNat + va.toNat % size.bytes := by
    change ((e.base.page size).join (va.offset size)).toNat = _
    rw [Page.join, Address.toNat_base_page haligned]
    exact Address.toNat_ofNat_of_lt (by
      change e.base.toNat + va.toNat % size.bytes < 2 ^ 64
      omega)
  have hmultiple := Nat.div_mul_cancel
    (Nat.dvd_of_mod_eq_zero (Address.isAligned_iff.1 haligned))
  apply Address.toNat_inj.1
  rw [Address.toNat_alignDown, hphys, ← hmultiple, Nat.add_comm,
    Nat.add_mul_div_right _ _ size.bytes_pos, Nat.div_eq_of_lt hoffset,
    Nat.zero_add]

namespace AddressSpace

variable {space : AddressSpace} {mem : Memory} {roots : List Frame}
  {held : Finset Frame} {va : VirtAddr} {hit : Hit}

theorem unmap_of_find?_eq_none (hfind : space.find? mem.ram va = none) :
    space.unmap mem va = .quiet none mem := by
  simp [unmap, hfind]

theorem unmap_of_find? (hfind : space.find? mem.ram va = some hit) :
    space.unmap mem va =
      let freed := Memory.reclaim (hit.cell :: hit.above.reverse)
        (mem.clear hit.cell.frame hit.cell.index)
      ⟨some ⟨hit.size, hit.entry, freed.value⟩, freed.state,
        #[.leafUnmapped va hit.size] ++ freed.events⟩ := by
  simp [unmap, hfind]

/-- The leaf found for an address. -/
theorem leafAt_hit (hfind : space.find? mem.ram va = some hit) :
    va.isCanonical = true ∧ hit.cell.index = hit.size.level.index va ∧
      mem.ram.LeafAt space.root va hit.size.level hit.cell.frame hit.entry ∧
        mem.ram.Trail space.root va hit.size.level hit.above.reverse := by
  obtain ⟨hcanonical, last, hleaf, hindex, hsize, htrail⟩ :=
    leafAt_of_find? hfind
  obtain rfl := Level.level_of_leafSize hsize
  exact ⟨hcanonical, hindex, hleaf, htrail⟩

section Cleared

variable (hforest : Forest mem roots held) (hroot : space.root ∈ roots)
  (hfind : space.find? mem.ram va = some hit)

include hfind in
theorem child_hit_ne_table (node : Frame) :
    mem.ram.child hit.size.level ⟨hit.cell.frame, hit.cell.index⟩ ≠
        .table node ∧
      (mem.clear hit.cell.frame hit.cell.index).ram.child hit.size.level
        ⟨hit.cell.frame, hit.cell.index⟩ ≠ .table node := by
  obtain ⟨-, hindex, hleaf, -⟩ := leafAt_hit hfind
  rw [mem.child_clear_self, hindex, hleaf.child]
  exact ⟨Child.noConfusion, Child.noConfusion⟩

include hforest hroot hfind

/-- Clearing a leaf keeps the trees. -/
theorem forest_cleared :
    Forest (mem.clear hit.cell.frame hit.cell.index) roots held :=
  hforest.put hroot (leafAt_hit hfind).2.2.1.reach
    (fun node => (child_hit_ne_table hfind node).1)
    (fun node => (child_hit_ne_table hfind node).2) (Entry.proper_empty _)

theorem reach_cleared_iff {root : Frame} (hmem : root ∈ roots) {level : Level}
    {path : List Index} {frame : Frame} :
    (mem.clear hit.cell.frame hit.cell.index).ram.Reach root level path frame ↔
      mem.ram.Reach root level path frame :=
  hforest.reach_put_iff hroot (leafAt_hit hfind).2.2.1.reach
    (fun node => (child_hit_ne_table hfind node).1)
    (fun node => (child_hit_ne_table hfind node).2) hmem

/-- The page of a leaf that is cleared is no longer mapped. -/
theorem lookup_cleared_inside {a : VirtAddr}
    (hpage : a.page hit.size = va.page hit.size) :
    space.lookup (mem.clear hit.cell.frame hit.cell.index).ram a = none := by
  obtain ⟨hcanonical, hindex, hleaf, -⟩ := leafAt_hit hfind
  cases ha : a.isCanonical with
  | false => exact lookup_of_not_canonical ha
  | true =>
      rw [Address.page_eq_iff, ← PageSize.two_pow_shift_level,
        ← Level.index_pathTo_eq_iff ha hcanonical] at hpage
      have hreach :
          (mem.clear hit.cell.frame hit.cell.index).ram.Reach space.root
            hit.size.level (hit.size.level.pathTo a) hit.cell.frame := by
        rw [hpage.2, reach_cleared_iff hforest hroot hfind hroot]
        exact hleaf.reach
      apply lookup_of_absent hreach
      rw [hpage.1, ← hindex]
      exact mem.child_clear_self _ _ _

theorem lookup_cleared_outside {a : VirtAddr}
    (hpage : a.page hit.size ≠ va.page hit.size) :
    space.lookup (mem.clear hit.cell.frame hit.cell.index).ram a =
      space.lookup mem.ram a := by
  obtain ⟨hcanonical, hindex, hleaf, -⟩ := leafAt_hit hfind
  cases ha : a.isCanonical with
  | false => rw [lookup_of_not_canonical ha, lookup_of_not_canonical ha]
  | true =>
      rw [Ne, Address.page_eq_iff, ← PageSize.two_pow_shift_level,
        ← Level.index_pathTo_eq_iff ha hcanonical, ← hindex] at hpage
      exact lookup_congr fun level e => exists_congr fun frame =>
        hforest.leafAt_put_iff hroot hleaf.reach
          (fun node => (child_hit_ne_table hfind node).1)
          (fun node => (child_hit_ne_table hfind node).2) hroot fun h =>
            hpage h.2

theorem reclaimed_cleared :
    Forest.Reclaimed (mem.clear hit.cell.frame hit.cell.index) roots held
      hit.cell.frame (Memory.reclaim (hit.cell :: hit.above.reverse)
        (mem.clear hit.cell.frame hit.cell.index)) := by
  obtain ⟨-, -, hleaf, htrail⟩ := leafAt_hit hfind
  have hiff : ∀ {level path frame},
      (mem.clear hit.cell.frame hit.cell.index).ram.Reach space.root level
          path frame ↔
        mem.ram.Reach space.root level path frame :=
    reach_cleared_iff hforest hroot hfind hroot
  exact (forest_cleared hforest hroot hfind).reclaim hroot (hiff.2 hleaf.reach)
    (htrail.congr fun _ h => hiff.2 h) hit.cell.index

end Cleared

/-- Unmapping keeps the trees. -/
theorem forest_unmap (hforest : Forest mem roots held)
    (hroot : space.root ∈ roots) (va : VirtAddr) :
    Forest (space.unmap mem va).state roots held ∧
      AllAccepted (space.unmap mem va).events := by
  cases hfind : space.find? mem.ram va with
  | none =>
      rw [unmap_of_find?_eq_none hfind]
      exact ⟨hforest, .empty⟩
  | some hit =>
      have hkept := (reclaimed_cleared hforest hroot hfind).kept
      have hunmapped : AllAccepted #[.leafUnmapped va hit.size] :=
        .singleton fun _ => nofun
      rw [unmap_of_find? hfind]
      exact ⟨hkept.forest, hunmapped.append hkept.accepted⟩

theorem tended_unmap {pool : FramePool} (htended : mem.Tended pool roots held)
    (hroot : space.root ∈ roots) (va : VirtAddr) :
    (space.unmap mem va).state.Tended pool roots held := by
  refine ⟨(forest_unmap htended.forest hroot va).1, ?_, ?_⟩
  · cases hfind : space.find? mem.ram va with
    | none =>
        rw [unmap_of_find?_eq_none hfind]
        exact htended.trim
    | some hit =>
        rw [unmap_of_find? hfind]
        exact (reclaimed_cleared htended.forest hroot hfind).trim
          (htended.trim.clear hit.cell.frame hit.cell.index)
  · cases hfind : space.find? mem.ram va with
    | none =>
        rw [unmap_of_find?_eq_none hfind]
        exact htended.region
    | some hit =>
        rw [unmap_of_find? hfind]
        exact htended.region.trans
          (reclaimed_cleared htended.forest hroot hfind).region

theorem unmap_of_lookup_eq_none (hlookup : space.lookup mem.ram va = none) :
    space.unmap mem va = .quiet none mem :=
  unmap_of_find?_eq_none (Option.map_eq_none_iff.1 hlookup)

/-- Unmapping an address that is mapped takes its page away. -/
theorem removes_of_unmap (hforest : Forest mem roots held)
    (hroot : space.root ∈ roots) {target : Target}
    (hlookup : space.lookup mem.ram va = some target) :
    ∃ unmapped, (space.unmap mem va).value = some unmapped ∧
      Removes (space.lookup mem.ram)
        (space.lookup (space.unmap mem va).state.ram) va target unmapped ∧
      mem.pool.allocatedCount =
        (space.unmap mem va).state.pool.allocatedCount +
          unmapped.reclaimed := by
  obtain ⟨hit, hfind, rfl⟩ := Option.map_eq_some_iff.1 hlookup
  obtain ⟨-, hindex, hleaf, -⟩ := leafAt_hit hfind
  have hreclaimed := reclaimed_cleared hforest hroot hfind
  obtain ⟨hentry, hp, hl⟩ := Ram.child_eq_leaf_iff.1 hleaf.child
  have hproper := hforest.proper hroot hleaf.reach (hit.size.level.index va)
  have haligned := hproper.leaf hit.size
  rw [show mem.read hit.cell.frame (hit.size.level.index va) =
    hit.entry from hentry] at haligned
  rw [unmap_of_find? hfind]
  refine ⟨_, rfl, ⟨rfl, ?_, rfl, ?_, ?_⟩, hreclaimed.count⟩
  · exact (Entry.alignDown_phys_target
      (haligned hp hl (PageSize.leafSize_level hit.size)) va).symm
  · intro a hpage
    exact (hreclaimed.kept.leaves.lookup_eq hroot a).trans
      (lookup_cleared_inside hforest hroot hfind hpage)
  · intro a hpage
    exact (hreclaimed.kept.leaves.lookup_eq hroot a).trans
      (lookup_cleared_outside hforest hroot hfind hpage)

end AddressSpace

end FourLevelPaging
