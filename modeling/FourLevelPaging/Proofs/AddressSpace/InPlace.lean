/-
Mapping a page where it is mapped already.  The walk finds all of its nodes, and
the leaf that it writes is the one that is there, so memory is the same
afterwards.
-/
import FourLevelPaging.Proofs.AddressSpace.Outcome
import FourLevelPaging.Proofs.AddressSpace.Unmap

namespace FourLevelPaging

/-- The pool is the same, and so is every entry in a frame that is handed
out. -/
structure Memory.Alike (mem mem' : Memory) : Prop where
  pool_eq : mem'.pool = mem.pool
  read_eq :
    ∀ frame ∈ mem.pool.allocated, ∀ i, mem'.read frame i = mem.read frame i

namespace Memory.Alike

variable {mem mid mem' : Memory} {roots : List Frame} {held : Finset Frame}

theorem refl (mem : Memory) : mem.Alike mem :=
  ⟨rfl, fun _ _ _ => rfl⟩

theorem trans (halike : mem.Alike mid) (halike' : mid.Alike mem') :
    mem.Alike mem' := by
  refine ⟨halike'.pool_eq.trans halike.pool_eq, fun frame hframe i => ?_⟩
  rw [halike'.read_eq frame (halike.pool_eq ▸ hframe) i,
    halike.read_eq frame hframe i]

/-- Writing what is there already. -/
theorem write {frame : Frame} {i : Index} {e : Entry}
    (hread : mem.read frame i = e) :
    mem.Alike (mem.write frame i e) := by
  refine ⟨rfl, fun other _ j => ?_⟩
  rw [Memory.read_write]
  split
  · next hcell =>
      rcases hcell with ⟨rfl, rfl⟩
      exact hread.symm
  · rfl

/-- Writing to an empty place and emptying it again. -/
theorem write_clear {frame : Frame} {i : Index}
    (hblank : mem.read frame i = .empty) (e : Entry) :
    mem.Alike ((mem.write frame i e).clear frame i) := by
  refine ⟨rfl, fun other _ j => ?_⟩
  rw [clear, read_write, read_write]
  split
  · next hcell =>
      rcases hcell with ⟨rfl, rfl⟩
      exact hblank.symm
  · rfl

/-- Writing the same into both. -/
theorem write_both (halike : mem.Alike mem') (frame : Frame) (i : Index)
    (e : Entry) :
    (mem.write frame i e).Alike (mem'.write frame i e) := by
  refine ⟨halike.pool_eq, fun other hother j => ?_⟩
  rw [read_write, read_write, halike.read_eq other hother j]

theorem restored (halike : mem.Alike mem') (hvalid : mem.pool.Valid) :
    mem.Restored [] mem' := by
  refine ⟨halike.pool_eq ▸ hvalid, halike.pool_eq ▸ .refl _, ?_,
    fun frame hframe i => ?_⟩
  · rw [halike.pool_eq]
  · rw [if_neg List.not_mem_nil]
    exact halike.read_eq frame hframe i

/-- It holds the same trees. -/
theorem trees (halike : mem.Alike mem') (hforest : Forest mem roots held) :
    Forest mem' roots held ∧ ∀ {root level path frame}, root ∈ roots →
      mem.ram.Reach root level path frame → ∀ i,
        mem'.ram.child level ⟨frame, i⟩ = mem.ram.child level ⟨frame, i⟩ :=
  hforest.of_restored (halike.restored hforest.valid) fun _ h => nomatch h

theorem reach_iff (halike : mem.Alike mem') (hforest : Forest mem roots held)
    {root : Frame} (hroot : root ∈ roots) {level : Level} {path : List Index}
    {frame : Frame} :
    mem'.ram.Reach root level path frame ↔
      mem.ram.Reach root level path frame :=
  Ram.Reach.congr_child ((halike.trees hforest).2 hroot)

end Memory.Alike

/-- A way down to a node that is there, for a page of the kernel, changes
nothing. -/
theorem Memory.descend_of_reach {mem : Memory} {va : VirtAddr} {flags : Flags}
    (huser : flags.has .user = false) {level target : Level}
    {levels : List Level} (hleads : level.Leads levels target)
    {root frame node : Frame}
    (hreach : mem.ram.Reach root level (level.pathTo va) frame)
    (hthere : mem.ram.Reach root target (target.pathTo va) node) :
    mem.descend va flags levels frame = .quiet (.ok node, []) mem := by
  induction hleads generalizing frame with
  | here =>
      obtain rfl := hreach.frame_eq hthere
      rfl
  | @next level below target rest hnext hrest ih =>
      obtain ⟨other, hbelow⟩ := hthere.passes hrest.height_le
      have hopened : mem.opened ⟨frame, level.index va⟩ flags = mem := by
        rw [opened, huser, Bool.false_and, if_neg Bool.false_ne_true]
      rw [descend_of_table (hbelow.child_above hreach hnext), hopened]
      exact ih hbelow hthere

namespace AddressSpace

variable {space : AddressSpace} {mem : Memory} {roots : List Frame}
  {held : Finset Frame} {va : VirtAddr} {pa : PhysAddr} {size : PageSize}
  {flags : Flags}

/-- What maps a page as a request would map it is the leaf that the request
would write. -/
theorem leafAt_of_lookup (hforest : Forest mem roots held)
    (hroot : space.root ∈ roots) (hva : va.isAligned size = true)
    (hpa : pa.isAligned size = true)
    (hlookup : space.lookup mem.ram va = some
      { phys := .ofNat (pa.toNat % 2 ^ 52)
        size
        flags := (flags.sanitized.put .present true).put .huge size.isHuge }) :
    va.isCanonical = true ∧ ∃ node,
      mem.ram.LeafAt space.root va size.level node (size.leaf pa flags) := by
  obtain ⟨hcanonical, level, node, e, size', hleaf, hsize, htarget⟩ :=
    lookup_eq_some_iff.1 hlookup
  have hwritten : (size.leaf pa flags).target size va = _ :=
    PageSize.target_leaf hva hpa (Nat.le_refl va.toNat)
      (Nat.lt_add_of_pos_right size.bytes_pos)
  rw [Nat.sub_self, Nat.add_zero, ← htarget] at hwritten
  obtain rfl : size = size' := congrArg Target.size hwritten
  obtain rfl := Level.level_of_leafSize hsize
  obtain ⟨hread, hp, hl⟩ := Ram.child_eq_leaf_iff.1 hleaf.child
  have haligned :=
    (hforest.proper hroot hleaf.reach (size.level.index va)).leaf size
  rw [show mem.read node (size.level.index va) = e from hread] at haligned
  have hbase : (size.leaf pa flags).base = e.base := by
    rw [← Entry.alignDown_phys_target (haligned hp hl hsize) va, ← hwritten]
    exact (Entry.alignDown_phys_target (Entry.isAligned_base_leaf hpa _)
      va).symm
  have hflags : (size.leaf pa flags).flags = e.flags :=
    congrArg Target.flags hwritten
  obtain rfl := Entry.eq_of_base_of_flags hbase hflags
  exact ⟨hcanonical, node, hleaf⟩

/-- A page of the kernel that is mapped as it is mapped already is replaced by
itself. -/
theorem mapSized_in_place (hcanonical : va.isCanonical = true)
    (hva : va.isAligned size = true) (hpa : pa.isAligned size = true)
    (huser : flags.has .user = false) {node : Frame}
    (hleaf : mem.ram.LeafAt space.root va size.level node
      (size.leaf pa flags)) :
    (space.mapSized mem va pa size flags).value =
        .ok ⟨size, some (size.leaf pa flags)⟩ ∧
      mem.Alike (space.mapSized mem va pa size flags).state := by
  have hparent : (parentFlags flags).has .user = false := by
    rw [has_user_parentFlags, huser]
  have hwalk :=
    Memory.descend_of_reach hparent size.leads_above .root hleaf.reach
  have hchild : ∀ other, mem.ram.child size.level ⟨node, size.level.index va⟩ ≠
      .table other := by
    intro other h
    rw [hleaf.child] at h
    cases h
  have hread : mem.read node (size.level.index va) = size.leaf pa flags :=
    (Ram.child_eq_leaf_iff.1 hleaf.child).1
  have hp : (size.leaf pa flags).present = true := Entry.present_leaf _ _
  rw [mapSized_of_placed hcanonical (Bool.and_eq_true_iff.2 ⟨hva, hpa⟩) hwalk
    rfl hchild]
  constructor
  · simp only [Outcome.quiet, hread, hp, ↓reduceIte]
  · exact .write hread

end AddressSpace

end FourLevelPaging
