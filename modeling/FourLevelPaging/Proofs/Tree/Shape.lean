/-
The size of a trim tree.  On each level below the root there is one node for
every span of the level above in which an address is mapped by a leaf further
down, so the number of nodes follows from what is mapped.
-/
import Mathlib.Data.Set.Card
import Mathlib.Order.CompletePartialOrder
import FourLevelPaging.Proofs.Tree.Count
import FourLevelPaging.Proofs.Tree.Trim

namespace FourLevelPaging

/-- The frames of the nodes of one level. -/
def Ram.owned (ram : Ram) (root : Frame) (level : Level) : Set Frame :=
  {frame | ∃ path, ram.Reach root level path frame}

namespace Forest

variable {mem : Memory} {roots : List Frame} {held : Finset Frame}
  {root : Frame}

theorem finite_owned (hforest : Forest mem roots held) (hroot : root ∈ roots)
    (level : Level) : (mem.ram.owned root level).Finite :=
  mem.pool.allocated.finite_toSet.subset fun _ ⟨_, hreach⟩ =>
    hforest.mem_allocated_of_reach hroot hreach

/-- No frame holds nodes of two levels. -/
theorem disjoint_owned (hforest : Forest mem roots held) (hroot : root ∈ roots)
    {level level' : Level} (hne : level ≠ level') :
    Disjoint (mem.ram.owned root level) (mem.ram.owned root level') := by
  rw [Set.disjoint_left]
  rintro frame ⟨path, hreach⟩ ⟨path', hreach'⟩
  exact hne (hforest.reach_eq hroot hreach' hroot hreach).2.1

theorem owned_pml4 : mem.ram.owned root .pml4 = {root} := by
  ext frame
  rw [Set.mem_singleton_iff]
  constructor
  · rintro ⟨path, hreach⟩
    have hheight := hreach.height_add_length
    obtain rfl : path = [] := List.eq_nil_of_length_eq_zero (by
      change 3 + path.length = 3 at hheight
      omega)
    exact Ram.Reach.root.frame_eq hreach
  · rintro rfl
    exact ⟨[], .root⟩

/-- A level below the root has as many nodes as there are spans of the level
above in which an address is mapped by a leaf further down: every node lies on
the way of some address, which names its span. -/
theorem ncard_owned (hforest : Forest mem roots held)
    (htrim : mem.Trim held roots) {space : AddressSpace}
    (hroot : space.root ∈ roots) {upper level : Level}
    (hnext : upper.next = some level) :
    (mem.ram.owned space.root level).ncard =
      (space.spans mem.ram upper).ncard := by
  have hway : ∀ frame ∈ mem.ram.owned space.root level, ∃ a : VirtAddr,
      a.isCanonical = true ∧
        mem.ram.Reach space.root level (level.pathTo a) frame := by
    rintro frame ⟨path, hreach⟩
    obtain ⟨a, ha, -, rfl⟩ :=
      Level.exists_pathTo hreach.height_add_length (.ofBits 0)
    exact ⟨a, ha, hreach⟩
  choose a ha hreach using hway
  refine Set.ncard_congr
    (fun frame hframe => (a frame hframe).toNat / 2 ^ upper.shift) ?_ ?_ ?_
  · intro frame hframe
    exact (hforest.reach_iff_mem_spans htrim hroot hnext (ha frame hframe)).1
      ⟨frame, hreach frame hframe⟩
  · intro frame frame' hframe hframe' hspan
    have hpath :=
      (Level.pathTo_eq_iff hnext (ha frame hframe) (ha frame' hframe')).2 hspan
    have hreach' := hreach frame' hframe'
    rw [← hpath] at hreach'
    exact hreach'.frame_eq (hreach frame hframe)
  · intro n hn
    obtain ⟨b, target, hlookup, -, rfl⟩ := id hn
    have hb := (AddressSpace.lookup_eq_some_iff.1 hlookup).1
    obtain ⟨frame, hframe⟩ :=
      (hforest.reach_iff_mem_spans htrim hroot hnext hb).2 hn
    have hmem : frame ∈ mem.ram.owned space.root level := ⟨_, hframe⟩
    obtain ⟨-, -, hpath⟩ :=
      hforest.reach_eq hroot (hreach frame hmem) hroot hframe
    exact ⟨frame, hmem,
      ((Level.pathTo_eq_iff hnext hb (ha frame hmem)).1 hpath).symm⟩

/-- The nodes that are counted are those of the four levels. -/
theorem countNodes_eq (hforest : Forest mem roots held) (hroot : root ∈ roots) :
    mem.ram.countNodes Level.all root =
      (mem.ram.owned root .pml4).ncard + (mem.ram.owned root .pdpt).ncard +
        (mem.ram.owned root .pd).ncard + (mem.ram.owned root .pt).ncard := by
  have hfinite := hforest.finite_owned hroot
  have hnodes : ((mem.ram.nodes Level.all root).toFinset : Set Frame) =
      mem.ram.owned root .pml4 ∪ mem.ram.owned root .pdpt ∪
        mem.ram.owned root .pd ∪
        mem.ram.owned root .pt := by
    ext frame
    rw [Finset.mem_coe, List.mem_toFinset, Ram.mem_nodes_root_iff]
    constructor
    · rintro ⟨level, path, hreach⟩
      cases level with
      | pml4 => exact Or.inl (Or.inl (Or.inl ⟨path, hreach⟩))
      | pdpt => exact Or.inl (Or.inl (Or.inr ⟨path, hreach⟩))
      | pd => exact Or.inl (Or.inr ⟨path, hreach⟩)
      | pt => exact Or.inr ⟨path, hreach⟩
    · rintro (((⟨path, hreach⟩ | ⟨path, hreach⟩) | ⟨path, hreach⟩) |
        ⟨path, hreach⟩)
      all_goals exact ⟨_, path, hreach⟩
  have hnodup : (mem.ram.nodes Level.all root).Nodup :=
    hforest.nodup_nodes hroot .root
  have hupper :
      Disjoint (mem.ram.owned root .pml4) (mem.ram.owned root .pdpt) :=
    hforest.disjoint_owned hroot (by decide)
  have hmiddle :
      Disjoint (mem.ram.owned root .pml4 ∪ mem.ram.owned root .pdpt)
        (mem.ram.owned root .pd) :=
    Set.disjoint_union_left.2 ⟨hforest.disjoint_owned hroot (by decide),
      hforest.disjoint_owned hroot (by decide)⟩
  have hlower :
      Disjoint (mem.ram.owned root .pml4 ∪ mem.ram.owned root .pdpt ∪
        mem.ram.owned root .pd) (mem.ram.owned root .pt) :=
    Set.disjoint_union_left.2 ⟨Set.disjoint_union_left.2
      ⟨hforest.disjoint_owned hroot (by decide), hforest.disjoint_owned hroot
        (by decide)⟩, hforest.disjoint_owned hroot (by decide)⟩
  have htop := (hfinite .pml4).union (hfinite .pdpt)
  rw [← Ram.length_nodes, ← List.toFinset_card_of_nodup hnodup,
    ← Set.ncard_coe_finset, hnodes,
    Set.ncard_union_eq hlower (htop.union (hfinite .pd)) (hfinite .pt),
    Set.ncard_union_eq hmiddle htop (hfinite .pd),
    Set.ncard_union_eq hupper (hfinite .pml4) (hfinite .pdpt)]

end Forest

/-- What is mapped determines how many nodes there are. -/
theorem AddressSpace.tableFrames_eq {mem : Memory} {roots : List Frame}
    {held : Finset Frame} {space : AddressSpace}
    (hforest : Forest mem roots held) (htrim : mem.Trim held roots)
    (hroot : space.root ∈ roots) :
    space.tableFrames mem.ram =
      1 + (space.spans mem.ram .pml4).ncard +
        (space.spans mem.ram .pdpt).ncard +
        (space.spans mem.ram .pd).ncard := by
  have hpdpt :=
    hforest.ncard_owned htrim hroot (show Level.pml4.next = some .pdpt from rfl)
  have hpd :=
    hforest.ncard_owned htrim hroot (show Level.pdpt.next = some .pd from rfl)
  have hpt :=
    hforest.ncard_owned htrim hroot (show Level.pd.next = some .pt from rfl)
  rw [AddressSpace.tableFrames, hforest.countNodes_eq hroot, Forest.owned_pml4,
    Set.ncard_singleton, hpdpt, hpd, hpt]

end FourLevelPaging
