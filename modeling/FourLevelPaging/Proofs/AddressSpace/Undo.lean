/-
Unmapping a page that was mapped where nothing was.  Memory is as it was before,
but for links that stay open to user code, and mapping the page once more leads
to where it led the first time.
-/
import FourLevelPaging.Proofs.Tree.Rewind

namespace FourLevelPaging

namespace AddressSpace

variable {space : AddressSpace} {mem mem' : Memory} {roots : List Frame}
  {held : Finset Frame} {va : VirtAddr} {pa : PhysAddr} {size : PageSize}
  {flags : Flags} {mapped : Mapped}
  {walk : Reported Memory (Except MapError Frame × List Added)} {node : Frame}

/-- What a request does that maps a page where nothing was: a way down to a
place that is empty. -/
structure Fresh (space : AddressSpace) (mem : Memory) (roots : List Frame)
    (held : Finset Frame) (va : VirtAddr) (pa : PhysAddr) (size : PageSize)
    (flags : Flags)
    (walk : Reported Memory (Except MapError Frame × List Added))
    (node : Frame) : Prop where
  walk_eq : mem.descend va (parentFlags flags) size.above space.root = walk
  answer : walk.value.1 = .ok node
  placed : space.Placed mem roots held va pa size walk.state node
  blank : walk.state.read node (size.level.index va) = .empty

theorem fresh_of_mapSized (hforest : Forest mem roots held)
    (hroot : space.root ∈ roots)
    (hok : (space.mapSized mem va pa size flags).value = .ok mapped)
    (hnew : mapped.replaced = none) :
    ∃ walk node, space.Fresh mem roots held va pa size flags walk node ∧
      (space.mapSized mem va pa size flags).state =
        walk.state.write node (size.level.index va) (size.leaf pa flags) := by
  obtain ⟨⟨hcanonical, hva, hpa⟩, walk, node, hwalk, hanswer, hchild⟩ :=
    walk_of_mapSized hok
  obtain ⟨hkept, hend⟩ := hforest.descend size.leads_above hroot .root
  rw [hwalk] at hkept hend
  rw [mapSized_of_placed hcanonical (Bool.and_eq_true_iff.2 ⟨hva, hpa⟩) hwalk
    hanswer hchild] at hok ⊢
  cases hok
  have hreach := hend node hanswer
  have hnone :
      (walk.state.read node (size.level.index va)).present = false := by
    simpa using hnew
  exact ⟨walk, node, ⟨hwalk, hanswer,
    ⟨hcanonical, hva, hpa, hroot, hkept.forest, hkept.leaves, hreach, hchild⟩,
    (hkept.forest.proper hroot hreach _).absent hnone⟩, rfl⟩

namespace Fresh

variable (hfresh : space.Fresh mem roots held va pa size flags walk node)

include hfresh

theorem linksToOpen_eq : space.linksToOpen mem.ram va pa size flags =
    mem.ram.linksToOpen va flags size.above space.root := by
  simp [linksToOpen, hfresh.placed.canonical, hfresh.placed.aligned_va,
    hfresh.placed.aligned_pa]

/-- Unmapping takes away the leaf of the page and the nodes that were added for
it, and no other. -/
theorem rewound_unmap (hforest : Forest mem roots held)
    (htrim : mem.Trim held roots) (hstate : mem' = walk.state.write node
      (size.level.index va) (size.leaf pa flags)) {a : VirtAddr}
    (hle : va.toNat ≤ a.toNat) (hlt : a.toNat < va.toNat + size.bytes) :
    (∃ reclaimed,
        (space.unmap mem' a).value =
          some ⟨size, size.leaf pa flags, reclaimed⟩) ∧
      mem.Rewound (space.linksToOpen mem.ram va pa size flags)
        (walk.value.2.map Added.node) walk.state.pool
        (space.unmap mem' a).state := by
  have hplaced := hfresh.placed
  obtain ⟨hcanonical, hindex, hpath⟩ :=
    PageSize.way_of_mem_page hplaced.aligned_va
      hplaced.canonical hle hlt (Nat.le_refl _)
  have hleaf := hplaced.leafAt_inside flags hindex hpath
  rw [← hstate] at hleaf
  obtain ⟨above, hfound⟩ := hleaf.walk size.leafSize_level
  have hfind : space.find? mem'.ram a =
      some ⟨above, ⟨node, size.level.index a⟩, size.leaf pa flags, size⟩ := by
    rw [find?, if_pos hcanonical, hfound]
  obtain ⟨-, -, -, htrail⟩ := leafAt_hit hfind
  have hbefore : walk.state.ram.Trail space.root a size.level above.reverse :=
    htrail.congr fun _ hreach => by
      rw [hstate] at hreach
      exact (hplaced.forest.reach_put_iff hplaced.root_mem hplaced.reach
        hplaced.not_table
        (walk.state.child_write_leaf_ne_table node _ size pa flags)
        hplaced.root_mem).1 hreach
  have halike : walk.state.Alike (mem'.clear node (size.level.index a)) := by
    rw [hstate, hindex]
    exact .write_clear hfresh.blank _
  rw [unmap_of_find? hfind, hfresh.linksToOpen_eq]
  exact ⟨⟨_, rfl⟩,
    hforest.rewound_reclaim size.leads_above htrim hplaced.root_mem .root
      hfresh.walk_eq hfresh.answer (hbefore.congr_way hpath.symm) halike _⟩

/-- Where the page was unmapped again, the request is carried out as it was the
first time. -/
theorem mapSized_rewound (hforest : Forest mem roots held)
    (hrewound : mem.Rewound (space.linksToOpen mem.ram va pa size flags)
      (walk.value.2.map Added.node) walk.state.pool mem') :
    (space.mapSized mem' va pa size flags).value = .ok ⟨size, none⟩ ∧
      (walk.state.write node (size.level.index va) (size.leaf pa flags)).Alike
        (space.mapSized mem' va pa size flags).state := by
  have hplaced := hfresh.placed
  rw [hfresh.linksToOpen_eq] at hrewound
  obtain ⟨hvalue, halike⟩ := hforest.descend_rewound size.leads_above
    hplaced.root_mem .root hfresh.walk_eq hfresh.answer hrewound
  have hempty := (halike.read_eq node
    (hplaced.forest.mem_allocated_of_reach hplaced.root_mem hplaced.reach)
    (size.level.index va)).trans hfresh.blank
  have hfree : ∀ other, (mem'.descend va (parentFlags flags) size.above
        space.root).state.ram.child size.level ⟨node, size.level.index va⟩ ≠
      .table other := by
    intro other
    rw [Memory.child_of_read_empty hempty]
    exact Child.noConfusion
  rw [mapSized_of_placed hplaced.canonical
    (Bool.and_eq_true_iff.2 ⟨hplaced.aligned_va, hplaced.aligned_pa⟩) rfl
    ((congrArg Prod.fst hvalue).trans hfresh.answer) hfree, hempty]
  exact ⟨rfl, halike.write_both _ _ _⟩

end Fresh

end AddressSpace

end FourLevelPaging
