/-
Mapping a page where nothing is mapped, unmapping it and mapping it again.
Unmapping takes back just what the mapping did, but for links that stay open to
user code, and the frames go back to the pool in such an order that the second
mapping finds them where the first did.
-/
import FourLevelPaging.Proofs.AddressSpace.Undo
import FourLevelPaging.Proofs.Manager.Outcome
import FourLevelPaging.Proofs.Manager.Refusal
import FourLevelPaging.Proofs.Manager.Unmapping

namespace FourLevelPaging.Manager

/-- The nodes are in the same frames on the same levels, all their entries are
the same, and so is the pool, with the frames that it hands out next. -/
structure SameTree (vm vm' : Manager) : Prop where
  space_eq : vm'.space = vm.space
  reach_iff : ∀ level path frame,
    vm'.memory.ram.Reach vm'.space.root level path frame ↔
      vm.memory.ram.Reach vm.space.root level path frame
  read_eq : ∀ frame, vm.memory.ram.Owns vm.space.root frame → ∀ i,
    vm'.memory.read frame i = vm.memory.read frame i
  pool_eq : vm'.memory.pool = vm.memory.pool

/-- From `vm`, the request for a page at `va` led to `vm'`, and `unmapped` takes
it back: the leaf goes and so do the nodes that were added, what is mapped is
what was mapped before, and so are the nodes and their entries, but for the
links that the request opened. -/
structure TakesBack (vm : Manager) (va : VirtAddr) (pa : PhysAddr)
    (size : PageSize) (flags : Flags) (vm' : Manager)
    (unmapped : Reported Manager (Option Unmapped)) : Prop where
  value : ∃ reclaimed,
    unmapped.value = some ⟨size, size.leaf pa flags, reclaimed⟩ ∧
      vm.Grows vm' reclaimed
  lookup_eq : unmapped.state.lookup = vm.lookup
  kept : vm.KeptBut (vm.space.linksToOpen vm.memory.ram va pa size flags)
    unmapped.state

variable {vm vm' : Manager} {va : VirtAddr} {pa : PhysAddr} {size : PageSize}
  {flags : Flags} {mapped : Mapped}

theorem sameTree_of_alike {held : Finset Frame}
    (hforest : Forest vm.memory [vm.space.root] held)
    (hspace : vm'.space = vm.space) (halike : vm.memory.Alike vm'.memory) :
    vm.SameTree vm' := by
  have hroot : vm.space.root ∈ [vm.space.root] := List.mem_singleton_self _
  refine ⟨hspace, fun level path frame => ?_, ?_, halike.pool_eq⟩
  · rw [hspace]
    exact halike.reach_iff hforest hroot
  · rintro frame ⟨level, path, hreach⟩ i
    exact halike.read_eq frame (hforest.mem_allocated_of_reach hroot hreach) i

section Fresh

variable {pool : FramePool} {held : Finset Frame}
  {walk : Reported Memory (Except MapError Frame × List Added)} {node : Frame}
  (htended : vm.Tended pool held)
  (hfresh : vm.space.Fresh vm.memory [vm.space.root] held va pa size flags
    walk node) (hspace : vm'.space = vm.space)
  (hmemory : vm'.memory =
    walk.state.write node (size.level.index va) (size.leaf pa flags))

include htended hfresh hspace hmemory

/-- Unmapping the page winds memory back to where the request found it. -/
theorem rewound_unmap {a : VirtAddr} (hle : va.toNat ≤ a.toNat)
    (hlt : a.toNat < va.toNat + size.bytes) :
    (∃ reclaimed,
        (vm'.unmap a).value = some ⟨size, size.leaf pa flags, reclaimed⟩) ∧
      (vm'.unmap a).state.space = vm.space ∧
      vm.memory.Rewound (vm.space.linksToOpen vm.memory.ram va pa size flags)
        (walk.value.2.map Added.node) walk.state.pool
        (vm'.unmap a).state.memory := by
  obtain ⟨⟨reclaimed, hvalue⟩, hrewound⟩ :=
    hfresh.rewound_unmap htended.forest htended.trim hmemory hle hlt
  obtain ⟨hspace', hmemory'⟩ := vm'.unmap_state a
  rw [hspace] at hspace' hmemory'
  rw [← hmemory'] at hrewound
  refine ⟨⟨reclaimed, ?_⟩, hspace', hrewound⟩
  change (vm'.space.unmap vm'.memory a).value = _
  rw [hspace, hvalue]

/-- From there the request leads once more to where it led the first time. -/
theorem sameTree_of_rewound {undone : Manager} (htended' : vm'.Tended pool held)
    (hundone : undone.space = vm.space)
    (hrewound : vm.memory.Rewound (vm.space.linksToOpen vm.memory.ram va pa
      size flags) (walk.value.2.map Added.node) walk.state.pool undone.memory) :
    (undone.mapSized va pa size flags).value = .ok ⟨size, none⟩ ∧
      vm'.SameTree (undone.mapSized va pa size flags).state := by
  obtain ⟨hagain, halike⟩ := hfresh.mapSized_rewound htended.forest hrewound
  rw [← hmemory] at halike
  have hspace' : (undone.mapSized va pa size flags).state.space =
      undone.space :=
    (undone.afterMap_state va _).1
  refine ⟨afterMap_eq_ok_iff.2 ?_, sameTree_of_alike htended'.forest ?_ ?_⟩
  · rw [hundone]
    exact hagain
  · exact hspace'.trans (hundone.trans hspace.symm)
  · rw [memory_mapSized, hundone]
    exact halike

end Fresh

/-- A page that was mapped where nothing was is taken back by unmapping any of
its addresses, and mapping it again leads to the very tree and pool that the
first mapping led to. -/
theorem unmap_undoes_map (hreachable : vm.Reachable)
    (hok : (vm.mapSized va pa size flags).value = .ok mapped)
    (hnew : mapped.replaced = none) (a : VirtAddr) (hle : va.toNat ≤ a.toNat)
    (hlt : a.toNat < va.toNat + size.bytes) :
    vm.TakesBack va pa size flags (vm.mapSized va pa size flags).state
        ((vm.mapSized va pa size flags).state.unmap a) ∧
      (((vm.mapSized va pa size flags).state.unmap a).state.mapSized va pa
          size flags).value =
        .ok mapped ∧
      (vm.mapSized va pa size flags).state.SameTree
        (((vm.mapSized va pa size flags).state.unmap a).state.mapSized va pa
          size flags).state := by
  obtain ⟨pool, held, htended⟩ := hreachable.tended
  obtain ⟨-, hinstalls⟩ := installs_of_mapSized hreachable hok
  have htended' := tended_mapSized htended va pa size flags
  have hspace : (vm.mapSized va pa size flags).state.space = vm.space :=
    (vm.afterMap_state va _).1
  obtain ⟨walk, node, hfresh, hmemory⟩ :=
    AddressSpace.fresh_of_mapSized htended.forest
      (List.mem_singleton_self _) (afterMap_eq_ok_iff.1 hok) hnew
  rw [← memory_mapSized] at hmemory
  obtain ⟨⟨reclaimed, hvalue⟩, hundone, hrewound⟩ :=
    rewound_unmap htended hfresh hspace hmemory hle hlt
  obtain ⟨hagain, hsame⟩ :=
    sameTree_of_rewound htended hfresh hspace hmemory htended' hundone hrewound
  obtain ⟨hkept, hlookup⟩ := keptBut_of_restored htended.forest hundone
    hrewound.restored fun _ => link_of_mem_linksToOpen
  obtain ⟨unmapped, hunmapped, -, hgrows⟩ :=
    removes_of_unmap htended' (hinstalls.inside a hle hlt)
  obtain rfl := Option.some.inj (hunmapped.symm.trans hvalue)
  have hcount := hgrows.allocatedCount_eq
  rw [← FramePool.card_allocated hrewound.restored.valid, hkept.allocated_eq,
    FramePool.card_allocated htended.forest.valid] at hcount
  refine ⟨⟨⟨reclaimed, hvalue, grows_of_tended htended htended' hcount⟩,
      hlookup, hkept⟩,
    ?_, hsame⟩
  rw [hagain, ← hinstalls.size_eq, ← hnew]

/-- A manager of a space in which a page is mapped for the kernel and, 1 GiB
further up, one for user code. -/
def userMapped : Manager :=
  (oneMapped.mapSized ⟨0x40000000⟩ ⟨0x6000⟩ .fourK
    (Flags.kernelRW.put .user true)).state

/-- Two nodes were added for the page for user code, below two that were
there. -/
theorem unmap_undoes_map_userMapped :
    oneMapped.TakesBack ⟨0x40000000⟩ ⟨0x6000⟩ .fourK
        (Flags.kernelRW.put .user true)
        userMapped (userMapped.unmap ⟨0x40000123⟩) ∧
      userMapped.tableFrames = oneMapped.tableFrames + 2 ∧
      userMapped.SameTree
        ((userMapped.unmap ⟨0x40000123⟩).state.mapSized ⟨0x40000000⟩
          ⟨0x6000⟩ .fourK (Flags.kernelRW.put .user true)).state := by
  have hok : (oneMapped.mapSized ⟨0x40000000⟩ ⟨0x6000⟩ .fourK
      (Flags.kernelRW.put .user true)).value = .ok ⟨.fourK, none⟩ := by
    decide +kernel
  have hbefore : oneMapped.tableFrames = 4 := by decide +kernel
  have hafter : userMapped.tableFrames = 6 := by decide +kernel
  obtain ⟨hback, -, hagain⟩ := unmap_undoes_map reachable_oneMapped hok rfl
    ⟨0x40000123⟩ (by decide) (by decide)
  exact ⟨hback, by omega, hagain⟩

end FourLevelPaging.Manager
