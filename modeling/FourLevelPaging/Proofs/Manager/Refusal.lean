/-
What a mapping request that is refused leaves behind.  The nodes and the frames
handed out are the same as before, but links on the way of the address may have
been opened to user code, and they stay open.
-/
import FourLevelPaging.Proofs.Manager.Mapping

namespace FourLevelPaging

theorem Entry.put_true_eq_self_iff {e : Entry} {x : Field}
    (hwidth : x.slot.width = 1) :
    e.put x true = e ↔ e.has x = true := by
  constructor
  · intro h
    have hset : (e.put x true).has x = true :=
      Field.isSet_put_self x true e.bits
    rwa [h] at hset
  · exact put_true_of_has hwidth

namespace Manager

variable {vm vm' : Manager} {va : VirtAddr} {pa : PhysAddr} {size : PageSize}
  {flags : Flags} {opened : List Cell}

/-- The nodes of the tree and the frames handed out are the same, and so is
every entry of a node but for those in `opened`, which are open to user code
now. -/
structure KeptBut (vm : Manager) (opened : List Cell) (vm' : Manager) :
    Prop where
  nodes : ∀ frame, vm'.memory.ram.Owns vm'.space.root frame ↔
    vm.memory.ram.Owns vm.space.root frame
  allocated_eq : vm'.memory.pool.allocated = vm.memory.pool.allocated
  read_eq : ∀ frame, vm.memory.ram.Owns vm.space.root frame → ∀ i,
    vm'.memory.read frame i =
      if ⟨frame, i⟩ ∈ opened then (vm.memory.read frame i).put .user true
      else vm.memory.read frame i

/-- Every entry of every node of the tree holds what it held before. -/
def EntriesKept (vm vm' : Manager) : Prop :=
  ∀ frame, vm.memory.ram.Owns vm.space.root frame → ∀ i,
    vm'.memory.read frame i = vm.memory.read frame i

theorem entriesKept_iff (hkept : vm.KeptBut opened vm')
    (hopened : ∀ cell ∈ opened, vm.memory.ram.Owns vm.space.root cell.frame) :
    vm.EntriesKept vm' ↔
      ∀ cell ∈ opened,
        (vm.memory.read cell.frame cell.index).has .user = true := by
  constructor
  · intro h cell hmem
    have hread := hkept.read_eq cell.frame (hopened cell hmem) cell.index
    rw [h cell.frame (hopened cell hmem), if_pos hmem] at hread
    exact (Entry.put_true_eq_self_iff rfl).1 hread.symm
  · intro h frame howns i
    rw [hkept.read_eq frame howns i]
    split
    · next hmem =>
        have huser : (vm.memory.read frame i).has .user = true :=
          h ⟨frame, i⟩ hmem
        exact Entry.put_true_of_has rfl huser
    · rfl

/-- Memory that is restored but for links that were opened. -/
theorem keptBut_of_restored {held : Finset Frame}
    (hforest : Forest vm.memory [vm.space.root] held)
    (hspace : vm'.space = vm.space)
    (hrestored : vm.memory.Restored opened vm'.memory)
    (hopened : ∀ cell ∈ opened, ∃ level path node,
      vm.memory.ram.Reach vm.space.root level path cell.frame ∧
        vm.memory.ram.child level cell = .table node) :
    vm.KeptBut opened vm' ∧ vm'.lookup = vm.lookup := by
  have hroot : vm.space.root ∈ [vm.space.root] := List.mem_singleton_self _
  obtain ⟨-, hsame⟩ := hforest.of_restored hrestored fun cell hmem =>
    ⟨vm.space.root, hroot, hopened cell hmem⟩
  refine ⟨⟨?_, hrestored.allocated_eq, ?_⟩, ?_⟩
  · intro frame
    rw [hspace]
    exact exists_congr fun level => exists_congr fun path =>
      Ram.Reach.congr_child (hsame hroot)
  · rintro frame ⟨level, path, hreach⟩ i
    exact hrestored.read_eq frame
      (hforest.mem_allocated_of_reach hroot hreach) i
  · change vm'.space.lookup vm'.memory.ram = vm.space.lookup vm.memory.ram
    rw [hspace]
    exact funext ((Forest.sameLeaves_of_child hsame).lookup_eq hroot)

theorem link_of_mem_linksToOpen {cell : Cell}
    (hmem : cell ∈ vm.space.linksToOpen vm.memory.ram va pa size flags) :
    ∃ level path node, vm.memory.ram.Reach vm.space.root level path cell.frame ∧
      vm.memory.ram.child level cell = .table node := by
  obtain ⟨level, node, hlink⟩ := AddressSpace.link_of_mem_linksToOpen hmem
  exact ⟨level, _, node, hlink⟩

theorem keptBut_of_mapSized (hreachable : vm.Reachable) {reason : ManagerError}
    (herror : (vm.mapSized va pa size flags).value = .error reason) :
    vm.KeptBut (vm.space.linksToOpen vm.memory.ram va pa size flags)
      (vm.mapSized va pa size flags).state := by
  obtain ⟨held, hforest⟩ := hreachable.forest
  obtain ⟨cause, -, hcause⟩ := afterMap_eq_error_iff.1 herror
  obtain ⟨hspace, hmemory⟩ :=
    vm.afterMap_state va (vm.space.mapSized vm.memory va pa size flags)
  obtain ⟨hrestored, -⟩ :=
    AddressSpace.restored_mapSized hforest (List.mem_singleton_self _) hcause
  rw [← hmemory] at hrestored
  exact (keptBut_of_restored hforest hspace hrestored fun _ =>
    link_of_mem_linksToOpen).1

theorem owns_of_mem_linksToOpen {cell : Cell}
    (hmem : cell ∈ vm.space.linksToOpen vm.memory.ram va pa size flags) :
    vm.memory.ram.Owns vm.space.root cell.frame := by
  obtain ⟨level, path, node, hreach, -⟩ := link_of_mem_linksToOpen hmem
  exact ⟨level, path, hreach⟩

/-- A mapping request that is refused keeps all entries exactly if the links
that it left open to user code were open before. -/
theorem refused_map_opens_links (hreachable : vm.Reachable) (va : VirtAddr)
    (pa : PhysAddr) (flags : Flags) :
    (∀ size reason, (vm.mapSized va pa size flags).value = .error reason →
        vm.KeptBut (vm.space.linksToOpen vm.memory.ram va pa size flags)
            (vm.mapSized va pa size flags).state ∧
          (vm.EntriesKept (vm.mapSized va pa size flags).state ↔
            ∀ cell ∈ vm.space.linksToOpen vm.memory.ram va pa size flags,
              (vm.memory.read cell.frame cell.index).has .user = true)) ∧
      ∀ reason, (vm.map va pa flags).value = .error reason →
        vm.KeptBut (vm.space.linksToOpen vm.memory.ram va pa
              (.select va pa (flags.has .huge)) flags)
            (vm.map va pa flags).state ∧
          (vm.EntriesKept (vm.map va pa flags).state ↔
            ∀ cell ∈ vm.space.linksToOpen vm.memory.ram va pa
              (.select va pa (flags.has .huge)) flags,
              (vm.memory.read cell.frame cell.index).has .user = true) := by
  have hsized :
      ∀ size reason, (vm.mapSized va pa size flags).value = .error reason →
        vm.KeptBut (vm.space.linksToOpen vm.memory.ram va pa size flags)
            (vm.mapSized va pa size flags).state ∧
          (vm.EntriesKept (vm.mapSized va pa size flags).state ↔
            ∀ cell ∈ vm.space.linksToOpen vm.memory.ram va pa size flags,
              (vm.memory.read cell.frame cell.index).has .user = true) := by
    intro size reason herror
    have hkept := keptBut_of_mapSized hreachable herror
    exact ⟨hkept, entriesKept_iff hkept fun _ => owns_of_mem_linksToOpen⟩
  refine ⟨hsized, ?_⟩
  intro reason herror
  obtain ⟨hvalue, hstate⟩ := vm.map_eq va pa flags
  rw [hvalue] at herror
  rw [hstate]
  exact hsized _ reason herror

/-- User code asks for a huge page where a smaller one is mapped, of that size
and of no given size. -/
theorem refused_map_opens_links_oneMapped :
    (oneMapped.mapSized ⟨0⟩ ⟨0x200000⟩ .twoM
          (Flags.kernelRW.put .user true)).value =
        .error (.map (.conflict ⟨0⟩ .pd)) ∧
      (oneMapped.EntriesKept (oneMapped.mapSized ⟨0⟩ ⟨0x200000⟩ .twoM
          (Flags.kernelRW.put .user true)).state ↔
        ∀ cell ∈ oneMapped.space.linksToOpen oneMapped.memory.ram ⟨0⟩ ⟨0x200000⟩
          .twoM (Flags.kernelRW.put .user true),
          (oneMapped.memory.read cell.frame cell.index).has .user = true) ∧
      (oneMapped.map ⟨0⟩ ⟨0x200000⟩ (Flags.kernelRWHuge.put .user true)).value =
        .error (.map (.conflict ⟨0⟩ .pd)) ∧
      oneMapped.KeptBut
        (oneMapped.space.linksToOpen oneMapped.memory.ram ⟨0⟩ ⟨0x200000⟩
          (.select ⟨0⟩ ⟨0x200000⟩ true) (Flags.kernelRWHuge.put .user true))
        (oneMapped.map ⟨0⟩ ⟨0x200000⟩
          (Flags.kernelRWHuge.put .user true)).state := by
  have hsized : (oneMapped.mapSized ⟨0⟩ ⟨0x200000⟩ .twoM
        (Flags.kernelRW.put .user true)).value =
      .error (.map (.conflict ⟨0⟩ .pd)) := by
    decide +kernel
  have hhuge : (oneMapped.map ⟨0⟩ ⟨0x200000⟩
        (Flags.kernelRWHuge.put .user true)).value =
      .error (.map (.conflict ⟨0⟩ .pd)) := by
    decide +kernel
  have hkept := (refused_map_opens_links reachable_oneMapped ⟨0⟩ ⟨0x200000⟩
    (Flags.kernelRW.put .user true)).1 _ _ hsized
  have hkeptHuge := (refused_map_opens_links reachable_oneMapped ⟨0⟩ ⟨0x200000⟩
    (Flags.kernelRWHuge.put .user true)).2 _ hhuge
  exact ⟨hsized, hkept.2, hhuge, hkeptHuge.1⟩

/-- It is not true that a mapping request that is refused keeps every entry. -/
theorem not_refused_map_keeps_entries :
    ¬∀ vm : Manager, vm.Reachable → ∀ va pa size flags reason,
      (vm.mapSized va pa size flags).value = .error reason →
        vm.EntriesKept (vm.mapSized va pa size flags).state := by
  intro h
  have herror : (oneMapped.mapSized ⟨0⟩ ⟨0x200000⟩ .twoM
        (Flags.kernelRW.put .user true)).value =
      .error (.map (.conflict ⟨0⟩ .pd)) := by
    decide +kernel
  have hkept := h oneMapped reachable_oneMapped ⟨0⟩ ⟨0x200000⟩ .twoM
    (Flags.kernelRW.put .user true) _ herror oneMapped.space.root
    ⟨.pml4, [], .root⟩ (.ofBits 0)
  exact absurd hkept (by decide +kernel)

end Manager

end FourLevelPaging
