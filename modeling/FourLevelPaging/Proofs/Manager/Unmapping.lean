/-
What it means for translation to unmap an address: the page that covers it is
gone, as a whole and alone, and the frames of the nodes that go with it are back
in the pool.
-/
import FourLevelPaging.Proofs.Manager.Reachable

namespace FourLevelPaging.Manager

variable {vm : Manager} {va : VirtAddr}

theorem unmap_of_lookup_eq_none (hlookup : vm.lookup va = none) :
    (vm.unmap va).value = none ∧ (vm.unmap va).state = vm := by
  have hdone := AddressSpace.unmap_of_lookup_eq_none hlookup
  simp [Manager.unmap, hdone, Outcome.quiet]

theorem lookup_unmap (vm : Manager) (va : VirtAddr) :
    (vm.unmap va).state.lookup =
      vm.space.lookup (vm.space.unmap vm.memory va).state.ram := by
  obtain ⟨hspace, hmemory⟩ := vm.unmap_state va
  funext a
  rw [lookup, hspace, hmemory]

section Tended

variable {pool : FramePool} {held : Finset Frame}
  (htended : vm.Tended pool held)

include htended

/-- Unmapping an address that is mapped takes its page away, and the nodes that
are not needed any more. -/
theorem removes_of_unmap {target : Target}
    (hlookup : vm.lookup va = some target) :
    ∃ unmapped, (vm.unmap va).value = some unmapped ∧
      Removes vm.lookup (vm.unmap va).state.lookup va target unmapped ∧
      (vm.unmap va).state.Grows vm unmapped.reclaimed := by
  obtain ⟨unmapped, hvalue, hremoves, hcount⟩ :=
    AddressSpace.removes_of_unmap htended.forest
      (List.mem_singleton_self _) hlookup
  have htended' := tended_call htended (.unmap va)
  rw [← (vm.unmap_state va).2] at hcount
  rw [lookup_unmap]
  exact ⟨unmapped, hvalue, hremoves, grows_of_tended htended' htended hcount⟩

end Tended

/-- Unmapping an address that is not mapped does nothing.  If it is mapped, its
page stops being mapped and no other address does, the nodes that were taken out
are handed back to the pool, and the root stays. -/
theorem unmap_removes_one_page (hreachable : vm.Reachable) (va : VirtAddr) :
    (vm.lookup va = none →
        (vm.unmap va).value = none ∧ (vm.unmap va).state = vm) ∧
      ∀ target, vm.lookup va = some target →
        ∃ unmapped, (vm.unmap va).value = some unmapped ∧
          Removes vm.lookup (vm.unmap va).state.lookup va target unmapped ∧
          (vm.unmap va).state.Grows vm unmapped.reclaimed ∧
          (vm.unmap va).state.space.root = vm.space.root ∧
          vm.space.root ∈ (vm.unmap va).state.memory.pool.allocated := by
  obtain ⟨pool, held, htended⟩ := hreachable.tended
  refine ⟨unmap_of_lookup_eq_none, fun target hlookup => ?_⟩
  obtain ⟨unmapped, hvalue, hremoves, hgrows⟩ :=
    removes_of_unmap htended hlookup
  have hroot : (vm.unmap va).state.space.root = vm.space.root :=
    congrArg AddressSpace.root (vm.unmap_state va).1
  have hafter := (tended_call htended (.unmap va)).forest
  refine ⟨unmapped, hvalue, hremoves, hgrows, hroot, ?_⟩
  rw [← hroot]
  exact hafter.mem_allocated_of_reach (List.mem_singleton_self _) .root

/-- An address inside the only page that is mapped. -/
theorem unmap_removes_one_page_oneMapped :
    oneMapped.lookup ⟨0x1234⟩ = some ⟨⟨0x5234⟩, .fourK, .kernelRW⟩ ∧
      ∃ unmapped, (oneMapped.unmap ⟨0x1234⟩).value = some unmapped ∧
        Removes oneMapped.lookup (oneMapped.unmap ⟨0x1234⟩).state.lookup
          ⟨0x1234⟩ ⟨⟨0x5234⟩, .fourK, .kernelRW⟩ unmapped ∧
        (oneMapped.unmap ⟨0x1234⟩).state.Grows oneMapped unmapped.reclaimed ∧
        unmapped.reclaimed = 3 ∧
        oneMapped.lookup ⟨0x2000⟩ = none ∧
        (oneMapped.unmap ⟨0x2000⟩).state = oneMapped := by
  have hmapped : oneMapped.lookup ⟨0x1234⟩ =
      some ⟨⟨0x5234⟩, .fourK, .kernelRW⟩ := by
    decide +kernel
  have hfree : oneMapped.lookup ⟨0x2000⟩ = none := by decide +kernel
  obtain ⟨unmapped, hvalue, hremoves, hgrows, -⟩ :=
    (unmap_removes_one_page reachable_oneMapped ⟨0x1234⟩).2 _ hmapped
  have hnone := (unmap_removes_one_page reachable_oneMapped ⟨0x2000⟩).1 hfree
  have hbefore : oneMapped.tableFrames = 4 := by decide +kernel
  have hafter : (oneMapped.unmap ⟨0x1234⟩).state.tableFrames = 1 := by
    decide +kernel
  have hnodes := hgrows.tableFrames_eq
  exact ⟨hmapped, unmapped, hvalue, hremoves, hgrows, by omega, hfree, hnone.2⟩

end FourLevelPaging.Manager
