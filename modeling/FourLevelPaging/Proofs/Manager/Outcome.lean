/-
How a manager answers a request for a page of a given size.  What is mapped and
how many frames are left decide, and nothing else does: not the order in which
nodes are looked at and added, nor what has to be undone when that fails.
-/
import FourLevelPaging.Proofs.Manager.Mapping

namespace FourLevelPaging.Manager

variable {vm : Manager} {va : VirtAddr} {pa : PhysAddr} {size : PageSize}
  {flags : Flags}

/-- Neither what is mapped nor the number of nodes and of frames left is
different. -/
structure Unchanged (vm vm' : Manager) : Prop where
  lookup_eq : vm'.lookup = vm.lookup
  tableFrames_eq : vm'.tableFrames = vm.tableFrames
  allocatedCount_eq :
    vm'.memory.pool.allocatedCount = vm.memory.pool.allocatedCount
  freeCount_eq : vm'.memory.pool.freeCount = vm.memory.pool.freeCount

theorem memory_mapSized (vm : Manager) (va : VirtAddr) (pa : PhysAddr)
    (size : PageSize) (flags : Flags) :
    (vm.mapSized va pa size flags).state.memory =
      (vm.space.mapSized vm.memory va pa size flags).state :=
  (vm.afterMap_state va _).2

section Tended

variable {pool : FramePool} {held : Finset Frame}
  (htended : vm.Tended pool held)

include htended

theorem mapSized_eq_error_iff {reason : ManagerError} :
    (vm.mapSized va pa size flags).value = .error reason ↔
      ∃ cause, reason = .map cause ∧
        vm.space.Refuses vm.memory va pa size cause := by
  rw [mapSized, afterMap_eq_error_iff]
  exact exists_congr fun cause => and_congr_right fun _ =>
    AddressSpace.mapSized_eq_error_iff htended.forest htended.trim
      (List.mem_singleton_self _)

theorem mapSized_eq_ok_iff :
    (∃ mapped, (vm.mapSized va pa size flags).value = .ok mapped) ↔
      (va.isCanonical = true ∧ va.isAligned size = true ∧
          pa.isAligned size = true) ∧
        (∀ level, ¬vm.space.Blocked vm.memory.ram va size level) ∧
        (vm.space.missing vm.memory.ram va size).length ≤
          vm.memory.pool.freeCount := by
  simp only [mapSized, afterMap_eq_ok_iff]
  exact AddressSpace.mapSized_eq_ok_iff htended.forest htended.trim
    (List.mem_singleton_self _)

theorem tended_mapSized (va : VirtAddr) (pa : PhysAddr) (size : PageSize)
    (flags : Flags) :
    (vm.mapSized va pa size flags).state.Tended pool held := by
  rw [← call_mapSized_state]
  exact tended_call htended (.mapSized va pa size flags)

/-- A page that is mapped takes a frame for each node that is missing. -/
theorem grows_of_mapSized {mapped : Mapped}
    (hok : (vm.mapSized va pa size flags).value = .ok mapped) :
    vm.Grows (vm.mapSized va pa size flags).state
      (vm.space.missing vm.memory.ram va size).length := by
  have htended' := tended_mapSized htended va pa size flags
  have hdone := AddressSpace.freeCount_of_mapSized htended.forest htended.trim
    (List.mem_singleton_self _) (afterMap_eq_ok_iff.1 hok)
  rw [← memory_mapSized] at hdone
  have hbefore := freeCount_eq htended
  have hafter := freeCount_eq htended'
  exact grows_of_tended htended htended' (by omega)

theorem unchanged_of_refused {reason : ManagerError}
    (herror : (vm.mapSized va pa size flags).value = .error reason) :
    vm.Unchanged (vm.mapSized va pa size flags).state := by
  have htended' := tended_mapSized htended va pa size flags
  obtain ⟨cause, -, hcause⟩ := afterMap_eq_error_iff.1 herror
  obtain ⟨hlookup, hcount⟩ := AddressSpace.unchanged_of_refused htended.forest
    (List.mem_singleton_self _) hcause
  rw [← memory_mapSized] at hcount
  have hbefore := freeCount_eq htended
  have hafter := freeCount_eq htended'
  have hnodes := allocatedCount_eq htended
  have hnodes' := allocatedCount_eq htended'
  refine ⟨?_, by omega, hcount, by omega⟩
  rw [mapSized, afterMap_lookup, hlookup]
  rfl

end Tended

/-- A request for a page is refused exactly for the reasons listed, and carried
out exactly if there are none.  Carried out, it takes one frame for each missing
node; refused, it changes nothing that can be looked up or counted. -/
theorem mapSized_outcome (hreachable : vm.Reachable) (va : VirtAddr)
    (pa : PhysAddr) (size : PageSize) (flags : Flags) :
    (∀ reason, (vm.mapSized va pa size flags).value = .error reason ↔
        ∃ cause, reason = .map cause ∧
          vm.space.Refuses vm.memory va pa size cause) ∧
      ((∃ mapped, (vm.mapSized va pa size flags).value = .ok mapped) ↔
        (va.isCanonical = true ∧ va.isAligned size = true ∧
            pa.isAligned size = true) ∧
          (∀ level, ¬vm.space.Blocked vm.memory.ram va size level) ∧
          (vm.space.missing vm.memory.ram va size).length ≤
            vm.memory.pool.freeCount) ∧
      (vm.space.missing vm.memory.ram va size).length ≤
        Level.pml4.height - size.level.height ∧
      (∀ mapped, (vm.mapSized va pa size flags).value = .ok mapped →
        vm.Grows (vm.mapSized va pa size flags).state
          (vm.space.missing vm.memory.ram va size).length) ∧
      ∀ reason, (vm.mapSized va pa size flags).value = .error reason →
        vm.Unchanged (vm.mapSized va pa size flags).state := by
  obtain ⟨pool, held, htended⟩ := hreachable.tended
  exact ⟨fun reason => mapSized_eq_error_iff htended,
    mapSized_eq_ok_iff htended, AddressSpace.length_missing_le _ _ _ _,
    fun mapped => grows_of_mapSized htended,
    fun reason => unchanged_of_refused htended⟩

/-- A manager of two pages that lie far apart, which leave one of eight
frames. -/
def almostFull : Manager :=
  (oneMapped.mapSized ⟨0x8000000000⟩ ⟨0x6000⟩ .fourK .kernelRW).state

theorem reachable_almostFull : almostFull.Reachable :=
  reachable_oneMapped.mapSized _ _ _ _

/-- The first page of an empty manager takes three frames, and a page for which
there is only one frame left is refused for want of a second. -/
theorem mapSized_outcome_almostFull :
    (small.mapSized ⟨0x1000⟩ ⟨0x5000⟩ .fourK .kernelRW).value =
        .ok ⟨.fourK, none⟩ ∧
      small.Grows (small.mapSized ⟨0x1000⟩ ⟨0x5000⟩ .fourK .kernelRW).state
        (small.space.missing small.memory.ram ⟨0x1000⟩ .fourK).length ∧
      (small.space.missing small.memory.ram ⟨0x1000⟩ .fourK).length = 3 ∧
      almostFull.space.Refuses almostFull.memory ⟨0x10000000000⟩ ⟨0x7000⟩ .fourK
        (.outOfMemory .pd) ∧
      almostFull.Unchanged (almostFull.mapSized ⟨0x10000000000⟩ ⟨0x7000⟩ .fourK
        .kernelRW).state := by
  have hok : (small.mapSized ⟨0x1000⟩ ⟨0x5000⟩ .fourK .kernelRW).value =
      .ok ⟨.fourK, none⟩ := by
    decide +kernel
  have herror :
      (almostFull.mapSized ⟨0x10000000000⟩ ⟨0x7000⟩ .fourK .kernelRW).value =
        .error (.map (.outOfMemory .pd)) := by
    decide +kernel
  obtain ⟨-, -, -, hgrows, -⟩ :=
    mapSized_outcome reachable_small ⟨0x1000⟩ ⟨0x5000⟩ .fourK .kernelRW
  obtain ⟨hiff, -, -, -, hunchanged⟩ :=
    mapSized_outcome reachable_almostFull ⟨0x10000000000⟩ ⟨0x7000⟩ .fourK
      .kernelRW
  obtain ⟨_, ⟨⟩, hrefuses⟩ := (hiff _).1 herror
  have hbefore : small.tableFrames = 1 := by decide +kernel
  have hafter :
      (small.mapSized ⟨0x1000⟩ ⟨0x5000⟩ .fourK .kernelRW).state.tableFrames =
        4 := by
    decide +kernel
  have hnodes := (hgrows _ hok).tableFrames_eq
  exact ⟨hok, hgrows _ hok, by omega, hrefuses, hunchanged _ herror⟩

end FourLevelPaging.Manager
