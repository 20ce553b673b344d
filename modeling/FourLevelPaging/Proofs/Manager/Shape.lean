/-
The shape of a manager's tree.  No request leaves a node behind that nothing is
mapped through, so the tree has the nodes that its pages need and no others.
-/
import FourLevelPaging.Proofs.Manager.Reachable
import FourLevelPaging.Proofs.Tree.Shape

namespace FourLevelPaging.Manager

variable {vm : Manager}

/-- The numbers of the spans of `2 ^ shift` bytes in which an address is mapped
by a page of one of the given sizes. -/
def spans (vm : Manager) (shift : Nat) (sizes : List PageSize) : Set Nat :=
  {n | ∃ a target, vm.lookup a = some target ∧ target.size ∈ sizes ∧
    a.toNat / 2 ^ shift = n}

theorem finite_spans (vm : Manager) (shift : Nat) (sizes : List PageSize) :
    (vm.spans shift sizes).Finite := by
  refine (Set.finite_lt_nat (2 ^ 64)).subset ?_
  rintro _ ⟨a, target, -, -, rfl⟩
  exact Nat.lt_of_le_of_lt (Nat.div_le_self _ _) a.toNat_lt

theorem spans_eq (vm : Manager) (level : Level) (sizes : List PageSize)
    (hsizes : ∀ size : PageSize, size ∈ sizes ↔
      size.level.height < level.height) :
    vm.spans level.shift sizes = vm.space.spans vm.memory.ram level := by
  simp only [spans, AddressSpace.spans, hsizes]
  rfl

theorem tableFrames_eq {pool : FramePool} {held : Finset Frame}
    (htended : vm.Tended pool held) :
    vm.tableFrames = 1 + (vm.spans 39 [.oneG, .twoM, .fourK]).ncard +
      (vm.spans 30 [.twoM, .fourK]).ncard + (vm.spans 21 [.fourK]).ncard := by
  have htop : vm.spans 39 [.oneG, .twoM, .fourK] =
      vm.space.spans vm.memory.ram .pml4 :=
    vm.spans_eq .pml4 _ fun size => by cases size <;> decide
  have hmiddle : vm.spans 30 [.twoM, .fourK] =
      vm.space.spans vm.memory.ram .pdpt :=
    vm.spans_eq .pdpt _ fun size => by cases size <;> decide
  have hlow : vm.spans 21 [.fourK] = vm.space.spans vm.memory.ram .pd :=
    vm.spans_eq .pd _ fun size => by cases size <;> decide
  rw [htop, hmiddle, hlow]
  exact AddressSpace.tableFrames_eq htended.forest htended.trim
    (List.mem_singleton_self _)

/-- Managers that map the same have the same number of nodes. -/
theorem tableFrames_congr {vm' : Manager} {pool pool' : FramePool}
    {held held' : Finset Frame} (htended : vm.Tended pool held)
    (htended' : vm'.Tended pool' held') (hlookup : vm.lookup = vm'.lookup) :
    vm.tableFrames = vm'.tableFrames := by
  rw [tableFrames_eq htended, tableFrames_eq htended']
  simp only [spans, hlookup]

/-- A node other than the root holds an entry, entries that are not present hold
nothing, and the number of nodes is the smallest that can hold what is mapped:
the root and one node for each span in which there are smaller pages. -/
theorem tree_is_minimal (hreachable : vm.Reachable) :
    (∀ frame, vm.memory.ram.Owns vm.space.root frame → frame ≠ vm.space.root →
        ∃ i, (vm.memory.read frame i).present = true) ∧
      (∀ frame, vm.memory.ram.Owns vm.space.root frame → ∀ i,
        (vm.memory.read frame i).present = false →
          vm.memory.read frame i = .empty) ∧
      (∀ shift sizes, (vm.spans shift sizes).Finite) ∧
      vm.tableFrames = 1 + (vm.spans 39 [.oneG, .twoM, .fourK]).ncard +
        (vm.spans 30 [.twoM, .fourK]).ncard + (vm.spans 21 [.fourK]).ncard := by
  obtain ⟨pool, held, htended⟩ := hreachable.tended
  have hforest := htended.forest
  have hroot : vm.space.root ∈ [vm.space.root] := List.mem_singleton_self _
  refine ⟨fun frame howns hne => ?_, ?_, vm.finite_spans,
    tableFrames_eq htended⟩
  · obtain ⟨hallocated, hheld⟩ :=
      hforest.allocated_not_held_iff.2 ⟨_, hroot, howns⟩
    exact htended.trim frame hallocated hheld (by simpa using hne)
  · rintro frame ⟨level, path, hreach⟩ i hi
    exact (hforest.proper hroot hreach i).absent hi

/-- One small page needs a node of each level. -/
theorem tree_is_minimal_oneMapped :
    oneMapped.tableFrames = 4 ∧
      (oneMapped.spans 39 [.oneG, .twoM, .fourK]).ncard +
        (oneMapped.spans 30 [.twoM, .fourK]).ncard +
          (oneMapped.spans 21 [.fourK]).ncard = 3 ∧
      ∀ frame, oneMapped.memory.ram.Owns oneMapped.space.root frame →
        frame ≠ oneMapped.space.root →
          ∃ i, (oneMapped.memory.read frame i).present = true := by
  have hnodes : oneMapped.tableFrames = 4 := by decide +kernel
  obtain ⟨hentry, -, -, hcount⟩ := tree_is_minimal reachable_oneMapped
  exact ⟨hnodes, by omega, hentry⟩

end FourLevelPaging.Manager
