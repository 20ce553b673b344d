/-
The rights that user code and kernel have to what a manager maps.  Links are
made by one request and passed by the pages of others, yet after any requests
the rights to a page are those it was mapped with last.
-/
import FourLevelPaging.Proofs.AddressSpace.Rights
import FourLevelPaging.Proofs.Manager.Reachable

namespace FourLevelPaging.Manager

variable {vm : Manager} {va : VirtAddr}

/-- No request takes a page for user code out of its reach. -/
theorem userOpen_call {held : Finset Frame}
    (hforest : Forest vm.memory [vm.space.root] held)
    (hopen : vm.memory.ram.UserOpen [vm.space.root]) (request : Call) :
    (vm.call request).state.memory.ram.UserOpen
      [(vm.call request).state.space.root] := by
  have hroot : vm.space.root ∈ [vm.space.root] := List.mem_singleton_self _
  have hover : vm.Over vm.space fun mem =>
      Forest mem [vm.space.root] held ∧ mem.ram.UserOpen [vm.space.root] :=
    ⟨rfl, hforest, hopen⟩
  have hafter := hover.call
    (fun h va pa size flags =>
      ⟨(AddressSpace.forest_mapSized h.1 hroot va pa size flags).1,
        AddressSpace.userOpen_mapSized h.1 h.2 hroot va pa size flags⟩)
    (fun h va => ⟨(AddressSpace.forest_unmap h.1 hroot va).1,
      AddressSpace.userOpen_unmap h.2 va⟩) request
  rw [hafter.space_eq]
  exact hafter.memory.2

theorem Reachable.userOpen (hreachable : vm.Reachable) :
    vm.memory.ram.UserOpen [vm.space.root] := by
  induction hreachable with
  | create hpool _ hmade =>
      obtain ⟨hspace, hmemory⟩ := made_of_create hmade
      rw [hmemory]
      exact AddressSpace.userOpen_create hpool.valid hspace
  | call hreachable request ih =>
      obtain ⟨held, hforest⟩ := hreachable.forest
      exact userOpen_call hforest ih request

/-- To translate an address that is mapped, the processor reads links, each of
them the address of the node that it goes on to with the bits present and
writable, maybe user, and no other bit, and then the leaf.  The rights it
computes from all of them are those that the look-up tells. -/
theorem effective_rights (hreachable : vm.Reachable) {target : Target}
    (hlookup : vm.lookup va = some target) :
    ∃ links leaf,
      vm.memory.ram.cellsRead va Level.all vm.space.root = links ++ [leaf] ∧
        (vm.memory.ram.entry leaf).flags = target.flags ∧
        List.IsChain (fun cell below : Cell =>
          (vm.memory.ram.entry cell).IsLinkTo below.frame) (links ++ [leaf]) ∧
        Rights.along ((links ++ [leaf]).map vm.memory.ram.entry) =
          .ofFlags target.flags := by
  obtain ⟨held, hforest⟩ := hreachable.forest
  exact AddressSpace.rights_of_lookup hforest hreachable.userOpen
    (List.mem_singleton_self _) hlookup

/-- A page for user code, not to be written to or executed, whose links were
made for a page of the kernel. -/
theorem effective_rights_oneMapped :
    ∃ vm : Manager, vm.Reachable ∧
      vm.lookup ⟨0x1000⟩ = some ⟨⟨0x5000⟩, .fourK, .kernelRW⟩ ∧
      vm.lookup ⟨0x2000⟩ = some ⟨⟨0x6000⟩, .fourK, ⟨0x8000000000000005⟩⟩ ∧
      ∃ links leaf,
        vm.memory.ram.cellsRead ⟨0x2000⟩ Level.all vm.space.root =
            links ++ [leaf] ∧
          (vm.memory.ram.entry leaf).flags = ⟨0x8000000000000005⟩ ∧
          List.IsChain (fun cell below : Cell =>
            (vm.memory.ram.entry cell).IsLinkTo below.frame) (links ++ [leaf]) ∧
          Rights.along ((links ++ [leaf]).map vm.memory.ram.entry) =
            ⟨false, true, true⟩ := by
  have hreachable :=
    reachable_oneMapped.mapSized ⟨0x2000⟩ ⟨0x6000⟩ .fourK ⟨0x8000000000000005⟩
  have hlookup : (oneMapped.mapSized ⟨0x2000⟩ ⟨0x6000⟩ .fourK
      ⟨0x8000000000000005⟩).state.lookup ⟨0x2000⟩ =
        some ⟨⟨0x6000⟩, .fourK, ⟨0x8000000000000005⟩⟩ := by
    decide +kernel
  exact ⟨_, hreachable, by decide +kernel, hlookup,
    effective_rights hreachable hlookup⟩

end FourLevelPaging.Manager
