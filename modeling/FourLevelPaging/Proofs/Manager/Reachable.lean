/-
The states that requests bring a manager into.  All requests change memory by
mapping and unmapping single pages, so what these two keep is kept by all: the
tree of a manager is always a tree, without empty nodes, and its nodes are the
frames it took from the pool.
-/
import FourLevelPaging.Manager.Call
import FourLevelPaging.Proofs.AddressSpace.Outcome
import FourLevelPaging.Proofs.AddressSpace.Unmap
import FourLevelPaging.Proofs.Tree.Count

namespace FourLevelPaging

namespace Manager

/-- A manager made over a pool whose frames lie below `2 ^ 52`, after any
requests. -/
inductive Reachable : Manager → Prop
  | create {mem : Memory} {vm : Manager} (hpool : mem.pool.Reachable)
      (hlow : mem.pool.Below (2 ^ 52))
      (hmade : (Manager.create mem).value = .ok vm) : Reachable vm
  | call {vm : Manager} (hreachable : Reachable vm) (request : Call) :
      Reachable (vm.call request).state

/-- A manager made over `pool`, after any requests. -/
inductive MadeOver (pool : FramePool) : Manager → Prop
  | create {ram : Ram} {vm : Manager}
      (hmade : (Manager.create ⟨ram, pool⟩).value = .ok vm) : MadeOver pool vm
  | call {vm : Manager} (hover : MadeOver pool vm) (request : Call) :
      MadeOver pool (vm.call request).state

theorem Reachable.madeOver {vm : Manager} (hreachable : vm.Reachable) :
    ∃ pool : FramePool, pool.Reachable ∧ pool.Below (2 ^ 52) ∧
      vm.MadeOver pool := by
  induction hreachable with
  | create hpool hlow hmade => exact ⟨_, hpool, hlow, .create hmade⟩
  | call hreachable request ih =>
      rcases ih with ⟨pool, hpool, hlow, hover⟩
      exact ⟨pool, hpool, hlow, hover.call request⟩

/-- A manager of `space` whose memory satisfies `P`. -/
structure Over (space : AddressSpace) (P : Memory → Prop) (vm : Manager) :
    Prop where
  space_eq : vm.space = space
  memory : P vm.memory

theorem made_of_create {mem : Memory} {vm : Manager}
    (hmade : (Manager.create mem).value = .ok vm) :
    (AddressSpace.create mem).value = .ok vm.space ∧
      vm.memory = (AddressSpace.create mem).state := by
  cases hspace : (AddressSpace.create mem).value with
  | error reason => simp [Manager.create, hspace] at hmade
  | ok space =>
      simp only [Manager.create, hspace, Except.ok.injEq] at hmade
      subst hmade
      exact ⟨rfl, rfl⟩

/-- A new manager maps nothing. -/
theorem lookup_create {mem : Memory} {vm : Manager} (hvalid : mem.pool.Valid)
    (hmade : (Manager.create mem).value = .ok vm) (va : VirtAddr) :
    vm.lookup va = none := by
  obtain ⟨hspace, hmemory⟩ := made_of_create hmade
  rw [lookup, hmemory]
  exact AddressSpace.lookup_create hvalid hspace va

section AfterMap

variable {vm : Manager} {va : VirtAddr}
  {done : Reported Memory (Except MapError Mapped)}

theorem invalidate_space (vm : Manager) (va : VirtAddr) :
    (vm.invalidate va).space = vm.space := by
  unfold invalidate
  split <;> rfl

theorem invalidate_memory (vm : Manager) (va : VirtAddr) :
    (vm.invalidate va).memory = vm.memory := by
  unfold invalidate
  split <;> rfl

theorem afterMap_state (vm : Manager) (va : VirtAddr)
    (done : Reported Memory (Except MapError Mapped)) :
    (vm.afterMap va done).state.space = vm.space ∧
      (vm.afterMap va done).state.memory = done.state := by
  unfold afterMap
  split
  · split
    · exact ⟨invalidate_space _ va, invalidate_memory _ va⟩
    · exact ⟨rfl, rfl⟩
  · exact ⟨rfl, rfl⟩

/-- What is answered to a mapping request is what the space answers. -/
theorem afterMap_eq_ok_iff {mapped : Mapped} :
    (vm.afterMap va done).value = .ok mapped ↔ done.value = .ok mapped := by
  cases hanswer : done.value with
  | error reason => simp [afterMap, hanswer]
  | ok answer => simp [afterMap, hanswer]

theorem afterMap_eq_error_iff {reason : ManagerError} :
    (vm.afterMap va done).value = .error reason ↔
      ∃ cause, reason = .map cause ∧ done.value = .error cause := by
  cases hanswer : done.value with
  | ok answer => simp [afterMap, hanswer]
  | error cause => simp [afterMap, hanswer, eq_comm]

theorem afterMap_lookup (vm : Manager) (va : VirtAddr)
    (done : Reported Memory (Except MapError Mapped)) :
    (vm.afterMap va done).state.lookup = vm.space.lookup done.state.ram := by
  obtain ⟨hspace, hmemory⟩ := vm.afterMap_state va done
  funext a
  rw [lookup, hspace, hmemory]

theorem unmap_state (vm : Manager) (va : VirtAddr) :
    (vm.unmap va).state.space = vm.space ∧
      (vm.unmap va).state.memory = (vm.space.unmap vm.memory va).state := by
  simp only [Manager.unmap]
  split
  · exact ⟨invalidate_space _ va, invalidate_memory _ va⟩
  · exact ⟨rfl, rfl⟩

end AfterMap

section Steps

variable {space : AddressSpace} {P : Memory → Prop}
  (hmap : ∀ {mem : Memory}, P mem → ∀ va pa size flags,
    P (space.mapSized mem va pa size flags).state)
  (hunmap : ∀ {mem : Memory}, P mem → ∀ va, P (space.unmap mem va).state)

include hmap

theorem Over.mapSized {vm : Manager} (hover : vm.Over space P) (va : VirtAddr)
    (pa : PhysAddr) (size : PageSize) (flags : Flags) :
    (vm.mapSized va pa size flags).state.Over space P := by
  obtain ⟨hspace, hmemory⟩ :=
    vm.afterMap_state va (vm.space.mapSized vm.memory va pa size flags)
  refine ⟨hspace.trans hover.space_eq, ?_⟩
  rw [Manager.mapSized, hmemory, hover.space_eq]
  exact hmap hover.memory va pa size flags

theorem Over.map {vm : Manager} (hover : vm.Over space P) (va : VirtAddr)
    (pa : PhysAddr) (flags : Flags) :
    (vm.map va pa flags).state.Over space P := by
  obtain ⟨hspace, hmemory⟩ :=
    vm.afterMap_state va (vm.space.map vm.memory va pa flags)
  refine ⟨hspace.trans hover.space_eq, ?_⟩
  rw [Manager.map, hmemory, hover.space_eq,
    (space.map_eq vm.memory va pa flags).2]
  exact hmap hover.memory va pa _ flags

theorem Over.mapPages {vm : Manager} (hover : vm.Over space P) (size : PageSize)
    (flags : Flags) (count : Nat) (va : VirtAddr) (pa : PhysAddr)
    (events : Array Event) :
    (mapPages size flags count va pa vm events).state.Over space P := by
  induction count generalizing vm va pa events with
  | zero => exact hover
  | succ count ih =>
      have hstep := hover.mapSized hmap va pa size flags
      simp only [Manager.mapPages]
      split
      · exact ih hstep _ _ _
      · exact hstep

theorem Over.mapRange {vm : Manager} (hover : vm.Over space P) (va : VirtAddr)
    (pa : PhysAddr) (bytes : Word) (size : PageSize) (flags : Flags) :
    (vm.mapRange va pa bytes size flags).state.Over space P := by
  have hpages :=
    hover.mapPages hmap size flags (bytes.toNat / size.bytes) va pa #[]
  simp only [Manager.mapRange]
  split
  · exact hover
  · split
    · exact hover
    · split
      · exact hpages
      · exact hpages

theorem Over.mapStage {vm : Manager} (hover : vm.Over space P)
    (stage : Stage) : (vm.mapStage stage).state.Over space P := by
  have hrange := hover.mapRange hmap stage.va stage.pa stage.bytes stage.size
    stage.flags
  simp only [Manager.mapStage]
  split <;> exact hrange

theorem Over.build {vm : Manager} (hover : vm.Over space P) (policy : Policy) :
    (vm.build policy).state.Over space P := by
  have hidentity := hover.mapStage hmap policy.identityStage
  have himage := hidentity.mapStage hmap policy.imageStage
  simp only [Manager.build]
  split
  · exact hover
  · split
    · exact hidentity
    · exact himage

theorem Over.init {vm : Manager} (hover : vm.Over space P) (policy : Policy) :
    (vm.init policy).state.Over space P := by
  have hbuilt := hover.build hmap policy
  simp only [Manager.init]
  split
  · exact hbuilt
  · exact ⟨hbuilt.space_eq, hbuilt.memory⟩

include hunmap

/-- What mapping and unmapping a page keep is kept by every request. -/
theorem Over.call {vm : Manager} (hover : vm.Over space P) (request : Call) :
    (vm.call request).state.Over space P := by
  cases request with
  | map va pa flags =>
      simp only [Manager.call]
      split <;> exact hover.map hmap va pa flags
  | mapSized va pa size flags =>
      simp only [Manager.call]
      split <;> exact hover.mapSized hmap va pa size flags
  | mapRange va pa bytes size flags =>
      simp only [Manager.call]
      split <;> exact hover.mapRange hmap va pa bytes size flags
  | unmap va =>
      obtain ⟨hspace, hmemory⟩ := vm.unmap_state va
      refine ⟨hspace.trans hover.space_eq, ?_⟩
      change P (vm.unmap va).state.memory
      rw [hmemory, hover.space_eq]
      exact hunmap hover.memory va
  | build policy =>
      simp only [Manager.call]
      split <;> exact hover.build hmap policy
  | init policy =>
      simp only [Manager.call]
      split <;> exact hover.init hmap policy
  | activate => exact ⟨hover.space_eq, hover.memory⟩
  | lookup va => exact hover
  | translate va => exact hover
  | root => exact hover
  | list => exact hover
  | panic message => exact hover

end Steps

/-- The nodes of the manager form a tree without empty nodes.  They are frames
of `pool`, and the others that were handed out, `held`, belong to others. -/
abbrev Tended (vm : Manager) (pool : FramePool) (held : Finset Frame) : Prop :=
  vm.memory.Tended pool [vm.space.root] held

section Tended

variable {pool : FramePool} {held : Finset Frame} {vm : Manager}

/-- No request leaves a node without entries. -/
theorem tended_call (htended : vm.Tended pool held) (request : Call) :
    (vm.call request).state.Tended pool held := by
  have hroot : vm.space.root ∈ [vm.space.root] := List.mem_singleton_self _
  have hover :
      vm.Over vm.space fun mem => mem.Tended pool [vm.space.root] held :=
    ⟨rfl, htended⟩
  have hafter := hover.call (fun h va pa size flags =>
      AddressSpace.tended_mapSized h hroot va pa size flags)
    (fun h va => AddressSpace.tended_unmap h hroot va) request
  rw [Tended, hafter.space_eq]
  exact hafter.memory

/-- The frames handed out are those that others hold and the nodes of the
tree. -/
theorem allocatedCount_eq (htended : vm.Tended pool held) :
    vm.memory.pool.allocatedCount = vm.tableFrames + held.card := by
  rw [htended.forest.allocatedCount_eq, List.map_singleton, List.sum_singleton]
  rfl

theorem freeCount_eq (htended : vm.Tended pool held) :
    vm.memory.pool.freeCount + vm.memory.pool.allocatedCount =
      pool.capacity := by
  have hframes : vm.memory.pool.capacity = pool.capacity :=
    htended.region.frames_eq
  rw [FramePool.freeCount_add_allocatedCount htended.forest.valid, hframes]

/-- The manager `vm'` has `count` nodes more than `vm`, and as many frames more
of the pool. -/
structure Grows (vm vm' : Manager) (count : Nat) : Prop where
  tableFrames_eq : vm'.tableFrames = vm.tableFrames + count
  allocatedCount_eq :
    vm'.memory.pool.allocatedCount = vm.memory.pool.allocatedCount + count

/-- Every frame that goes from the pool to a manager becomes a node. -/
theorem grows_of_tended {vm' : Manager} {count : Nat}
    (htended : vm.Tended pool held) (htended' : vm'.Tended pool held)
    (hcount : vm'.memory.pool.allocatedCount =
      vm.memory.pool.allocatedCount + count) : vm.Grows vm' count := by
  have hbefore := allocatedCount_eq htended
  have hafter := allocatedCount_eq htended'
  exact ⟨by omega, hcount⟩

theorem Grows.freeCount_eq {vm' : Manager} {count : Nat}
    (hgrows : vm.Grows vm' count) (htended : vm.Tended pool held)
    (htended' : vm'.Tended pool held) :
    vm.memory.pool.freeCount = vm'.memory.pool.freeCount + count := by
  have hbefore := Manager.freeCount_eq htended
  have hafter := Manager.freeCount_eq htended'
  have hcount := hgrows.allocatedCount_eq
  omega

end Tended

/-- The tree of a manager has no empty nodes, and what was handed out before the
manager was made belongs to others. -/
theorem MadeOver.tended {pool : FramePool} {vm : Manager}
    (hover : vm.MadeOver pool) (hpool : pool.Reachable)
    (hlow : pool.Below (2 ^ 52)) :
    vm.Tended pool pool.allocated := by
  induction hover with
  | create hmade =>
      obtain ⟨hspace, hmemory⟩ := made_of_create hmade
      rw [Tended, hmemory]
      exact AddressSpace.tended_create (.bare hpool.valid hlow) hspace
  | call hover request ih => exact tended_call ih request

theorem Reachable.tended {vm : Manager} (hreachable : vm.Reachable) :
    ∃ (pool : FramePool) (held : Finset Frame), vm.Tended pool held := by
  obtain ⟨pool, hpool, hlow, hover⟩ := hreachable.madeOver
  exact ⟨pool, _, hover.tended hpool hlow⟩

/-- The nodes of a manager form a tree, and the rest of what its pool has handed
out belongs to others. -/
theorem Reachable.forest {vm : Manager} (hreachable : vm.Reachable) :
    ∃ held, Forest vm.memory [vm.space.root] held := by
  obtain ⟨pool, held, htended⟩ := hreachable.tended
  exact ⟨held, htended.forest⟩

/-- The frames that are left are those that were there to begin with, less the
nodes of the tree. -/
theorem MadeOver.freeCount_eq {pool : FramePool} {vm : Manager}
    (hover : vm.MadeOver pool) (hpool : pool.Reachable)
    (hlow : pool.Below (2 ^ 52)) :
    vm.memory.pool.freeCount + vm.tableFrames = pool.freeCount := by
  have htended := hover.tended hpool hlow
  have hbefore := FramePool.freeCount_add_allocatedCount hpool.valid
  have hafter := Manager.freeCount_eq htended
  have hcount := allocatedCount_eq htended
  rw [FramePool.card_allocated hpool.valid] at hcount
  omega

theorem call_mapSized_state (vm : Manager) (va : VirtAddr) (pa : PhysAddr)
    (size : PageSize) (flags : Flags) :
    (vm.call (.mapSized va pa size flags)).state =
      (vm.mapSized va pa size flags).state := by
  simp only [Manager.call]
  split <;> rfl

theorem MadeOver.mapSized {pool : FramePool} {vm : Manager}
    (hover : vm.MadeOver pool) (va : VirtAddr) (pa : PhysAddr) (size : PageSize)
    (flags : Flags) :
    (vm.mapSized va pa size flags).state.MadeOver pool := by
  rw [← call_mapSized_state]
  exact hover.call (.mapSized va pa size flags)

theorem Reachable.mapSized {vm : Manager} (hreachable : vm.Reachable)
    (va : VirtAddr) (pa : PhysAddr) (size : PageSize) (flags : Flags) :
    (vm.mapSized va pa size flags).state.Reachable := by
  rw [← call_mapSized_state]
  exact hreachable.call (.mapSized va pa size flags)

/-- A manager of an empty space over eight frames from 1 MiB on. -/
def small : Manager :=
  { space := ⟨FramePool.small.frameAt 0⟩
    memory :=
      { ram :=
          (Ram.ofBackground fun _ _ => .empty).zero (FramePool.small.frameAt 0)
        pool := { FramePool.small with next := 1 } }
    mmu := .fresh
    active := false }

theorem create_small :
    (Manager.create ⟨.ofBackground fun _ _ => .empty, .small⟩).value =
      .ok small := by
  have hroot : FramePool.small.allocate =
      .ok (FramePool.small.frameAt 0, { FramePool.small with next := 1 }) := rfl
  simp only [Manager.create, AddressSpace.create, Memory.newNode?,
    FramePool.take?, hroot]
  rfl

theorem reachable_small : small.Reachable :=
  .create (FramePool.reachable_of_ofRegion FramePool.ofRegion_small)
    FramePool.below_small create_small

/-- A manager of a space in which one page is mapped for the kernel. -/
def oneMapped : Manager :=
  (small.mapSized ⟨0x1000⟩ ⟨0x5000⟩ .fourK .kernelRW).state

theorem reachable_oneMapped : oneMapped.Reachable :=
  reachable_small.mapSized _ _ _ _

end Manager

end FourLevelPaging
