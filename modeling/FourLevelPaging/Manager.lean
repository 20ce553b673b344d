/-
The memory manager: one address space, the memory its nodes live in and the
processor that may be using it.  Once the space is active, every change to an
existing mapping is followed by an invalidation.
-/
import FourLevelPaging.AddressSpace.Map
import FourLevelPaging.AddressSpace.Unmap
import FourLevelPaging.Manager.Error

namespace FourLevelPaging

/-- What the manager has asked of the processor, in order. -/
structure Mmu where
  loaded : Array Frame
  invalidated : Array VirtAddr

/-- A processor nothing was asked of yet. -/
def Mmu.fresh : Mmu := ⟨#[], #[]⟩

/-- An address space with everything needed to change it. -/
structure Manager where
  space : AddressSpace
  memory : Memory
  mmu : Mmu
  /-- The processor translates through the space. -/
  active : Bool

namespace Manager

/-- A manager of an empty address space built in `mem`. -/
def create (mem : Memory) : Reported Memory (Except ManagerError Manager) :=
  let made := AddressSpace.create mem
  match made.value with
  | .ok space =>
      ⟨.ok { space, memory := made.state, mmu := .fresh, active := false },
        made.state, made.events⟩
  | .error reason => ⟨.error (.map reason), made.state, made.events⟩

/-- Drops what the processor remembers of the page of `va`, if the space is
active. -/
def invalidate (vm : Manager) (va : VirtAddr) : Manager :=
  if vm.active then
    { vm with mmu.invalidated := vm.mmu.invalidated.push va }
  else vm

/-- Takes over the memory that a mapping at `va` left, and invalidates what the
mapping replaced. -/
def afterMap (vm : Manager) (va : VirtAddr)
    (done : Reported Memory (Except MapError Mapped)) :
    Reported Manager (Except ManagerError Mapped) :=
  let vm' := { vm with memory := done.state }
  match done.value with
  | .ok mapped =>
      ⟨.ok mapped, if mapped.replaced.isSome then vm'.invalidate va else vm',
        done.events⟩
  | .error reason => ⟨.error (.map reason), vm', done.events⟩

/-- Maps one page, as large as the flags and the addresses allow. -/
def map (vm : Manager) (va : VirtAddr) (pa : PhysAddr) (flags : Flags) :
    Reported Manager (Except ManagerError Mapped) :=
  vm.afterMap va (vm.space.map vm.memory va pa flags)

/-- Maps one page of exactly `size`. -/
def mapSized (vm : Manager) (va : VirtAddr) (pa : PhysAddr) (size : PageSize)
    (flags : Flags) : Reported Manager (Except ManagerError Mapped) :=
  vm.afterMap va (vm.space.mapSized vm.memory va pa size flags)

/-- Maps a number of pages in a row, up to the first that cannot be mapped.
`events` were reported before. -/
def mapPages (size : PageSize) (flags : Flags) :
    Nat → VirtAddr → PhysAddr → Manager → Array Event →
      Reported Manager (Except ManagerError Unit)
  | 0, _, _, vm, events => ⟨.ok (), vm, events⟩
  | count + 1, va, pa, vm, events =>
      let step := vm.mapSized va pa size flags
      match step.value with
      | .ok _ =>
          mapPages size flags count
            (va.wrappingAdd (BitVec.ofNat 64 size.bytes))
            (pa.wrappingAdd (BitVec.ofNat 64 size.bytes)) step.state
            (events ++ step.events)
      | .error reason => ⟨.error reason, step.state, events ++ step.events⟩

/-- Maps `bytes` from `va` on to the memory from `pa` on, in pages of `size`.
Answers the number of pages.  If a page cannot be mapped, those before it
stay. -/
def mapRange (vm : Manager) (va : VirtAddr) (pa : PhysAddr) (bytes : Word)
    (size : PageSize) (flags : Flags) :
    Reported Manager (Except ManagerError Nat) :=
  if !size.isAligned bytes then .quiet (.error (.rangeLength bytes size)) vm
  else if (va.checkedAdd bytes).isNone || (pa.checkedAdd bytes).isNone then
    .quiet (.error (.rangeOverflow va bytes)) vm
  else
    let pages := bytes.toNat / size.bytes
    let done := mapPages size flags pages va pa vm #[]
    match done.value with
    | .ok () =>
        ⟨.ok pages, done.state,
          done.events.push (.rangeMapped pages size va pa)⟩
    | .error reason => { done with value := .error reason }

/-- Takes away the page that covers `va`. -/
def unmap (vm : Manager) (va : VirtAddr) : Reported Manager (Option Unmapped) :=
  let done := vm.space.unmap vm.memory va
  let vm' := { vm with memory := done.state }
  ⟨done.value, if done.value.isSome then vm'.invalidate va else vm',
    done.events⟩

/-- Where `va` leads. -/
def lookup (vm : Manager) (va : VirtAddr) : Option Target :=
  vm.space.lookup vm.memory.ram va

def translate (vm : Manager) (va : VirtAddr) : Option PhysAddr :=
  vm.space.translate vm.memory.ram va

def tableFrames (vm : Manager) : Nat := vm.space.tableFrames vm.memory.ram

/-- Makes the processor translate through the space. -/
def activate (vm : Manager) : Reported Manager Unit :=
  let vm' :=
    { vm with mmu.loaded := vm.mmu.loaded.push vm.space.root, active := true }
  ⟨(), vm', #[.activated vm.space.root vm'.tableFrames]⟩

end Manager

end FourLevelPaging
