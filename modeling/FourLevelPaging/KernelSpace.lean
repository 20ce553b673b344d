/-
The kernel's one address space.  A manager is put in place once; from then on
operations run one at a time, and an operation that starts while another is
running is refused instead of waiting.
-/
import FourLevelPaging.Manager
import FourLevelPaging.SpinLock

namespace FourLevelPaging

/-- A lock around the place for the manager, and whether it was filled.  The
latter can be asked without the lock. -/
structure KernelSpace where
  slot : SpinLock (Option Manager)
  installed : Bool

/-- The reasons for which the kernel's address space refuses an operation. -/
inductive KernelError where
  | notInitialized
  | alreadyInitialized
  /-- Another operation is running. -/
  | reentered
  | manager (reason : ManagerError)
deriving DecidableEq

def KernelError.message : KernelError → String
  | notInitialized => "kernel paging is not initialized"
  | alreadyInitialized => "kernel paging is already initialized"
  | reentered => "re-entrant paging operation"
  | manager reason => reason.message

namespace KernelSpace

/-- No manager is in place. -/
def empty : KernelSpace := ⟨.free none, false⟩

/-- Starts an operation: the manager, and the state with the lock held. -/
def enter (kernel : KernelSpace) : Except KernelError (Manager × KernelSpace) :=
  match kernel.slot.tryAcquire? with
  | none => .error .reentered
  | some held =>
      match held.value with
      | none => .error .notInitialized
      | some vm => .ok (vm, { kernel with slot := held })

/-- Ends an operation, however it went, with the manager as it was left. -/
def leave (kernel : KernelSpace) (vm : Manager) : KernelSpace :=
  { kernel with slot := (kernel.slot.put (some vm)).release }

/-- Puts a manager in place.  This works once. -/
def install (kernel : KernelSpace) (vm : Manager) :
    Except KernelError KernelSpace :=
  match kernel.slot.tryAcquire? with
  | none => .error .reentered
  | some held =>
      match held.value with
      | some _ => .error .alreadyInitialized
      | none => .ok { slot := (held.put (some vm)).release, installed := true }

/-- Runs an operation with the manager in hand and the lock held.  However it
ends, the lock is free afterwards and the manager is kept as it was left. -/
def withManager {α : Type} (kernel : KernelSpace)
    (operation : Manager × KernelSpace →
      Reported (Manager × KernelSpace) α) :
    Reported KernelSpace (Except KernelError α) :=
  match kernel.enter with
  | .error reason => .quiet (.error reason) kernel
  | .ok inHand =>
      let done := operation inHand
      ⟨.ok done.value, done.state.2.leave done.state.1, done.events⟩

/-- An operation of the manager alone. -/
def onManager {α : Type} (operation : Manager → Reported Manager α) :
    Manager × KernelSpace → Reported (Manager × KernelSpace) α
  | (vm, held) =>
      let done := operation vm
      ⟨done.value, (done.state, held), done.events⟩

/-- Maps one page. -/
def map (kernel : KernelSpace) (va : VirtAddr) (pa : PhysAddr) (flags : Flags) :
    Reported KernelSpace (Except KernelError Mapped) :=
  let done := kernel.withManager (onManager fun vm => vm.map va pa flags)
  match done.value with
  | .ok (.ok mapped) => { done with value := .ok mapped }
  | .ok (.error reason) => { done with value := .error (.manager reason) }
  | .error reason => { done with value := .error reason }

/-- Takes away the page that covers `va`. -/
def unmap (kernel : KernelSpace) (va : VirtAddr) :
    Reported KernelSpace (Except KernelError (Option Unmapped)) :=
  kernel.withManager (onManager fun vm => vm.unmap va)

def translate (kernel : KernelSpace) (va : VirtAddr) :
    Reported KernelSpace (Except KernelError (Option PhysAddr)) :=
  kernel.withManager (onManager fun vm => .quiet (vm.translate va) vm)

end KernelSpace

end FourLevelPaging
