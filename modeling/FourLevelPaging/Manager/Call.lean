/-
Requests to a memory manager as data.
-/
import FourLevelPaging.Manager.Bootstrap

namespace FourLevelPaging.Manager

/-- A request to a manager, or a panic of whoever makes the requests. -/
inductive Call where
  | map (va : VirtAddr) (pa : PhysAddr) (flags : Flags)
  | mapSized (va : VirtAddr) (pa : PhysAddr) (size : PageSize) (flags : Flags)
  | mapRange (va : VirtAddr) (pa : PhysAddr) (bytes : Word) (size : PageSize)
      (flags : Flags)
  | unmap (va : VirtAddr)
  | lookup (va : VirtAddr)
  | translate (va : VirtAddr)
  | root
  | list
  | build (policy : Policy)
  | init (policy : Policy)
  | activate
  | panic (message : String)

inductive Reply where
  | mapped (mapped : Mapped)
  | pages (count : Nat)
  | unmapped (unmapped : Option Unmapped)
  | target (target : Option Target)
  | address (pa : Option PhysAddr)
  | root (frame : Frame)
  | listed (entries : List Listed)
  | built
  | activated
  | refused (reason : ManagerError)
  | bootstrapRefused (reason : BootstrapError)
  | panicked (message : String)
deriving DecidableEq

def call (vm : Manager) : Call → Reported Manager Reply
  | .map va pa flags =>
      let done := vm.map va pa flags
      match done.value with
      | .ok mapped => { done with value := .mapped mapped }
      | .error reason => { done with value := .refused reason }
  | .mapSized va pa size flags =>
      let done := vm.mapSized va pa size flags
      match done.value with
      | .ok mapped => { done with value := .mapped mapped }
      | .error reason => { done with value := .refused reason }
  | .mapRange va pa bytes size flags =>
      let done := vm.mapRange va pa bytes size flags
      match done.value with
      | .ok count => { done with value := .pages count }
      | .error reason => { done with value := .refused reason }
  | .unmap va =>
      let done := vm.unmap va
      { done with value := .unmapped done.value }
  | .lookup va => .quiet (.target (vm.lookup va)) vm
  | .translate va => .quiet (.address (vm.translate va)) vm
  | .root => .quiet (.root vm.space.root) vm
  | .list => .quiet (.listed (vm.space.list vm.memory.ram)) vm
  | .build policy =>
      let done := vm.build policy
      match done.value with
      | .ok () => { done with value := .built }
      | .error reason => { done with value := .bootstrapRefused reason }
  | .init policy =>
      let done := vm.init policy
      match done.value with
      | .ok () => { done with value := .built }
      | .error reason => { done with value := .bootstrapRefused reason }
  | .activate =>
      let done := vm.activate
      { done with value := .activated }
  | .panic message => .quiet (.panicked message) vm

end FourLevelPaging.Manager
