/-
Programs over the kernel's address space.  A request may run a body with the
manager in hand, and the body may make further requests while it does.
-/
import FourLevelPaging.KernelSpace
import FourLevelPaging.Manager.Call

namespace FourLevelPaging.KernelSpace

mutual

/-- A request to the kernel's address space. -/
inductive Call where
  /-- Build a manager in `memory`, activate it if asked, and put it in place. -/
  | install (memory : Memory) (activate : Bool)
  /-- Put a manager in place that is there already. -/
  | put (vm : Manager)
  | isInitialized
  | map (va : VirtAddr) (pa : PhysAddr) (flags : Flags)
  | unmap (va : VirtAddr)
  | translate (va : VirtAddr)
  /-- Run a body with the manager in hand. -/
  | withManager (body : Body)

/-- What is done with the manager in hand, in order. -/
inductive Body where
  | done
  /-- A request to the manager. -/
  | manager (request : Manager.Call) (rest : Body)
  /-- A request to the kernel's address space, made from within. -/
  | kernel (request : Call) (rest : Body)

end

inductive Reply where
  | installed
  | initialized (yes : Bool)
  | mapped (mapped : Mapped)
  | unmapped (unmapped : Option Unmapped)
  | address (pa : Option PhysAddr)
  | manager (reply : Manager.Reply)
  /-- A body ran to its end with these answers. -/
  | ran (replies : List Reply)
  | refused (reason : KernelError)
  /-- The manager to install could not be built. -/
  | notBuilt (reason : ManagerError)
  | panicked (message : String)

/-- The answer to a request that was refused or carried out. -/
def Reply.ofExcept {α : Type} (answer : α → Reply) :
    Except KernelError α → Reply
  | .ok result => answer result
  | .error reason => .refused reason

/-- The answer to a body that was refused, ran to its end or panicked. -/
def Reply.ofBody :
    Except KernelError (Except String (List Reply)) → Reply
  | .ok (.ok replies) => .ran replies
  | .ok (.error message) => .panicked message
  | .error reason => .refused reason

/-- The panic that an answer stands for. -/
def Reply.panic? : Reply → Option String
  | .panicked message => some message
  | .manager (.panicked message) => some message
  | _ => none

/-- Builds a manager, activates it if asked, and puts it in place. -/
def installNew (kernel : KernelSpace) (memory : Memory) (activate : Bool) :
    Reported KernelSpace Reply :=
  let made := Manager.create memory
  match made.value with
  | .error reason => ⟨.notBuilt reason, kernel, made.events⟩
  | .ok vm =>
      let ready := if activate then vm.activate else .quiet () vm
      match kernel.install ready.state with
      | .ok kernel' => ⟨.installed, kernel', made.events ++ ready.events⟩
      | .error reason => ⟨.refused reason, kernel, made.events ++ ready.events⟩

mutual

def call : Call → KernelSpace → Reported KernelSpace Reply
  | .install memory activate, kernel => kernel.installNew memory activate
  | .put vm, kernel =>
      match kernel.install vm with
      | .ok kernel' => .quiet .installed kernel'
      | .error reason => .quiet (.refused reason) kernel
  | .isInitialized, kernel => .quiet (.initialized kernel.installed) kernel
  | .map va pa flags, kernel =>
      let done := kernel.map va pa flags
      { done with value := .ofExcept .mapped done.value }
  | .unmap va, kernel =>
      let done := kernel.unmap va
      { done with value := .ofExcept .unmapped done.value }
  | .translate va, kernel =>
      let done := kernel.translate va
      { done with value := .ofExcept .address done.value }
  | .withManager body, kernel =>
      let done := kernel.withManager (runBody body)
      { done with value := .ofBody done.value }

/-- Runs a body with the manager in hand, up to its end or to the first panic.
The lock is held all the time. -/
def runBody : Body → Manager × KernelSpace →
    Reported (Manager × KernelSpace) (Except String (List Reply))
  | .done, state => .quiet (.ok []) state
  | .manager request rest, (vm, kernel) =>
      let step := vm.call request
      let reply : Reply := .manager step.value
      match reply.panic? with
      | some message => ⟨.error message, (step.state, kernel), step.events⟩
      | none =>
          let others := runBody rest (step.state, kernel)
          ⟨others.value.map (reply :: ·), others.state,
            step.events ++ others.events⟩
  | .kernel request rest, (vm, kernel) =>
      let step := call request kernel
      match step.value.panic? with
      | some message => ⟨.error message, (vm, step.state), step.events⟩
      | none =>
          let others := runBody rest (vm, step.state)
          ⟨others.value.map (step.value :: ·), others.state,
            step.events ++ others.events⟩

end

/-- The manager as it is seen from outside, between requests. -/
def inspect (kernel : KernelSpace) : Except KernelError Manager :=
  match kernel.enter with
  | .ok (vm, _) => .ok vm
  | .error reason => .error reason

end FourLevelPaging.KernelSpace
