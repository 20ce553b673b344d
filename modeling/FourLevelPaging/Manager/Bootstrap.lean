/-
Building the kernel's first tree from a policy.
-/
import FourLevelPaging.Manager

namespace FourLevelPaging

/-- One stage of the first tree: what it maps, and what it reports of so many
pages. -/
structure Stage where
  part : BootstrapStage
  va : VirtAddr
  pa : PhysAddr
  bytes : Word
  size : PageSize
  flags : Flags
  report : Nat → Event

namespace Policy

/-- Low memory, at its own addresses. -/
def identityStage (policy : Policy) : Stage where
  part := .identity
  va := ⟨0⟩
  pa := ⟨0⟩
  bytes := policy.identityBytes
  size := .twoM
  flags := identityFlags
  report := .identityMapped policy.identityBytes

/-- The kernel image. -/
def imageStage (policy : Policy) : Stage where
  part := .kernelImage
  va := policy.imageVirt
  pa := policy.imagePhys
  bytes := policy.imageSize
  size := .fourK
  flags := imageFlags
  report := .imageMapped policy.imageVirt policy.imagePhys

end Policy

namespace Manager

/-- Maps the range of a stage. -/
def mapStage (vm : Manager) (stage : Stage) :
    Reported Manager (Except BootstrapError Unit) :=
  let done := vm.mapRange stage.va stage.pa stage.bytes stage.size stage.flags
  match done.value with
  | .ok pages => ⟨.ok (), done.state, done.events.push (stage.report pages)⟩
  | .error source => { done with value := .error (.stage stage.part source) }

/-- Maps the identity window of a policy. -/
def mapIdentity (vm : Manager) (policy : Policy) :
    Reported Manager (Except BootstrapError Unit) :=
  vm.mapStage policy.identityStage

/-- Maps the kernel image of a policy. -/
def mapImage (vm : Manager) (policy : Policy) :
    Reported Manager (Except BootstrapError Unit) :=
  vm.mapStage policy.imageStage

/-- Maps everything a policy asks for.  What was mapped before a failure
stays. -/
def build (vm : Manager) (policy : Policy) :
    Reported Manager (Except BootstrapError Unit) :=
  match policy.validate with
  | .error e => .quiet (.error e) vm
  | .ok () =>
      let identity := vm.mapIdentity policy
      match identity.value with
      | .error e => { identity with value := .error e }
      | .ok () =>
          let image := identity.state.mapImage policy
          { image with events := identity.events ++ image.events }

/-- Maps everything a policy asks for and then activates the space. -/
def init (vm : Manager) (policy : Policy) :
    Reported Manager (Except BootstrapError Unit) :=
  let built := vm.build policy
  match built.value with
  | .error e => { built with value := .error e }
  | .ok () =>
      let live := built.state.activate
      ⟨.ok (), live.state, built.events ++ live.events⟩

end Manager

end FourLevelPaging
