/-
Why the memory manager refuses a request.
-/
import FourLevelPaging.Bootstrap.Policy
import FourLevelPaging.MapError

namespace FourLevelPaging

/-- The reasons for which a mapping request is refused. -/
inductive ManagerError where
  | map (reason : MapError)
  /-- The length is not a whole number of pages. -/
  | rangeLength (bytes : Word) (size : PageSize)
  /-- The range does not end inside the address range. -/
  | rangeOverflow (va : VirtAddr) (bytes : Word)
deriving DecidableEq

def ManagerError.message : ManagerError → String
  | map reason => reason.message
  | rangeLength bytes size =>
      "range length " ++ Hex.literal bytes.toNat ++ " is not a multiple of " ++
        size.label
  | rangeOverflow va bytes =>
      "range at " ++ va.text ++ " (+" ++ Hex.literal bytes.toNat ++
        ") overflows"

/-- The two parts of the first tree. -/
inductive BootstrapStage where
  | identity
  | kernelImage
deriving DecidableEq

def BootstrapStage.label : BootstrapStage → String
  | identity => "identity map"
  | kernelImage => "kernel image map"

/-- The reasons for which the first tree cannot be built. -/
inductive BootstrapError where
  | layout (fault : LayoutFault)
  | stage (part : BootstrapStage) (source : ManagerError)
deriving DecidableEq

def BootstrapError.message : BootstrapError → String
  | layout fault => "invalid bootstrap layout: " ++ fault.message
  | stage part source => part.label ++ " failed: " ++ source.message

namespace Policy

/-- Accepts the policy, or says what is wrong with it. -/
def validate (policy : Policy) : Except BootstrapError Unit :=
  match policy.fault? with
  | some fault => .error (.layout fault)
  | none => .ok ()

end Policy

end FourLevelPaging
