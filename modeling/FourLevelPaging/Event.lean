/-
What the memory manager reports while it works.
-/
import FourLevelPaging.FramePool.Error
import FourLevelPaging.Level
import FourLevelPaging.Outcome

namespace FourLevelPaging

/-- How important a report is. -/
inductive Severity where
  | trace
  | debug
  | info
  | warn
deriving DecidableEq

/-- The name of a severity in front of a report. -/
def Severity.label : Severity → String
  | trace => "TRACE"
  | debug => "DEBUG"
  | info => "INFO"
  | warn => "WARN"

/-- Something worth reporting. -/
inductive Event where
  /-- A region was carved into frames. -/
  | poolCarved (frames : Nat) (start : PhysAddr)
  /-- A frame handed back was not accepted. -/
  | freeIgnored (reason : FramePoolError)
  /-- An address space got its root node. -/
  | rootAdded (root : Frame)
  /-- A node was linked into a tree. -/
  | nodeAdded (level : Level) (node : Frame)
  /-- A huge mapping was asked for, but the addresses allow 4 KiB only. -/
  | demoted (va : VirtAddr) (pa : PhysAddr)
  | leafMapped (va : VirtAddr) (pa : PhysAddr) (size : PageSize)
  | leafUnmapped (va : VirtAddr) (size : PageSize)
  /-- The nodes added by a failed mapping were taken out again. -/
  | rolledBack (nodes : Nat)
  /-- A node left without entries was taken out. -/
  | nodeReclaimed (node : Frame)
  | rangeMapped (pages : Nat) (size : PageSize) (va : VirtAddr) (pa : PhysAddr)
  | identityMapped (bytes : Word) (pages : Nat)
  | imageMapped (va : VirtAddr) (pa : PhysAddr) (pages : Nat)
  /-- The processor translates through this tree from now on. -/
  | activated (root : Frame) (nodes : Nat)
deriving DecidableEq

namespace Event

def severity : Event → Severity
  | freeIgnored _ => .warn
  | poolCarved _ _ => .debug
  | rootAdded _ => .debug
  | nodeAdded _ _ => .debug
  | demoted _ _ => .debug
  | rolledBack _ => .debug
  | nodeReclaimed _ => .debug
  | leafMapped _ _ _ => .trace
  | leafUnmapped _ _ => .trace
  | rangeMapped _ _ _ _ => .trace
  | identityMapped _ _ => .info
  | imageMapped _ _ _ => .info
  | activated _ _ => .info

def message : Event → String
  | poolCarved frames start =>
      "frame pool: " ++ toString frames ++ " frames at " ++ start.text
  | freeIgnored reason => "ignoring frame free: " ++ reason.message
  | rootAdded root => "address space root at " ++ root.text
  | nodeAdded level node => "new " ++ level.label ++ " node " ++ node.text
  | demoted va pa =>
      "huge mapping " ++ va.text ++ " -> " ++ pa.text ++
        " demoted to 4K (alignment)"
  | leafMapped va pa size =>
      "map " ++ va.text ++ " -> " ++ pa.text ++ " (" ++ size.label ++ ")"
  | leafUnmapped va size => "unmap " ++ va.text ++ " (" ++ size.label ++ ")"
  | rolledBack nodes => "rolled back " ++ toString nodes ++ " node(s)"
  | nodeReclaimed node => "reclaimed empty node " ++ node.text
  | rangeMapped pages size va pa =>
      "mapped " ++ toString pages ++ " x " ++ size.label ++ " at " ++ va.text ++
        " -> " ++ pa.text
  | identityMapped bytes pages =>
      "identity mapped " ++ Hex.literal bytes.toNat ++ " bytes (" ++
        toString pages ++ " x 2M)"
  | imageMapped va pa pages =>
      "kernel image " ++ va.text ++ " -> " ++ pa.text ++ " (" ++
        toString pages ++ " x 4K)"
  | activated root nodes =>
      "address space " ++ root.text ++ " active (" ++ toString nodes ++
        " table frames)"

/-- The event as one line of the report. -/
def line (event : Event) : String :=
  event.severity.label ++ " " ++ event.message

end Event

/-- The outcome of an operation that reports events. -/
abbrev Reported (σ : Type) (α : Type) := Outcome Event σ α

end FourLevelPaging
