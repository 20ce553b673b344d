/-
Requests outside the contract of an operation.  The kernel does not answer
them: it stops with a message.
-/

namespace FourLevelPaging

/-- A broken precondition, found at run time. -/
inductive Fault where
  /-- A sum does not fit in a word. -/
  | sumOverflow
  /-- An alignment is not a power of two. -/
  | alignmentNotPowerOfTwo
  /-- A leaf entry was asked for at an address inside a frame. -/
  | leafBaseUnaligned
  /-- A field was given a value above `max`. -/
  | valueOutOfBounds (max : Nat)
deriving DecidableEq

namespace Fault

/-- The text the kernel stops with. -/
def message : Fault → String
  | sumOverflow => "attempt to add with overflow"
  | alignmentNotPowerOfTwo => "assertion failed: align.is_power_of_two()"
  | leafBaseUnaligned => "leaf base not frame aligned"
  | valueOutOfBounds max => "value out of bounds [0, " ++ toString max ++ "]"

end Fault

end FourLevelPaging
