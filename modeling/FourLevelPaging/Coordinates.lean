/-
Addresses as the tree reads them: an index for every level that the walk to a
leaf passes, and an offset inside the page of the leaf.
-/
import FourLevelPaging.Level

namespace FourLevelPaging

/-- The walk to a leaf of this size passes the level: it is the leaf's or one
above. -/
def PageSize.Passes (size : PageSize) (level : Level) : Prop :=
  size.level.height ≤ level.height

instance (size : PageSize) (level : Level) : Decidable (size.Passes level) :=
  inferInstanceAs (Decidable (_ ≤ _))

/-- What leads from the root to a byte of a leaf. -/
@[ext]
structure Coordinates (size : PageSize) where
  /-- The index at each level from the root down to the leaf's. -/
  index : (level : Level) → size.Passes level → Index
  offset : PageOffset size

namespace Coordinates

variable {size : PageSize}

/-- The index at a level, moved up to the bits of the address that are its
own. -/
def term (c : Coordinates size) (level : Level) : Nat :=
  if h : size.Passes level then (c.index level h).val <<< level.shift else 0

/-- The number that the indices and the offset make up. -/
def number (c : Coordinates size) : Nat :=
  (Level.all.map c.term).sum + c.offset.val

/-- The canonical address with these coordinates. -/
def address (c : Coordinates size) : VirtAddr :=
  VirtAddr.canonicalize (.ofNat c.number)

end Coordinates

/-- The indices of an address and its offset, down to a leaf of the given
size. -/
def VirtAddr.coordinates (size : PageSize) (va : VirtAddr) :
    Coordinates size where
  index level _ := level.index va
  offset := va.offset size

example :
    (VirtAddr.coordinates .twoM ⟨0xFFFFFFFF80203000⟩).number =
      0xFFFF80203000 := by
  decide
example :
    (VirtAddr.coordinates .twoM ⟨0xFFFFFFFF80203000⟩).address =
      ⟨0xFFFFFFFF80203000⟩ := by
  decide

end FourLevelPaging
