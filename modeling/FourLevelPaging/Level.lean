/-
The four levels of the tree that translates addresses.  Each level is indexed by
nine bits of the virtual address; the three lower levels hold leaves of one size
each.
-/
import FourLevelPaging.Entry

namespace FourLevelPaging

/-- The position of an entry in a node. -/
abbrev Index := Fin 512

namespace Index

/-- The index `raw`, if a node has such an entry. -/
def ofNat? (raw : Nat) : Option Index :=
  if h : raw < 512 then some ⟨raw, h⟩ else none

/-- The low nine bits of `raw`. -/
def ofBits (raw : Nat) : Index := ⟨raw % 512, Nat.mod_lt _ (by decide)⟩

end Index

/-- A level of the tree, root first. -/
inductive Level where
  | pml4
  | pdpt
  | pd
  | pt
deriving DecidableEq

namespace Level

/-- How many levels lie below. -/
def height : Level → Nat
  | pml4 => 3
  | pdpt => 2
  | pd => 1
  | pt => 0

/-- The lowest address bit of the level's index. -/
def shift (level : Level) : Nat := 12 + 9 * level.height

/-- The index of `va` at this level. -/
def index (level : Level) (va : VirtAddr) : Index :=
  .ofBits (va.toNat / 2 ^ level.shift)

/-- The level below, if there is one. -/
def next : Level → Option Level
  | pml4 => some pdpt
  | pdpt => some pd
  | pd => some pt
  | pt => none

/-- All levels, in the order in which a walk meets them. -/
def all : List Level := [pml4, pdpt, pd, pt]

/-- The size of the leaves held at this level; the root holds none. -/
def leafSize : Level → Option PageSize
  | pml4 => none
  | pdpt => some .oneG
  | pd => some .twoM
  | pt => some .fourK

/-- Whether a present entry ends the walk at this level. -/
def isLeaf : Level → Entry → Bool
  | pml4, _ => false
  | pdpt, e => e.has .huge
  | pd, e => e.has .huge
  | pt, _ => true

/-- The name of the level in messages. -/
def label : Level → String
  | pml4 => "PML4"
  | pdpt => "PDPT"
  | pd => "PD"
  | pt => "PT"

end Level

namespace PageSize

/-- The level whose entries hold leaves of this size. -/
def level : PageSize → Level
  | fourK => .pt
  | twoM => .pd
  | oneG => .pdpt

/-- The levels above that one, root first. -/
def above : PageSize → List Level
  | fourK => [.pml4, .pdpt, .pd]
  | twoM => [.pml4, .pdpt]
  | oneG => [.pml4]

/-- The size is one that is asked for with the huge flag. -/
def isHuge : PageSize → Bool
  | fourK => false
  | twoM => true
  | oneG => true

/-- The largest size that both addresses are aligned to if a huge page is
wanted, and 4 KiB otherwise. -/
def select (va : VirtAddr) (pa : PhysAddr) (huge : Bool) : PageSize :=
  if huge && va.isAligned .oneG && pa.isAligned .oneG then oneG
  else if huge && va.isAligned .twoM && pa.isAligned .twoM then twoM
  else fourK

theorem leafSize_level (size : PageSize) : size.level.leafSize = some size := by
  cases size <;> rfl

theorem two_pow_shift_level (size : PageSize) :
    2 ^ size.level.shift = size.bytes := by
  cases size <;> rfl

end PageSize

example : Level.all.map (fun level => (level.index ⟨0xFFFFFFFF80203000⟩).val) =
    [511, 510, 1, 3] := by decide

end FourLevelPaging
