/-
Reading a tree: the walk for an address, the target it yields, the number
of nodes and the list of all entries.  None of these changes memory.
-/
import FourLevelPaging.AddressSpace.Basic

namespace FourLevelPaging

/-- The leaf found by a walk: its place, the places passed on the way to it,
root first, and what it holds. -/
structure Hit where
  above : List Cell
  cell : Cell
  entry : Entry
  size : PageSize
deriving DecidableEq

/-- Follows `va` from the node in `frame` through the given levels to a leaf. -/
def Ram.walk (ram : Ram) (va : VirtAddr) : List Level → Frame → Option Hit
  | [], _ => none
  | level :: below, frame =>
      let cell : Cell := ⟨frame, level.index va⟩
      match ram.child level cell with
      | .leaf entry =>
          match level.leafSize with
          | some size => some ⟨[], cell, entry, size⟩
          | none => none
      | .table node =>
          match ram.walk va below node with
          | some hit => some { hit with above := cell :: hit.above }
          | none => none
      | _ => none

/-- Where an address leads, and through what kind of leaf. -/
structure Target where
  phys : PhysAddr
  size : PageSize
  flags : Flags
deriving DecidableEq

/-- Where `va` leads through a leaf that covers it. -/
def Hit.target (hit : Hit) (va : VirtAddr) : Target :=
  { phys := (hit.entry.base.page hit.size).join (va.offset hit.size)
    size := hit.size
    flags := hit.entry.flags }

/-- The number of nodes below and including the one in `frame`, whose level is
the first of the list.  Nodes of the last level have none below. -/
def Ram.countNodes (ram : Ram) : List Level → Frame → Nat
  | level :: next :: below, frame =>
      1 + ((ram.node frame).present.map fun (_, e) =>
        if level.isLeaf e then 0
        else ram.countNodes (next :: below) e.tableFrame).sum
  | _, _ => 1

/-- A present entry and where it stands. -/
structure Listed where
  level : Level
  cell : Cell
  entry : Entry
deriving DecidableEq

/-- The present entries of the tree under `frame`, every node's entries in
order, each followed by those of the node it points at. -/
def Ram.list (ram : Ram) : List Level → Frame → List Listed
  | [], _ => []
  | level :: below, frame =>
      (ram.node frame).present.flatMap fun (i, e) =>
        ⟨level, ⟨frame, i⟩, e⟩ ::
          if level.isLeaf e then [] else ram.list below e.tableFrame

namespace AddressSpace

/-- The leaf that covers `va`. -/
def find? (space : AddressSpace) (ram : Ram) (va : VirtAddr) : Option Hit :=
  if va.isCanonical then ram.walk va Level.all space.root else none

/-- Where `va` leads. -/
def lookup (space : AddressSpace) (ram : Ram) (va : VirtAddr) :
    Option Target :=
  (space.find? ram va).map fun hit => hit.target va

def translate (space : AddressSpace) (ram : Ram) (va : VirtAddr) :
    Option PhysAddr :=
  (space.lookup ram va).map Target.phys

def tableFrames (space : AddressSpace) (ram : Ram) : Nat :=
  ram.countNodes Level.all space.root

/-- Every present entry of the tree. -/
def list (space : AddressSpace) (ram : Ram) : List Listed :=
  ram.list Level.all space.root

end AddressSpace

end FourLevelPaging
