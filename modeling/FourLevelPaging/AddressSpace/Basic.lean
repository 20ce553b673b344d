/-
Address spaces: trees of nodes, named by the frame of the root.  Every operation
on a tree goes through one step, which follows a single entry.
-/
import FourLevelPaging.MapError
import FourLevelPaging.Memory

namespace FourLevelPaging

/-- The place of an entry: an index in the node of a frame. -/
structure Cell where
  frame : Frame
  index : Index
deriving DecidableEq

/-- What an entry leads to. -/
inductive Child where
  /-- A node of the next level. -/
  | table (node : Frame)
  /-- A node of the next level that was linked just now. -/
  | created (node : Frame)
  /-- A leaf, through which a walk must not go on. -/
  | leaf (entry : Entry)
  /-- Nothing. -/
  | absent
deriving DecidableEq

/-- What the entry at `cell` of a node of the given level leads to. -/
def Ram.child (ram : Ram) (level : Level) (cell : Cell) : Child :=
  let e := ram.read cell.frame cell.index
  if e.present then
    if level.isLeaf e then .leaf e else .table e.tableFrame
  else .absent

/-- What the entry at `cell` leads to, linking an empty node of the next level
there if it leads to nothing.  The entry of a node that was there before gains
the user bit if `flags` carry it. -/
def Memory.childOrCreate (mem : Memory) (level : Level) (cell : Cell)
    (flags : Flags) : Reported Memory (Except MapError Child) :=
  match mem.ram.child level cell with
  | .table node =>
      let e := mem.read cell.frame cell.index
      if flags.has .user && !e.has .user then
        .quiet (.ok (.table node))
          (mem.write cell.frame cell.index (e.put .user true))
      else .quiet (.ok (.table node)) mem
  | .absent =>
      match level.next with
      | none => .quiet (.ok .absent) mem
      | some below =>
          match mem.newNode? with
          | none => .quiet (.error (.outOfMemory below)) mem
          | some (node, mem') =>
              ⟨.ok (.created node),
                mem'.write cell.frame cell.index (.table node flags),
                #[.nodeAdded below node]⟩
  | found => .quiet (.ok found) mem

/-- An address space, named by the frame of its root node. -/
structure AddressSpace where
  root : Frame
deriving DecidableEq

/-- An address space with an empty root taken from the pool. -/
def AddressSpace.create (mem : Memory) :
    Reported Memory (Except MapError AddressSpace) :=
  match mem.newNode? with
  | none => .quiet (.error (.outOfMemory .pml4)) mem
  | some (root, mem') => ⟨.ok ⟨root⟩, mem', #[.rootAdded root]⟩

end FourLevelPaging
