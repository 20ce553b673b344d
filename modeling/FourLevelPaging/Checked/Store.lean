/-
Memory whose pool lies in arrays.  A node is accessed only if it is one: its
frame is handed out and holds a node of the tree.  Entries are read and written
at the numbers that the bits of an address are, and made from addresses that
have to fit.
-/
import FourLevelPaging.AddressSpace.Basic
import FourLevelPaging.Checked.FramePool
import FourLevelPaging.Proofs.Tree.Count

namespace FourLevelPaging

/-- The number that the bits of `va` for this level are. -/
def Level.rawIndex (level : Level) (va : VirtAddr) : Nat :=
  ((va.bits >>> level.shift) &&& 0x1FF).toNat

namespace Entry

/-- A leaf at an untyped address.  The address has to be the base of a frame,
and the number of the frame has to fit in the address bits. -/
def checkedLeaf (base : PhysAddr) (flags : Flags) : Checked Entry :=
  match leafAt base flags with
  | .error fault => .error (.fault fault)
  | .ok e =>
      if ((base.bits &&& addressMask) >>> 12).toNat < 2 ^ 40 then .ok e
      else .error (.fault (.valueOutOfBounds (2 ^ 40 - 1)))

/-- A link to the node in `frame`. -/
def checkedTable (frame : Frame) (flags : Flags) : Checked Entry :=
  checkedLeaf frame.base (flags.put .huge false)

end Entry

/-- The contents of memory and the pool that nodes come from. -/
structure Store (limit : Nat) where
  ram : Ram
  pool : ArrayPool limit

namespace Store

open Checked

variable {limit : Nat}

/-- The memory that a store stands for. -/
def view (s : Store limit) : Memory := ⟨s.ram, s.pool.view⟩

/-- Access to the node in `frame`, which has to be one of the tree. -/
def access (s : Store limit) (root frame : Frame) : Checked Unit :=
  if frame ∈ s.pool.view.allocated ∧ frame ∈ s.ram.nodes Level.all root then
    .ok ()
  else .error (.strayFrame frame)

/-- Empties `frame` for a node to be added.  It has to be handed out, and must
not hold a node of the trees that are there. -/
def blank (s : Store limit) (roots : List Frame) (frame : Frame) :
    Checked (Store limit) :=
  if frame ∈ s.pool.view.allocated ∧
      ∀ root ∈ roots, frame ∉ s.ram.nodes Level.all root then
    .ok { s with ram := s.ram.zero frame }
  else .error (.strayFrame frame)

/-- The entry at an index of the node in `frame`. -/
def get (s : Store limit) (frame : Frame) (i : Nat) : Checked Entry :=
  item (s.ram.node frame).entries.toList i

/-- Replaces the entry at an index of the node in `frame`. -/
def put (s : Store limit) (frame : Frame) (i : Nat) (e : Entry) :
    Checked (Store limit) := do
  let entries ← setItem (s.ram.node frame).entries i e
  return { s with ram := s.ram.setNode frame ⟨entries⟩ }

/-- Hands a frame back to the pool. -/
def giveBack (s : Store limit) (frame : Frame) :
    Checked (Reported (Store limit) Unit) := do
  let given ← s.pool.giveBack frame
  return ⟨(), { s with pool := given.state }, given.events⟩

/-- Hands several frames back, in order. -/
def giveBackAll :
    List Frame → Store limit → Checked (Reported (Store limit) Unit)
  | [], s => return .quiet () s
  | frame :: rest, s => do
      let first ← s.giveBack frame
      let others ← giveBackAll rest first.state
      return ⟨(), others.state, first.events ++ others.events⟩

/-- What the entry at an index of the node in `frame` leads to. -/
def peek (s : Store limit) (root : Frame) (level : Level) (frame : Frame)
    (i : Nat) : Checked Child := do
  s.access root frame
  let e ← s.get frame i
  if e.present then
    if level.isLeaf e then return .leaf e else return .table e.tableFrame
  else return .absent

/-- Adds an empty node of the given level at an entry. -/
def link (s : Store limit) (root : Frame) (below : Level) (frame : Frame)
    (i : Nat) (flags : Flags) :
    Checked (Reported (Store limit) (Except MapError Child)) := do
  match ← s.pool.allocate with
  | (.error _, pool) =>
      return .quiet (.error (.outOfMemory below)) { s with pool }
  | (.ok node, pool) => do
      let blanked ← blank { s with pool } [root] node
      let e ← Entry.checkedTable node flags
      let linked ← blanked.put frame i e
      return ⟨.ok (.created node), linked, #[.nodeAdded below node]⟩

/-- What the entry at an index leads to, linking an empty node there if it leads
to nothing.  The entry of a node that was there before gains the user bit if
`flags` carry it. -/
def follow (s : Store limit) (root : Frame) (level : Level) (frame : Frame)
    (i : Nat) (flags : Flags) :
    Checked (Reported (Store limit) (Except MapError Child)) := do
  match ← s.peek root level frame i with
  | .table node => do
      let e ← s.get frame i
      if flags.has .user && !e.has .user then do
        let opened ← s.put frame i (e.put .user true)
        return .quiet (.ok (.table node)) opened
      else return .quiet (.ok (.table node)) s
  | .absent =>
      match level.next with
      | none => return .quiet (.ok .absent) s
      | some below => s.link root below frame i flags
  | found => return .quiet (.ok found) s

end Store

end FourLevelPaging
