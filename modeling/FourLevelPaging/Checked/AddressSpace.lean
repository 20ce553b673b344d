/-
Address spaces over memory whose pool lies in arrays.  A mapping notes the nodes
it adds in an array of three, and an unmapping the places it passes in an array
of four.
-/
import FourLevelPaging.AddressSpace.Map
import FourLevelPaging.AddressSpace.Unmap
import FourLevelPaging.Checked.Store

namespace FourLevelPaging

open Checked

/-- The nodes added by a mapping, and the place of the entry that points at the
first. -/
structure Created where
  link : Option (Frame × Nat)
  nodes : Vector (Option Frame) 3
  count : Nat

namespace Created

def none : Created := ⟨.none, .replicate 3 .none, 0⟩

/-- Notes a node added at an entry of the node in `parent`. -/
def push (created : Created) (parent : Frame) (i : Nat) (node : Frame) :
    Checked Created := do
  let nodes ← setItem created.nodes created.count (some node)
  let count ← sum created.count 1
  return { link := created.link.or (some (parent, i)), nodes, count }

/-- The nodes noted, the topmost first. -/
def listed (created : Created) : List Frame :=
  (created.nodes.toList.take created.count).filterMap id

end Created

/-- The places passed by an unmapping, root first. -/
structure Passed where
  cells : Vector (Frame × Nat) 4
  depth : Nat

namespace Passed

def none (root : Frame) : Passed := ⟨.replicate 4 (root, 0), 0⟩

def push (passed : Passed) (cell : Frame × Nat) : Checked Passed := do
  let cells ← setItem passed.cells passed.depth cell
  let depth ← sum passed.depth 1
  return { cells, depth }

end Passed

/-- The leaf found by an unmapping: the places passed, the last of them the
leaf's own, and what it holds. -/
structure Found where
  passed : Passed
  cell : Frame × Nat
  entry : Entry
  size : PageSize

namespace Store

variable {limit : Nat}

/-- A root for an empty space. -/
def createSpace (s : Store limit) :
    Checked (Reported (Store limit) (Except MapError AddressSpace)) := do
  match ← s.pool.allocate with
  | (.error _, pool) =>
      return .quiet (.error (.outOfMemory .pml4)) { s with pool }
  | (.ok root, pool) => do
      let blanked ← blank { s with pool } [] root
      return ⟨.ok ⟨root⟩, blanked, #[.rootAdded root]⟩

/-- Goes down from the node in `frame` along `va` through the given levels,
adding missing nodes and noting them. -/
def descend (root : Frame) (va : VirtAddr) (flags : Flags) :
    List Level → Frame → Created → Store limit →
      Checked (Reported (Store limit) (Except MapError Frame × Created))
  | [], frame, created, s => return .quiet (.ok frame, created) s
  | level :: below, frame, created, s => do
      let step ← s.follow root level frame (level.rawIndex va) flags
      match step.value with
      | .ok (.table node) => do
          let rest ← descend root va flags below node created step.state
          return { rest with events := step.events ++ rest.events }
      | .ok (.created node) => do
          let noted ← created.push frame (level.rawIndex va) node
          let rest ← descend root va flags below node noted step.state
          return { rest with events := step.events ++ rest.events }
      | .ok _ =>
          return ⟨(.error (.conflict va level), created), step.state,
            step.events⟩
      | .error e => return ⟨(.error e, created), step.state, step.events⟩

/-- Writes the leaf for `va` into the node in `frame`, over a leaf of the same
size or an absent entry. -/
def place (s : Store limit) (root frame : Frame) (va : VirtAddr) (pa : PhysAddr)
    (size : PageSize) (flags : Flags) :
    Checked (Reported (Store limit) (Except MapError Mapped)) := do
  s.access root frame
  let old ← s.get frame (size.level.rawIndex va)
  if old.present && size.isHuge && !old.has .huge then
    return .quiet (.error (.conflict va size.level)) s
  else do
    let leaf ← Entry.checkedLeaf pa (flags.put .huge size.isHuge)
    let written ← s.put frame (size.level.rawIndex va) leaf
    return ⟨.ok ⟨size, if old.present then some old else none⟩, written,
      #[.leafMapped va pa size]⟩

/-- Takes the nodes added by a mapping out again. -/
def rollBack (s : Store limit) (root : Frame) (created : Created) :
    Checked (Reported (Store limit) Unit) :=
  match created.link with
  | none => return .quiet () s
  | some (parent, i) => do
      s.access root parent
      let cleared ← s.put parent i .empty
      let freed ← giveBackAll created.listed cleared
      return { freed with
        events := freed.events.push (.rolledBack created.count) }

/-- Adds the nodes that a leaf needs and writes the leaf. -/
def install (s : Store limit) (root : Frame) (va : VirtAddr) (pa : PhysAddr)
    (size : PageSize) (flags : Flags) :
    Checked (Reported (Store limit) (Except MapError Mapped × Created)) := do
  let walk ←
    descend root va (AddressSpace.parentFlags flags) size.above root .none s
  match walk.value with
  | (.error e, created) => return { walk with value := (.error e, created) }
  | (.ok frame, created) => do
      let leaf ← walk.state.place root frame va pa size flags
      return ⟨(leaf.value, created), leaf.state, walk.events ++ leaf.events⟩

/-- Maps the page of exactly `size` at `va` to `pa`. -/
def mapSized (s : Store limit) (root : Frame) (va : VirtAddr) (pa : PhysAddr)
    (size : PageSize) (flags : Flags) :
    Checked (Reported (Store limit) (Except MapError Mapped)) :=
  if !va.isCanonical then return .quiet (.error (.nonCanonical va)) s
  else if !(va.isAligned size && pa.isAligned size) then
    return .quiet (.error (.unaligned va pa size)) s
  else do
    let done ← s.install root va pa size flags
    match done.value with
    | (.ok mapped, _) => return ⟨.ok mapped, done.state, done.events⟩
    | (.error e, created) => do
        let undone ← done.state.rollBack root created
        return ⟨.error e, undone.state, done.events ++ undone.events⟩

/-- Maps the page at `va` to `pa`, as large as the addresses allow if `flags`
ask for a huge page. -/
def map (s : Store limit) (root : Frame) (va : VirtAddr) (pa : PhysAddr)
    (flags : Flags) :
    Checked (Reported (Store limit) (Except MapError Mapped)) := do
  let size := PageSize.select va pa (flags.has .huge)
  let done ← s.mapSized root va pa size flags
  if flags.has .huge && size = .fourK then
    return { done with events := #[.demoted va pa] ++ done.events }
  else return done

/-- Follows `va` from the node in `frame` through the given levels to a leaf,
noting the places passed. -/
def find? (s : Store limit) (root : Frame) (va : VirtAddr) :
    List Level → Frame → Passed → Checked (Option Found)
  | [], _, _ => return none
  | level :: below, frame, passed => do
      let noted ← passed.push (frame, level.rawIndex va)
      match ← s.peek root level frame (level.rawIndex va) with
      | .table node => s.find? root va below node noted
      | .leaf entry => return level.leafSize.map fun size =>
          ⟨noted, (frame, level.rawIndex va), entry, size⟩
      | _ => return none

/-- Takes out empty nodes from the given depth of a path upwards, up to the
first node that still has entries; `freed` were taken out before. -/
def reclaim (root : Frame) (path : List (Frame × Nat)) :
    Nat → Nat → Store limit → Checked (Reported (Store limit) Nat)
  | 0, freed, s => return .quiet freed s
  | depth + 1, freed, s => do
      let (frame, _) ← item path (depth + 1)
      s.access root frame
      if (s.ram.node frame).isEmpty then do
        let above ← difference (depth + 1) 1
        let (parent, i) ← item path above
        s.access root parent
        let cleared ← s.put parent i .empty
        let given ← cleared.giveBack frame
        let more ← sum freed 1
        let rest ← reclaim root path depth more given.state
        return { rest with
          events := given.events.push (.nodeReclaimed frame) ++ rest.events }
      else return .quiet freed s

/-- Takes away the leaf that covers `va`, whatever its size. -/
def unmap (s : Store limit) (root : Frame) (va : VirtAddr) :
    Checked (Reported (Store limit) (Option Unmapped)) :=
  if va.isCanonical then do
    match ← s.find? root va Level.all root (.none root) with
    | none => return .quiet none s
    | some hit => do
        s.access root hit.cell.1
        let cleared ← s.put hit.cell.1 hit.cell.2 .empty
        let path ← slice hit.passed.cells.toList hit.passed.depth
        let freed ← reclaim root path (path.length - 1) 0 cleared
        return ⟨some ⟨hit.size, hit.entry, freed.value⟩, freed.state,
          #[.leafUnmapped va hit.size] ++ freed.events⟩
  else return .quiet none s

/-- Where `va` leads from the node in `frame` on. -/
def lookupFrom (s : Store limit) (root : Frame) (va : VirtAddr) :
    List Level → Frame → Checked (Option Target)
  | [], _ => return none
  | level :: below, frame => do
      match ← s.peek root level frame (level.rawIndex va) with
      | .table node => s.lookupFrom root va below node
      | .leaf entry => return level.leafSize.map fun size =>
          { phys := (entry.base.page size).join (va.offset size), size,
            flags := entry.flags }
      | _ => return none

/-- Where `va` leads. -/
def lookup (s : Store limit) (root : Frame) (va : VirtAddr) :
    Checked (Option Target) :=
  if va.isCanonical then s.lookupFrom root va Level.all root else return none

/-- The number of nodes below and including the one in `frame`. -/
def countNodes (s : Store limit) (root : Frame) :
    List Level → Frame → Checked Nat
  | level :: next :: below, frame => do
      s.access root frame
      let total ← (s.ram.node frame).present.foldlM (fun total (_, e) => do
        if level.isLeaf e then return total
        else do
          let nodes ← s.countNodes root (next :: below) e.tableFrame
          sum total nodes) 0
      sum 1 total
  | _, _ => return 1

end Store

end FourLevelPaging
