/-
Mapping one page.  The walk down adds the nodes that are missing; if it cannot
go on, the nodes it added are unlinked and handed back.
-/
import FourLevelPaging.AddressSpace.Basic

namespace FourLevelPaging

/-- A node added by a walk and the entry that points at it. -/
structure Added where
  cell : Cell
  node : Frame
deriving DecidableEq

/-- What a mapping did: the size of the leaf, and the leaf it replaced. -/
structure Mapped where
  size : PageSize
  replaced : Option Entry
deriving DecidableEq

namespace Memory

/-- Goes down from the node in `frame` along `va` through the given levels,
adding missing nodes.  Answers the node reached and the nodes added, the topmost
first. -/
def descend (va : VirtAddr) (flags : Flags) :
    List Level → Frame → Memory →
      Reported Memory (Except MapError Frame × List Added)
  | [], frame, mem => .quiet (.ok frame, []) mem
  | level :: below, frame, mem =>
      let cell : Cell := ⟨frame, level.index va⟩
      let step := mem.childOrCreate level cell flags
      match step.value with
      | .ok (.table node) =>
          let rest := descend va flags below node step.state
          { rest with events := step.events ++ rest.events }
      | .ok (.created node) =>
          let rest := descend va flags below node step.state
          ⟨(rest.value.1, ⟨cell, node⟩ :: rest.value.2), rest.state,
            step.events ++ rest.events⟩
      | .ok _ => ⟨(.error (.conflict va level), []), step.state, step.events⟩
      | .error e => ⟨(.error e, []), step.state, step.events⟩

/-- Writes the leaf for `va` into the node in `frame`, over a leaf of the same
size or an absent entry. -/
def place (mem : Memory) (frame : Frame) (va : VirtAddr) (pa : PhysAddr)
    (size : PageSize) (flags : Flags) :
    Reported Memory (Except MapError Mapped) :=
  let i := size.level.index va
  let old := mem.read frame i
  if old.present && size.isHuge && !old.has .huge then
    .quiet (.error (.conflict va size.level)) mem
  else
    ⟨.ok ⟨size, if old.present then some old else none⟩,
      mem.write frame i (.leaf (pa.page .fourK) (flags.put .huge size.isHuge)),
      #[.leafMapped va pa size]⟩

/-- Takes the nodes added by a walk out again.  They form one chain, so clearing
the entry of the topmost detaches all of them. -/
def rollBack (mem : Memory) (added : List Added) : Reported Memory Unit :=
  match added with
  | [] => .quiet () mem
  | top :: _ =>
      let freed := giveBackAll (added.map Added.node)
        (mem.clear top.cell.frame top.cell.index)
      { freed with events := freed.events.push (.rolledBack added.length) }

end Memory

namespace AddressSpace

/-- The flags of the entries above a leaf. -/
def parentFlags (flags : Flags) : Flags :=
  Flags.table.put .user (flags.has .user)

/-- Adds the nodes that a leaf needs and writes the leaf. -/
def install (space : AddressSpace) (mem : Memory) (va : VirtAddr)
    (pa : PhysAddr) (size : PageSize) (flags : Flags) :
    Reported Memory (Except MapError Mapped × List Added) :=
  let walk := Memory.descend va (parentFlags flags) size.above space.root mem
  match walk.value with
  | (.error e, added) => { walk with value := (.error e, added) }
  | (.ok frame, added) =>
      let leaf := walk.state.place frame va pa size flags
      ⟨(leaf.value, added), leaf.state, walk.events ++ leaf.events⟩

/-- Maps the page of exactly `size` at `va` to `pa`.  A leaf of the same size is
replaced.  If this fails, no node is added. -/
def mapSized (space : AddressSpace) (mem : Memory) (va : VirtAddr)
    (pa : PhysAddr) (size : PageSize) (flags : Flags) :
    Reported Memory (Except MapError Mapped) :=
  if !va.isCanonical then .quiet (.error (.nonCanonical va)) mem
  else if !(va.isAligned size && pa.isAligned size) then
    .quiet (.error (.unaligned va pa size)) mem
  else
    let done := space.install mem va pa size flags
    match done.value with
    | (.ok mapped, _) => ⟨.ok mapped, done.state, done.events⟩
    | (.error e, added) =>
        let undone := done.state.rollBack added
        ⟨.error e, undone.state, done.events ++ undone.events⟩

/-- Maps the page at `va` to `pa`, as large as the addresses allow if `flags`
ask for a huge page. -/
def map (space : AddressSpace) (mem : Memory) (va : VirtAddr) (pa : PhysAddr)
    (flags : Flags) : Reported Memory (Except MapError Mapped) :=
  let size := PageSize.select va pa (flags.has .huge)
  let done := space.mapSized mem va pa size flags
  if flags.has .huge && size = .fourK then
    { done with events := #[.demoted va pa] ++ done.events }
  else done

end AddressSpace

end FourLevelPaging
