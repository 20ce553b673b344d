/-
Several address spaces that draw their nodes from one memory, and other holders
of frames beside them.  Requests are data, so that any interleaving of them is a
list.
-/
import FourLevelPaging.AddressSpace.Map
import FourLevelPaging.AddressSpace.Unmap

namespace FourLevelPaging

/-- A memory and the address spaces built in it, in order of their making. -/
structure Spaces where
  memory : Memory
  members : List AddressSpace

namespace Spaces

/-- A request to one of the spaces, to their pool or to their memory. -/
inductive Call where
  /-- Make a further space. -/
  | create
  /-- Treat the node in a frame as the root of a further space. -/
  | adopt (root : Frame)
  | allocate
  | free (frame : Frame)
  | peek (cell : Cell)
  | poke (cell : Cell) (entry : Entry)
  | zero (frame : Frame)
  | map (space : Nat) (va : VirtAddr) (pa : PhysAddr) (flags : Flags)
  | mapSized (space : Nat) (va : VirtAddr) (pa : PhysAddr) (size : PageSize)
      (flags : Flags)
  | unmap (space : Nat) (va : VirtAddr)
  | lookup (space : Nat) (va : VirtAddr)
  | translate (space : Nat) (va : VirtAddr)
  | root (space : Nat)
  /-- Follow one entry without changing it. -/
  | child (level : Level) (cell : Cell)
  /-- Follow one entry, adding the node it should lead to. -/
  | childOrCreate (level : Level) (cell : Cell) (flags : Flags)
  | list (space : Nat)

inductive Reply where
  | root (frame : Frame)
  | frame (frame : Frame)
  /-- The frame was taken back. -/
  | freed
  /-- The change was made. -/
  | noted
  | entry (entry : Entry)
  | mapped (mapped : Mapped)
  | unmapped (unmapped : Option Unmapped)
  | target (target : Option Target)
  | address (pa : Option PhysAddr)
  | child (child : Child)
  | listed (entries : List Listed)
  | refused (reason : MapError)
  | poolRefused (reason : FramePoolError)
  /-- There is no space of that number. -/
  | noSpace
deriving DecidableEq

/-- The answer to a mapping request. -/
def Reply.ofMapped : Except MapError Mapped → Reply
  | .ok done => .mapped done
  | .error reason => .refused reason

/-- The answer to a request to follow an entry. -/
def Reply.ofChild : Except MapError Child → Reply
  | .ok found => .child found
  | .error reason => .refused reason

/-- The same spaces after a change of memory. -/
def withMemory (spaces : Spaces) {α : Type} (answer : α → Reply)
    (done : Reported Memory α) : Reported Spaces Reply :=
  ⟨answer done.value, { spaces with memory := done.state }, done.events⟩

/-- Lets the space of the given number answer. -/
def onSpace (spaces : Spaces) (number : Nat)
    (answer : AddressSpace → Reported Spaces Reply) : Reported Spaces Reply :=
  match spaces.members[number]? with
  | some space => answer space
  | none => .quiet .noSpace spaces

def call (spaces : Spaces) : Call → Reported Spaces Reply
  | .create =>
      let made := AddressSpace.create spaces.memory
      match made.value with
      | .ok space =>
          ⟨.root space.root, ⟨made.state, spaces.members ++ [space]⟩,
            made.events⟩
      | .error reason =>
          ⟨.refused reason, { spaces with memory := made.state }, made.events⟩
  | .adopt root =>
      .quiet .noted { spaces with members := spaces.members ++ [⟨root⟩] }
  | .allocate =>
      match spaces.memory.pool.allocate with
      | .ok (frame, pool) =>
          .quiet (.frame frame) { spaces with memory.pool := pool }
      | .error reason => .quiet (.poolRefused reason) spaces
  | .free frame =>
      match spaces.memory.pool.free frame with
      | .ok pool => .quiet .freed { spaces with memory.pool := pool }
      | .error reason => .quiet (.poolRefused reason) spaces
  | .peek cell =>
      .quiet (.entry (spaces.memory.read cell.frame cell.index)) spaces
  | .poke cell entry =>
      .quiet .noted { spaces with memory := spaces.memory.write cell.frame
                                    cell.index entry }
  | .zero frame =>
      .quiet .noted { spaces with memory := spaces.memory.zero frame }
  | .map number va pa flags =>
      spaces.onSpace number fun space =>
        spaces.withMemory .ofMapped (space.map spaces.memory va pa flags)
  | .mapSized number va pa size flags =>
      spaces.onSpace number fun space =>
        spaces.withMemory .ofMapped
          (space.mapSized spaces.memory va pa size flags)
  | .unmap number va =>
      spaces.onSpace number fun space =>
        spaces.withMemory .unmapped (space.unmap spaces.memory va)
  | .lookup number va =>
      spaces.onSpace number fun space =>
        .quiet (.target (space.lookup spaces.memory.ram va)) spaces
  | .translate number va =>
      spaces.onSpace number fun space =>
        .quiet (.address (space.translate spaces.memory.ram va)) spaces
  | .root number =>
      spaces.onSpace number fun space => .quiet (.root space.root) spaces
  | .child level cell =>
      .quiet (.child (spaces.memory.ram.child level cell)) spaces
  | .childOrCreate level cell flags =>
      spaces.withMemory .ofChild (spaces.memory.childOrCreate level cell flags)
  | .list number =>
      spaces.onSpace number fun space =>
        .quiet (.listed (space.list spaces.memory.ram)) spaces

/-- The number of nodes of a space. -/
def tableFrames? (spaces : Spaces) (number : Nat) : Option Nat :=
  (spaces.members[number]?).map fun space => space.tableFrames spaces.memory.ram

end Spaces

end FourLevelPaging
