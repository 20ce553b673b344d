/-
The memory that trees are built in: the contents of the frames and the pool
that hands them out.  A frame for a node is emptied before it is linked.
-/
import FourLevelPaging.FramePool
import FourLevelPaging.Ram

namespace FourLevelPaging

/-- Physical memory together with the pool that its nodes come from. -/
structure Memory where
  ram : Ram
  pool : FramePool

namespace Memory

/-- The entry at an index of the node in a frame. -/
def read (mem : Memory) (frame : Frame) (i : Index) : Entry :=
  mem.ram.read frame i

def write (mem : Memory) (frame : Frame) (i : Index) (e : Entry) : Memory :=
  { mem with ram := mem.ram.write frame i e }

def clear (mem : Memory) (frame : Frame) (i : Index) : Memory :=
  mem.write frame i .empty

def zero (mem : Memory) (frame : Frame) : Memory :=
  { mem with ram := mem.ram.zero frame }

/-- Takes a frame from the pool and empties it. -/
def newNode? (mem : Memory) : Option (Frame × Memory) :=
  match mem.pool.take? with
  | some (frame, pool) => some (frame, zero { mem with pool } frame)
  | none => none

/-- Hands a frame back to the pool. -/
def giveBack (mem : Memory) (frame : Frame) : Reported Memory Unit :=
  let given := mem.pool.giveBack frame
  ⟨(), { mem with pool := given.state }, given.events⟩

/-- Hands several frames back, in order. -/
def giveBackAll : List Frame → Memory → Reported Memory Unit
  | [], mem => .quiet () mem
  | frame :: rest, mem =>
      let first := mem.giveBack frame
      let others := giveBackAll rest first.state
      ⟨(), others.state, first.events ++ others.events⟩

theorem read_write (mem : Memory) (frame other : Frame) (i j : Index)
    (e : Entry) :
    (mem.write frame i e).read other j =
      if frame = other ∧ i = j then e else mem.read other j :=
  mem.ram.read_write frame other i j e

theorem read_zero (mem : Memory) (frame other : Frame) (j : Index) :
    (mem.zero frame).read other j =
      if frame = other then .empty else mem.read other j :=
  mem.ram.read_zero frame other j

theorem giveBack_ram (mem : Memory) (frame : Frame) :
    (mem.giveBack frame).state.ram = mem.ram := rfl

theorem giveBackAll_ram (frames : List Frame) (mem : Memory) :
    (giveBackAll frames mem).state.ram = mem.ram := by
  induction frames generalizing mem with
  | nil => rfl
  | cons frame rest ih =>
      have hrest := ih (mem.giveBack frame).state
      rw [giveBack_ram] at hrest
      exact hrest

end Memory

end FourLevelPaging
