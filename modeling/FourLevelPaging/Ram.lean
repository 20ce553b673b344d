/-
The contents of physical memory, seen as nodes of entries.  Every frame can be
read; a write is seen at its own place and nowhere else.
-/
import FourLevelPaging.Node
import Std.Data.TreeMap

namespace FourLevelPaging

/-- Physical memory: the nodes written so far, by frame number, over what
memory held in the beginning. -/
structure Ram where
  background : Frame → Index → Entry
  written : Std.TreeMap Nat Node

namespace Ram

/-- Memory that nobody has written to. -/
def ofBackground (background : Frame → Index → Entry) : Ram :=
  ⟨background, ∅⟩

/-- The node held in a frame. -/
def node (ram : Ram) (frame : Frame) : Node :=
  match ram.written[frame.number]? with
  | some node => node
  | none => .ofFn (ram.background frame)

/-- Replaces the node held in a frame. -/
def setNode (ram : Ram) (frame : Frame) (node : Node) : Ram :=
  { ram with written := ram.written.insert frame.number node }

/-- One entry of the node in a frame. -/
def read (ram : Ram) (frame : Frame) (i : Index) : Entry :=
  (ram.node frame).get i

/-- Replaces one entry of the node in a frame. -/
def write (ram : Ram) (frame : Frame) (i : Index) (e : Entry) : Ram :=
  ram.setNode frame ((ram.node frame).set i e)

/-- Empties one entry of the node in a frame. -/
def clear (ram : Ram) (frame : Frame) (i : Index) : Ram :=
  ram.write frame i .empty

/-- Empties the whole node in a frame. -/
def zero (ram : Ram) (frame : Frame) : Ram := ram.setNode frame .zeroed

theorem node_setNode (ram : Ram) (frame other : Frame) (contents : Node) :
    (ram.setNode frame contents).node other =
      if frame = other then contents else ram.node other := by
  unfold setNode node
  rw [Std.TreeMap.getElem?_insert]
  by_cases h : frame = other
  · subst h
    simp
  · have hne : frame.number ≠ other.number := fun hn => h (Page.number_inj.1 hn)
    simp [h, hne]

theorem read_write (ram : Ram) (frame other : Frame) (i j : Index) (e : Entry) :
    (ram.write frame i e).read other j =
      if frame = other ∧ i = j then e else ram.read other j := by
  unfold write read
  rw [node_setNode]
  by_cases h : frame = other
  · subst h
    by_cases hi : i = j <;> simp [Node.get_set, hi]
  · simp [h]

theorem read_zero (ram : Ram) (frame other : Frame) (j : Index) :
    (ram.zero frame).read other j =
      if frame = other then .empty else ram.read other j := by
  unfold zero read
  rw [node_setNode]
  split <;> simp

end Ram

end FourLevelPaging
