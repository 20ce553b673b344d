/-
Who holds which frame.  As long as the other holders of frames keep to their
own, the nodes of the spaces are trees that lie apart, and together with the
frames of the others they are the frames that the pool has handed out.
-/
import FourLevelPaging.Proofs.AddressSpace.Map
import FourLevelPaging.Proofs.AddressSpace.Unmap
import FourLevelPaging.Proofs.Tree.Count
import FourLevelPaging.Spaces

namespace FourLevelPaging

/-- The entry at `cell`, which stands in a node of the tree, points at the node
in `node`. -/
def Ram.LinksTo (ram : Ram) (root : Frame) (cell : Cell) (node : Frame) :
    Prop :=
  ∃ level path, ram.Reach root level path cell.frame ∧
    ram.child level cell = .table node

theorem Ram.reach_of_linksTo {ram : Ram} {root frame : Frame} {cell : Cell}
    (hlink : ram.LinksTo root cell frame) :
    ∃ level below path, ram.Reach root level path cell.frame ∧
      ram.Reach root below (cell.index :: path) frame := by
  rcases hlink with ⟨level, path, hreach, hchild⟩
  obtain ⟨below, hnext⟩ := Ram.next_of_child_table hchild
  exact ⟨level, below, path, hreach, .step hreach hnext hchild⟩

namespace Spaces

/-- The request changes no frame but those in `held`, unless it goes by way of a
space: other holders hand back and write to frames of their own only. -/
def Respects (held : Finset Frame) : Call → Prop
  | .adopt _ => False
  | .childOrCreate _ _ _ => False
  | .free frame => frame ∈ held
  | .poke cell _ => cell.frame ∈ held
  | .zero frame => frame ∈ held
  | _ => True

/-- The frames of other holders once a request is answered. -/
def heldAfter (held : Finset Frame) : Call → Reply → Finset Frame
  | .allocate, .frame frame => insert frame held
  | .free frame, .freed => held.erase frame
  | _, _ => held

/-- The spaces reached from a pool whose frames lie below `2 ^ 52`, by requests
that respect the frames of other holders, and those frames. -/
inductive Run : Spaces → Finset Frame → Prop
  | start {memory : Memory} (hpool : memory.pool.Reachable)
      (hlow : memory.pool.Below (2 ^ 52)) :
      Run ⟨memory, []⟩ memory.pool.allocated
  | step {spaces : Spaces} {held : Finset Frame} (hrun : Run spaces held)
      (request : Call) (hrespects : Respects held request) :
      Run (spaces.call request).state
        (heldAfter held request (spaces.call request).value)

/-- The frames handed out by the pool, each of them accounted for once. -/
structure Ledger (spaces : Spaces) (held : Finset Frame) : Prop where
  /-- Every node has one place in its tree, at most three entries away from the
  root. -/
  place : ∀ space ∈ spaces.members, ∀ frame,
    spaces.memory.ram.Owns space.root frame →
      ∃! path, path.length ≤ 3 ∧
        ∃ level, spaces.memory.ram.Reach space.root level path frame
  /-- A node other than a root is pointed at by one entry of all nodes. -/
  linked : ∀ space ∈ spaces.members, ∀ frame,
    spaces.memory.ram.Owns space.root frame → frame ≠ space.root →
      ∃! cell, ∃ other ∈ spaces.members,
        spaces.memory.ram.LinksTo other.root cell frame
  /-- No entry points at a root. -/
  unlinked : ∀ space ∈ spaces.members, ∀ other ∈ spaces.members, ∀ cell,
    ¬spaces.memory.ram.LinksTo other.root cell space.root
  apart : ∀ (i j : Nat) (space other : AddressSpace),
    spaces.members[i]? = some space →
      spaces.members[j]? = some other → i ≠ j → ∀ frame,
        spaces.memory.ram.Owns space.root frame →
          ¬spaces.memory.ram.Owns other.root frame
  not_held : ∀ space ∈ spaces.members, ∀ frame,
    spaces.memory.ram.Owns space.root frame → frame ∉ held
  allocated : ∀ frame, frame ∈ spaces.memory.pool.allocated ↔
    frame ∈ held ∨
      ∃ space ∈ spaces.members, spaces.memory.ram.Owns space.root frame
  count : spaces.memory.pool.allocatedCount =
    (spaces.members.map fun space => space.tableFrames spaces.memory.ram).sum +
      held.card

/-- The roots of the spaces. -/
def roots (spaces : Spaces) : List Frame := spaces.members.map AddressSpace.root

variable {spaces : Spaces} {held : Finset Frame}

theorem root_mem {space : AddressSpace} (hmem : space ∈ spaces.members) :
    space.root ∈ spaces.roots :=
  List.mem_map_of_mem hmem

theorem exists_root_iff {P : Frame → Prop} :
    (∃ root ∈ spaces.roots, P root) ↔
      ∃ space ∈ spaces.members, P space.root := by
  simp [roots]

section Step

/-- A request to one of the spaces that keeps the trees. -/
theorem forest_onSpace (hforest : Forest spaces.memory spaces.roots held)
    (number : Nat) {answer : AddressSpace → Reported Spaces Reply}
    (hanswer : ∀ space ∈ spaces.members, Forest (answer space).state.memory
      (answer space).state.roots held ∧ AllAccepted (answer space).events) :
    Forest (spaces.onSpace number answer).state.memory
        (spaces.onSpace number answer).state.roots held ∧
      AllAccepted (spaces.onSpace number answer).events := by
  unfold onSpace
  split
  · next space hspace => exact hanswer space (List.mem_of_getElem? hspace)
  · exact ⟨hforest, .empty⟩

/-- Every request that respects the frames of other holders keeps the trees, and
no frame that a space hands back is refused. -/
theorem forest_call (hforest : Forest spaces.memory spaces.roots held)
    (request : Call) (hrespects : Respects held request) :
    Forest (spaces.call request).state.memory (spaces.call request).state.roots
        (heldAfter held request (spaces.call request).value) ∧
      AllAccepted (spaces.call request).events := by
  cases request with
  | adopt root => exact absurd hrespects id
  | childOrCreate level cell flags => exact absurd hrespects id
  | peek cell => exact ⟨hforest, .empty⟩
  | child level cell => exact ⟨hforest, .empty⟩
  | lookup number va =>
      exact forest_onSpace hforest number fun _ _ => ⟨hforest, .empty⟩
  | translate number va =>
      exact forest_onSpace hforest number fun _ _ => ⟨hforest, .empty⟩
  | root number =>
      exact forest_onSpace hforest number fun _ _ => ⟨hforest, .empty⟩
  | list number =>
      exact forest_onSpace hforest number fun _ _ => ⟨hforest, .empty⟩
  | map number va pa flags =>
      exact forest_onSpace hforest number fun space hmem =>
        AddressSpace.forest_map hforest (root_mem hmem) va pa flags
  | mapSized number va pa size flags =>
      exact forest_onSpace hforest number fun space hmem =>
        AddressSpace.forest_mapSized hforest (root_mem hmem) va pa size flags
  | unmap number va =>
      exact forest_onSpace hforest number fun space hmem =>
        AddressSpace.forest_unmap hforest (root_mem hmem) va
  | create =>
      cases hmade : (AddressSpace.create spaces.memory).value with
      | ok space =>
          obtain ⟨hcreated, -, haccepted⟩ :=
            AddressSpace.forest_create hforest hmade
          have hroots : (spaces.members ++ [space]).map AddressSpace.root =
              spaces.roots ++ [space.root] := by
            simp [roots]
          simp only [call, hmade, roots, hroots]
          exact ⟨hcreated, haccepted⟩
      | error reason =>
          have hstarved := AddressSpace.create_of_error hmade
          simp only [call, hstarved]
          exact ⟨hforest, .empty⟩
  | allocate =>
      simp only [call]
      split
      · next frame pool htaken =>
          have htook := FramePool.took_of_allocate hforest.valid htaken
          have hleft : Forest { spaces.memory with pool } spaces.roots
                (insert frame held) ∧
              Ram.SameLeaves spaces.roots spaces.memory.ram spaces.memory.ram :=
            hforest.take htook fun _ _ => rfl
          exact ⟨hleft.1, .empty⟩
      · exact ⟨hforest, .empty⟩
  | free frame =>
      simp only [call]
      split
      · next pool hfree =>
          have hfreed := FramePool.freed_of_free hforest.valid hfree
          have hback : Forest { spaces.memory with pool } spaces.roots
                (held.erase frame) ∧
              Ram.SameLeaves spaces.roots spaces.memory.ram spaces.memory.ram :=
            hforest.free hrespects hfreed rfl
          exact ⟨hback.1, .empty⟩
      · exact ⟨hforest, .empty⟩
  | poke cell entry =>
      refine ⟨hforest.of_pool_eq rfl ?_, .empty⟩
      intro frame hframe i
      have hne : ¬(cell.frame = frame ∧ cell.index = i) := by
        rintro ⟨rfl, -⟩
        exact hframe hrespects
      exact (spaces.memory.read_write cell.frame frame cell.index i entry).trans
        (if_neg hne)
  | zero frame =>
      refine ⟨hforest.of_pool_eq rfl ?_, .empty⟩
      intro other hother i
      have hne : frame ≠ other := by
        rintro rfl
        exact hother hrespects
      exact (spaces.memory.read_zero frame other i).trans (if_neg hne)

end Step

theorem Run.forest (hrun : Run spaces held) :
    Forest spaces.memory spaces.roots held := by
  induction hrun with
  | start hpool hlow => exact .bare hpool.valid hlow
  | step _ request hrespects ih => exact (forest_call ih request hrespects).1

section Account

variable (hforest : Forest spaces.memory spaces.roots held)

include hforest

theorem place_unique {space : AddressSpace} (hmem : space ∈ spaces.members)
    {frame : Frame} (howns : spaces.memory.ram.Owns space.root frame) :
    ∃! path, path.length ≤ 3 ∧
      ∃ level, spaces.memory.ram.Reach space.root level path frame := by
  rcases howns with ⟨level, path, hreach⟩
  have hheight := hreach.height_add_length
  refine ⟨path, ⟨by omega, level, hreach⟩, ?_⟩
  rintro path' ⟨-, level', hreach'⟩
  exact (hforest.reach_eq (root_mem hmem) hreach (root_mem hmem) hreach').2.2

theorem link_unique {space : AddressSpace} (hmem : space ∈ spaces.members)
    {frame : Frame} (howns : spaces.memory.ram.Owns space.root frame)
    (hne : frame ≠ space.root) :
    ∃! cell, ∃ other ∈ spaces.members,
      spaces.memory.ram.LinksTo other.root cell frame := by
  rcases howns with ⟨level, path, hreach⟩
  cases hreach with
  | root => exact absurd rfl hne
  | @step upper _ path node _ i hupper hnext hchild =>
      refine ⟨⟨node, i⟩, ⟨space, hmem, upper, path, hupper, hchild⟩, ?_⟩
      rintro cell ⟨other, hother, hlink⟩
      obtain ⟨level', below, path', hupper', hreach'⟩ :=
        Ram.reach_of_linksTo hlink
      obtain ⟨hroot, -, hpath⟩ := hforest.reach_eq (root_mem hmem)
        (.step hupper hnext hchild) (root_mem hother) hreach'
      obtain ⟨hindex, rfl⟩ := List.cons.inj hpath
      rw [hroot] at hupper'
      have hframe := hupper.frame_eq hupper'
      cases cell
      simp only at hindex hframe
      rw [hindex, hframe]

theorem root_unlinked {space other : AddressSpace}
    (hmem : space ∈ spaces.members) (hother : other ∈ spaces.members)
    (cell : Cell) :
    ¬spaces.memory.ram.LinksTo other.root cell space.root := by
  intro hlink
  obtain ⟨_, _, _, -, hreach⟩ := Ram.reach_of_linksTo hlink
  obtain ⟨-, -, hpath⟩ :=
    hforest.reach_eq (root_mem hmem) .root (root_mem hother) hreach
  cases hpath

theorem nodes_apart {i j : Nat} {space other : AddressSpace}
    (hi : spaces.members[i]? = some space)
    (hj : spaces.members[j]? = some other) (hne : i ≠ j) {frame : Frame}
    (howns : spaces.memory.ram.Owns space.root frame) :
    ¬spaces.memory.ram.Owns other.root frame := by
  rintro ⟨_, _, hreach'⟩
  rcases howns with ⟨_, _, hreach⟩
  have hroot := (hforest.reach_eq (root_mem (List.mem_of_getElem? hi)) hreach
    (root_mem (List.mem_of_getElem? hj)) hreach').1
  have hsame : spaces.roots[i]? = spaces.roots[j]? := by
    simp [roots, hi, hj, hroot]
  obtain ⟨hlt, -⟩ := List.getElem?_eq_some_iff.1 hi
  have hlt' : i < spaces.roots.length := by
    rw [roots, List.length_map]
    exact hlt
  exact hne ((List.getElem?_inj hlt' hforest.nodup).1 hsame)

theorem ledger_of_forest : Ledger spaces held := by
  refine ⟨fun _ hmem _ => place_unique hforest hmem,
    fun _ hmem _ => link_unique hforest hmem,
    fun _ hmem _ => root_unlinked hforest hmem,
    fun _ _ _ _ hi hj hne _ => nodes_apart hforest hi hj hne, ?_, ?_, ?_⟩
  · intro space hmem frame howns
    exact hforest.apart (root_mem hmem) howns
  · intro frame
    rw [hforest.allocated, exists_root_iff]
  · rw [hforest.allocatedCount_eq, roots, List.map_map]
    rfl

end Account

/-- In every run the nodes of the spaces and the frames of the others are
accounted for, and no frame that a space hands back is refused. -/
theorem ledger_of_run (hrun : Run spaces held) :
    Ledger spaces held ∧
      ∀ request, Respects held request →
        AllAccepted (spaces.call request).events :=
  ⟨ledger_of_forest hrun.forest, fun request hrespects =>
    (forest_call hrun.forest request hrespects).2⟩

/-- Two spaces over eight frames, one of them with a page, and a frame that
somebody else holds. -/
theorem ledger_of_run_small :
    ∃ spaces held, Run spaces held ∧ spaces.members.length = 2 ∧
      spaces.memory.pool.allocatedCount = 6 ∧ Ledger spaces held ∧
      ∀ request, Respects held request →
        AllAccepted (spaces.call request).events := by
  have hstart : Run ⟨⟨.ofBackground fun _ _ => .empty, .small⟩, []⟩
      FramePool.small.allocated :=
    .start (FramePool.reachable_of_ofRegion FramePool.ofRegion_small)
      FramePool.below_small
  have hrun :=
    (((hstart.step .create trivial).step .create trivial).step .allocate
      trivial).step (.mapSized 1 ⟨0x1000⟩ ⟨0x5000⟩ .fourK .kernelRW) trivial
  exact ⟨_, _, hrun, by decide +kernel, by decide +kernel, ledger_of_run hrun⟩

end Spaces

end FourLevelPaging
