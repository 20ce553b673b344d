/-
Spaces that share a pool do not disturb each other.  A request to one of them
changes no node of another and no frame that somebody else holds, even though
frames go back and forth between the spaces by way of the pool.
-/
import FourLevelPaging.Proofs.AddressSpace.Footprint
import FourLevelPaging.Proofs.Spaces.Ownership

namespace FourLevelPaging.Spaces

/-- The number of the space in which the request maps or unmaps. -/
def Call.member? : Call → Option Nat
  | .map number _ _ _ => some number
  | .mapSized number _ _ _ _ => some number
  | .unmap number _ => some number
  | _ => none

/-- A request to map or to unmap is nothing that another holder of frames
does. -/
theorem respects_of_member {request : Call} (hmember : request.member?.isSome)
    (held : Finset Frame) : Respects held request := by
  cases request <;> trivial

/-- The space of the given number is still there, maps what it mapped, and has
the nodes it had, which hold what they held. -/
structure Untouched (spaces after : Spaces) (number : Nat)
    (space : AddressSpace) : Prop where
  member : after.members[number]? = some space
  lookup_eq : space.lookup after.memory.ram = space.lookup spaces.memory.ram
  owns_iff : ∀ frame, after.memory.ram.Owns space.root frame ↔
    spaces.memory.ram.Owns space.root frame
  node_eq : ∀ frame, spaces.memory.ram.Owns space.root frame →
    after.memory.ram.node frame = spaces.memory.ram.node frame

variable {spaces : Spaces} {held : Finset Frame}

/-- A space whose nodes are read as before is the same as before. -/
theorem untouched_of_read {after : Spaces} {number : Nat} {space : AddressSpace}
    (hmember : after.members[number]? = some space)
    (hread : ∀ frame, spaces.memory.ram.Owns space.root frame →
      ∀ i, after.memory.read frame i = spaces.memory.read frame i) :
    Untouched spaces after number space := by
  have hchild : ∀ {level path frame},
      spaces.memory.ram.Reach space.root level path frame →
        ∀ i, after.memory.ram.child level ⟨frame, i⟩ =
          spaces.memory.ram.child level ⟨frame, i⟩ :=
    fun hreach i => Ram.child_congr (hread _ ⟨_, _, hreach⟩ i)
  have hleaves :
      Ram.SameLeaves [space.root] spaces.memory.ram after.memory.ram := by
    apply Forest.sameLeaves_of_child
    intro root level path frame hroot hreach i
    obtain rfl := List.mem_singleton.1 hroot
    exact hchild hreach i
  refine ⟨hmember,
    funext fun va => hleaves.lookup_eq (List.mem_singleton_self _) va, ?_, ?_⟩
  · intro frame
    exact exists_congr fun _ =>
      exists_congr fun _ => Ram.Reach.congr_child hchild
  · intro frame howns
    exact Node.ext (hread frame howns)

/-- Requests that are answered without a change of members. -/
theorem members_onSpace (number : Nat)
    {answer : AddressSpace → Reported Spaces Reply}
    (hanswer : ∀ space, (answer space).state.members = spaces.members) :
    (spaces.onSpace number answer).state.members = spaces.members := by
  unfold onSpace
  split
  · next space _ => exact hanswer space
  · rfl

/-- No request takes a space away. -/
theorem members_call (request : Call) {number : Nat} {space : AddressSpace}
    (hmember : spaces.members[number]? = some space) :
    (spaces.call request).state.members[number]? = some space := by
  have hlt := (List.getElem?_eq_some_iff.1 hmember).1
  have honSpace : ∀ {other} {answer : AddressSpace → Reported Spaces Reply},
      (∀ space, (answer space).state.members = spaces.members) →
        (spaces.onSpace other answer).state.members[number]? = some space :=
    fun hanswer =>
      (congrArg (·[number]?) (members_onSpace _ hanswer)).trans hmember
  cases request with
  | create =>
      simp only [call]
      split
      · rw [List.getElem?_append_left hlt]
        exact hmember
      · exact hmember
  | adopt root => exact (List.getElem?_append_left hlt).trans hmember
  | allocate =>
      simp only [call]
      split <;> exact hmember
  | free frame =>
      simp only [call]
      split <;> exact hmember
  | map other va pa flags => exact honSpace fun _ => rfl
  | mapSized other va pa size flags => exact honSpace fun _ => rfl
  | unmap other va => exact honSpace fun _ => rfl
  | lookup other va => exact honSpace fun _ => rfl
  | translate other va => exact honSpace fun _ => rfl
  | root other => exact honSpace fun _ => rfl
  | list other => exact honSpace fun _ => rfl
  | peek cell => exact hmember
  | poke cell entry => exact hmember
  | zero frame => exact hmember
  | child level cell => exact hmember
  | childOrCreate level cell flags => exact hmember

/-- A request to one of the spaces that leaves a frame as it is. -/
theorem read_onSpace {number : Nat}
    {answer : AddressSpace → Reported Spaces Reply} {frame : Frame} {i : Index}
    (hanswer : ∀ space, spaces.members[number]? = some space →
      (answer space).state.memory.read frame i = spaces.memory.read frame i) :
    (spaces.onSpace number answer).state.memory.read frame i =
      spaces.memory.read frame i := by
  unfold onSpace
  split
  · next space hspace => exact hanswer space hspace
  · rfl

/-- A frame that is handed out reads as before, unless it holds a node of the
space that maps or unmaps, or somebody else holds it and writes to it. -/
theorem read_call (hforest : Forest spaces.memory spaces.roots held)
    (request : Call) (hrespects : Respects held request) {frame : Frame}
    (hframe : frame ∈ spaces.memory.pool.allocated)
    (houtside : ∀ number space, request.member? = some number →
      spaces.members[number]? = some space →
      ¬spaces.memory.ram.Owns space.root frame)
    (hholder : frame ∈ held → Respects ∅ request) (i : Index) :
    (spaces.call request).state.memory.read frame i =
      spaces.memory.read frame i := by
  have hothers : ∀ {number space}, request.member? = some number →
      spaces.members[number]? = some space →
        space.root ∈ spaces.roots ∧ frame ∈ spaces.memory.others space.root :=
    fun hnumber hspace => ⟨root_mem (List.mem_of_getElem? hspace),
      Memory.mem_others.2 ⟨hframe, houtside _ _ hnumber hspace⟩⟩
  cases request with
  | adopt root => exact absurd hrespects id
  | childOrCreate level cell flags => exact absurd hrespects id
  | peek cell => rfl
  | child level cell => rfl
  | lookup number va => exact read_onSpace fun _ _ => rfl
  | translate number va => exact read_onSpace fun _ _ => rfl
  | root number => exact read_onSpace fun _ _ => rfl
  | list number => exact read_onSpace fun _ _ => rfl
  | map number va pa flags =>
      refine read_onSpace fun space hspace => ?_
      obtain ⟨hroot, hmem⟩ := hothers rfl hspace
      exact AddressSpace.read_map_of_held (hforest.narrow hroot)
        (List.mem_singleton_self _) va pa flags hmem i
  | mapSized number va pa size flags =>
      refine read_onSpace fun space hspace => ?_
      obtain ⟨hroot, hmem⟩ := hothers rfl hspace
      exact AddressSpace.read_mapSized_of_held (hforest.narrow hroot)
        (List.mem_singleton_self _) va pa size flags hmem i
  | unmap number va =>
      refine read_onSpace fun space hspace => ?_
      obtain ⟨hroot, hmem⟩ := hothers rfl hspace
      exact AddressSpace.read_unmap_of_held (hforest.narrow hroot)
        (List.mem_singleton_self _) va hmem i
  | create =>
      cases hmade : (AddressSpace.create spaces.memory).value with
      | ok space =>
          simp only [call, hmade]
          exact AddressSpace.read_create hforest.valid hmade hframe i
      | error reason =>
          simp only [call, AddressSpace.create_of_error hmade]
          rfl
  | allocate =>
      simp only [call]
      split <;> rfl
  | free frame =>
      simp only [call]
      split <;> rfl
  | poke cell entry =>
      have hne : cell.frame ≠ frame := by
        rintro rfl
        exact Finset.notMem_empty _ (hholder hrespects)
      exact (spaces.memory.read_write cell.frame frame cell.index i entry).trans
        (if_neg fun h => hne h.1)
  | zero other =>
      have hne : other ≠ frame := by
        rintro rfl
        exact Finset.notMem_empty _ (hholder hrespects)
      exact (spaces.memory.read_zero other frame i).trans (if_neg hne)

/-- In every run of spaces over one pool, a request to one of them leaves every
other space untouched; and one that maps, unmaps or makes a space, whether or
not it is refused, writes to no frame that somebody else holds. -/
theorem isolated_of_run (hrun : Run spaces held) (request : Call)
    (hrespects : Respects held request) :
    (∀ number space, spaces.members[number]? = some space →
        request.member? ≠ some number →
        Untouched spaces (spaces.call request).state number space) ∧
      (request.member?.isSome ∨ request = .create → ∀ frame ∈ held,
        (spaces.call request).state.memory.ram.node frame =
          spaces.memory.ram.node frame) := by
  have hforest := hrun.forest
  constructor
  · intro number space hspace hother
    refine untouched_of_read (members_call request hspace)
      fun frame howns i => ?_
    have hroot := root_mem (List.mem_of_getElem? hspace)
    refine read_call hforest request hrespects
      ((hforest.allocated frame).2 (Or.inr ⟨_, hroot, howns⟩)) ?_ ?_ i
    · intro number' space' hnumber hspace'
      have hne : number ≠ number' := by
        rintro rfl
        exact hother hnumber
      exact nodes_apart hforest hspace hspace' hne howns
    · intro hheld
      exact absurd hheld (hforest.apart hroot howns)
  · intro hkind frame hheld
    refine Node.ext fun i => read_call hforest request hrespects
      ((hforest.allocated frame).2 (Or.inl hheld)) ?_ ?_ i
    · intro number space _ hspace howns
      exact hforest.apart (root_mem (List.mem_of_getElem? hspace)) howns hheld
    · intro _
      rcases hkind with hmember | rfl
      · exact respects_of_member hmember ∅
      · trivial

/-- Two spaces over eight frames, one of them with a page, and a frame that
somebody else holds.  The pool runs out while the other space is to map its
first page. -/
theorem isolated_of_run_small :
    ∃ spaces held space, Run spaces held ∧ spaces.members[1]? = some space ∧
      (space.lookup spaces.memory.ram ⟨0x1000⟩).isSome ∧
      (spaces.call (.mapSized 0 ⟨0x1000⟩ ⟨0x6000⟩ .fourK .kernelRW)).value =
        .refused (.outOfMemory .pt) ∧
      Untouched spaces
        (spaces.call (.mapSized 0 ⟨0x1000⟩ ⟨0x6000⟩ .fourK .kernelRW)).state 1
        space ∧
      ∀ frame ∈ held,
        (spaces.call (.mapSized 0 ⟨0x1000⟩ ⟨0x6000⟩ .fourK
            .kernelRW)).state.memory.ram.node frame =
          spaces.memory.ram.node frame := by
  have hstart : Run ⟨⟨.ofBackground fun _ _ => .empty, .small⟩, []⟩
      FramePool.small.allocated :=
    .start (FramePool.reachable_of_ofRegion FramePool.ofRegion_small)
      FramePool.below_small
  have hrun :=
    (((hstart.step .create trivial).step .create trivial).step .allocate
      trivial).step (.mapSized 1 ⟨0x1000⟩ ⟨0x5000⟩ .fourK .kernelRW) trivial
  have hisolated :=
    isolated_of_run hrun
      (.mapSized 0 ⟨0x1000⟩ ⟨0x6000⟩ .fourK .kernelRW) trivial
  exact ⟨_, _, ⟨.containing ⟨0x101000⟩⟩, hrun, by decide +kernel,
    by decide +kernel, by decide +kernel,
    hisolated.1 1 _ (by decide +kernel) (by decide), hisolated.2 (Or.inl rfl)⟩

end FourLevelPaging.Spaces
