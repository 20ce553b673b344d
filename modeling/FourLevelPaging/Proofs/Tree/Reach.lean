/-
The nodes of a tree and the leaves an address can end in.  A node is known by
the indices that lead to it from the root; a walk for an address finds a leaf
exactly if the indices of the address lead to one.
-/
import FourLevelPaging.AddressSpace.Walk
import FourLevelPaging.Proofs.Tree.Path

namespace FourLevelPaging

namespace Ram

/-- The indices in `path`, the deepest first, lead from the root to the node of
the given level in `frame`. -/
inductive Reach (ram : Ram) (root : Frame) : Level → List Index → Frame → Prop
  | root : Reach ram root .pml4 [] root
  | step {level below : Level} {path : List Index} {frame node : Frame}
      {i : Index} (hreach : Reach ram root level path frame)
      (hnext : level.next = some below)
      (hchild : ram.child level ⟨frame, i⟩ = .table node) :
      Reach ram root below (i :: path) node

/-- Some indices lead from the root to `frame`: it holds a node of the tree. -/
def Owns (ram : Ram) (root frame : Frame) : Prop :=
  ∃ level path, ram.Reach root level path frame

section Child

variable {ram : Ram} {level : Level} {cell : Cell}

theorem child_of_not_present
    (h : (ram.read cell.frame cell.index).present = false) :
    ram.child level cell = .absent := by
  simp [child, h]

theorem child_of_leaf (hp : (ram.read cell.frame cell.index).present = true)
    (hl : level.isLeaf (ram.read cell.frame cell.index) = true) :
    ram.child level cell = .leaf (ram.read cell.frame cell.index) := by
  simp [child, hp, hl]

theorem child_of_table (hp : (ram.read cell.frame cell.index).present = true)
    (hl : level.isLeaf (ram.read cell.frame cell.index) = false) :
    ram.child level cell =
      .table (ram.read cell.frame cell.index).tableFrame := by
  simp [child, hp, hl]

theorem child_eq_absent_iff :
    ram.child level cell = .absent ↔
      (ram.read cell.frame cell.index).present = false := by
  unfold child
  cases hp : (ram.read cell.frame cell.index).present <;>
    cases hl : level.isLeaf (ram.read cell.frame cell.index) <;> simp [hp, hl]

theorem child_eq_leaf_iff {e : Entry} :
    ram.child level cell = .leaf e ↔
      ram.read cell.frame cell.index = e ∧ e.present = true ∧
        level.isLeaf e = true := by
  constructor
  · intro h
    unfold child at h
    cases hp : (ram.read cell.frame cell.index).present <;>
      cases hl : level.isLeaf (ram.read cell.frame cell.index) <;>
        simp only [hp, hl, Bool.false_eq_true, ↓reduceIte, reduceCtorEq,
          Child.leaf.injEq] at h
    subst h
    exact ⟨rfl, hp, hl⟩
  · rintro ⟨rfl, hp, hl⟩
    exact child_of_leaf hp hl

theorem child_eq_table_iff {node : Frame} :
    ram.child level cell = .table node ↔
      (ram.read cell.frame cell.index).present = true ∧
        level.isLeaf (ram.read cell.frame cell.index) = false ∧
          (ram.read cell.frame cell.index).tableFrame = node := by
  constructor
  · intro h
    unfold child at h
    cases hp : (ram.read cell.frame cell.index).present <;>
      cases hl : level.isLeaf (ram.read cell.frame cell.index) <;>
        simp only [hp, hl, Bool.false_eq_true, ↓reduceIte, reduceCtorEq,
          Child.table.injEq] at h
    exact ⟨rfl, rfl, h⟩
  · rintro ⟨hp, hl, rfl⟩
    exact child_of_table hp hl

theorem child_ne_created {node : Frame} :
    ram.child level cell ≠ .created node := by
  unfold child
  cases hp : (ram.read cell.frame cell.index).present <;>
    cases hl : level.isLeaf (ram.read cell.frame cell.index) <;> simp [hp, hl]

theorem child_congr {ram' : Ram}
    (h : ram'.read cell.frame cell.index = ram.read cell.frame cell.index) :
    ram'.child level cell = ram.child level cell := by
  simp only [child, h]

/-- Nodes of the last level point at no further node. -/
theorem next_of_child_table {node : Frame}
    (h : ram.child level cell = .table node) :
    ∃ below, level.next = some below := by
  obtain ⟨-, hl, -⟩ := child_eq_table_iff.1 h
  cases level
  · exact ⟨.pdpt, rfl⟩
  · exact ⟨.pd, rfl⟩
  · exact ⟨.pt, rfl⟩
  · cases hl

/-- The root holds no leaf. -/
theorem leafSize_of_child_leaf {e : Entry}
    (h : ram.child level cell = .leaf e) :
    ∃ size, level.leafSize = some size := by
  obtain ⟨-, -, hl⟩ := child_eq_leaf_iff.1 h
  cases level
  · cases hl
  · exact ⟨.oneG, rfl⟩
  · exact ⟨.twoM, rfl⟩
  · exact ⟨.fourK, rfl⟩

end Child

namespace Reach

variable {ram ram' : Ram} {root root' : Frame}

theorem height_add_length {level : Level} {path : List Index} {frame : Frame}
    (h : ram.Reach root level path frame) : level.height + path.length = 3 := by
  induction h with
  | root => rfl
  | step _ hnext _ ih =>
      have hheight := Level.height_of_next hnext
      simp only [List.length_cons]
      omega

/-- The number of indices tells the level of the node they lead to. -/
theorem level_eq {level level' : Level} {path : List Index}
    {frame frame' : Frame} (h : ram.Reach root level path frame)
    (h' : ram'.Reach root' level' path frame') : level' = level := by
  apply Level.height_inj
  have hheight := h.height_add_length
  have hheight' := h'.height_add_length
  omega

theorem frame_eq {level level' : Level} {path : List Index}
    {frame frame' : Frame} (h : ram.Reach root level path frame)
    (h' : ram.Reach root level' path frame') : frame' = frame := by
  induction h generalizing level' frame' with
  | root =>
      cases h'
      rfl
  | step hreach _ hchild ih =>
      cases h' with
      | step hreach' _ hchild' =>
          obtain rfl := hreach.level_eq hreach'
          obtain rfl := ih hreach'
          rw [hchild] at hchild'
          exact (Child.table.inj hchild').symm

theorem node_of_suffix {level : Level} {path upper : List Index} {frame : Frame}
    (h : ram.Reach root level path frame) (hsuffix : upper <:+ path) :
    ∃ level' node, ram.Reach root level' upper node := by
  induction h with
  | root =>
      obtain rfl := List.suffix_nil.1 hsuffix
      exact ⟨_, _, .root⟩
  | step hreach hnext hchild ih =>
      rcases List.suffix_cons_iff.1 hsuffix with rfl | hsuffix
      · exact ⟨_, _, .step hreach hnext hchild⟩
      · exact ih hsuffix

/-- No way passes an entry that points at no node. -/
theorem not_suffix {level level' : Level} {path path' : List Index}
    {frame frame' : Frame} {i : Index} (h : ram.Reach root level path frame)
    (hchild : ∀ node, ram.child level ⟨frame, i⟩ ≠ .table node)
    (h' : ram.Reach root level' path' frame') : ¬i :: path <:+ path' := by
  intro hsuffix
  obtain ⟨below, node, hnode⟩ := h'.node_of_suffix hsuffix
  cases hnode with
  | step hupper _ hstep =>
      obtain rfl := h.level_eq hupper
      obtain rfl := h.frame_eq hupper
      exact hchild node hstep

/-- No way goes on from a node that points at no node. -/
theorem eq_of_suffix {level level' : Level} {path path' : List Index}
    {frame frame' : Frame} (h : ram.Reach root level path frame)
    (hchild : ∀ i node, ram.child level ⟨frame, i⟩ ≠ .table node)
    (h' : ram.Reach root level' path' frame') (hsuffix : path <:+ path') :
    path' = path := by
  induction h' with
  | root => exact (List.suffix_nil.1 hsuffix).symm
  | step hupper _ hstep ih =>
      rcases List.suffix_cons_iff.1 hsuffix with heq | hsuffix
      · exact heq.symm
      · obtain rfl := ih hsuffix
        obtain rfl := h.level_eq hupper
        obtain rfl := h.frame_eq hupper
        exact absurd hstep (hchild _ _)

/-- A tree is known by the nodes that the entries of its own nodes point at. -/
theorem congr (hsame : ∀ {level path frame}, ram.Reach root level path frame →
      ∀ i node, ram'.child level ⟨frame, i⟩ = .table node ↔
        ram.child level ⟨frame, i⟩ = .table node)
    {level : Level} {path : List Index} {frame : Frame} :
    ram'.Reach root level path frame ↔ ram.Reach root level path frame := by
  constructor
  · intro h
    induction h with
    | root => exact .root
    | step _ hnext hchild ih => exact .step ih hnext ((hsame ih _ _).1 hchild)
  · intro h
    induction h with
    | root => exact .root
    | step hreach hnext hchild ih =>
        exact .step ih hnext ((hsame hreach _ _).2 hchild)

theorem congr_child
    (hsame : ∀ {level path frame}, ram.Reach root level path frame →
      ∀ i, ram'.child level ⟨frame, i⟩ = ram.child level ⟨frame, i⟩)
    {level : Level} {path : List Index} {frame : Frame} :
    ram'.Reach root level path frame ↔ ram.Reach root level path frame :=
  congr fun hreach i node => by rw [hsame hreach i]

end Reach

/-- The walk for `va` ends at the leaf `entry` in the node of the given level in
`frame`. -/
structure LeafAt (ram : Ram) (root : Frame) (va : VirtAddr) (level : Level)
    (frame : Frame) (entry : Entry) : Prop where
  reach : ram.Reach root level (level.pathTo va) frame
  child : ram.child level ⟨frame, level.index va⟩ = .leaf entry

/-- The places that a walk for `va` passes on its way to a node of the given
level, the deepest first. -/
inductive Trail (ram : Ram) (root : Frame) (va : VirtAddr) :
    Level → List Cell → Prop
  | root : Trail ram root va .pml4 []
  | step {level below : Level} {cells : List Cell} {frame : Frame}
      (htrail : Trail ram root va level cells)
      (hreach : ram.Reach root level (level.pathTo va) frame)
      (hnext : level.next = some below) :
      Trail ram root va below (⟨frame, level.index va⟩ :: cells)

theorem Trail.congr {ram ram' : Ram} {root : Frame} {va : VirtAddr}
    {level : Level} {cells : List Cell} (h : ram.Trail root va level cells)
    (hsame : ∀ {upper frame}, level.height < upper.height →
      ram.Reach root upper (upper.pathTo va) frame →
      ram'.Reach root upper (upper.pathTo va) frame) :
    ram'.Trail root va level cells := by
  induction h with
  | root => exact .root
  | step _ hreach hnext ih =>
      have hheight := Level.height_of_next hnext
      refine .step (ih fun hlt => hsame (by omega))
        (hsame (by omega) hreach) hnext

section Trail

variable {ram : Ram} {root : Frame} {va : VirtAddr} {level : Level}
  {cells cells' : List Cell}

theorem Trail.unique (h : ram.Trail root va level cells)
    (h' : ram.Trail root va level cells') : cells' = cells := by
  induction h generalizing cells' with
  | root =>
      cases h' with
      | root => rfl
      | @step upper _ _ _ _ _ hnext => cases upper <;> cases hnext
  | @step upper below _ _ _ hreach hnext ih =>
      cases h' with
      | root => cases upper <;> cases hnext
      | @step upper' _ _ _ htrail' hreach' hnext' =>
          have hheight := Level.height_of_next hnext
          have hheight' := Level.height_of_next hnext'
          obtain rfl : upper = upper' := Level.height_inj (by omega)
          obtain rfl := hreach.frame_eq hreach'
          rw [ih htrail']

/-- Addresses that go the same way pass the same places on it. -/
theorem Trail.congr_way (h : ram.Trail root va level cells) {a : VirtAddr}
    (hpath : level.pathTo a = level.pathTo va) :
    ram.Trail root a level cells := by
  induction h with
  | root => exact .root
  | step _ hreach hnext ih =>
      rw [Level.pathTo_of_next hnext, Level.pathTo_of_next hnext] at hpath
      obtain ⟨hindex, hpath⟩ := List.cons.inj hpath
      rw [← hindex]
      exact .step (ih hpath) (hpath ▸ hreach) hnext

theorem Reach.exists_trail {path : List Index} {frame : Frame}
    (h : ram.Reach root level path frame) (hpath : path = level.pathTo va) :
    ∃ cells, ram.Trail root va level cells := by
  induction h with
  | root => exact ⟨[], .root⟩
  | step hreach hnext _ ih =>
      rw [Level.pathTo_of_next hnext] at hpath
      obtain ⟨-, rfl⟩ := List.cons.inj hpath
      obtain ⟨cells, htrail⟩ := ih rfl
      exact ⟨_, .step htrail hreach hnext⟩

end Trail

section Walk

variable {ram : Ram} {root : Frame} {va : VirtAddr}

theorem Reach.along {level below : Level} {frame node : Frame}
    (h : ram.Reach root level (level.pathTo va) frame)
    (hnext : level.next = some below)
    (hchild : ram.child level ⟨frame, level.index va⟩ = .table node) :
    ram.Reach root below (below.pathTo va) node := by
  rw [Level.pathTo_of_next hnext]
  exact .step h hnext hchild

theorem walk_of_leaf {level : Level} {frame : Frame} {e : Entry}
    {size : PageSize}
    (hchild : ram.child level ⟨frame, level.index va⟩ = .leaf e)
    (hsize : level.leafSize = some size) :
    ram.walk va level.down frame =
      some ⟨[], ⟨frame, level.index va⟩, e, size⟩ := by
  cases level <;> simp [Level.down, walk, hchild, hsize]

theorem walk_of_absent {level : Level} {frame : Frame}
    (hchild : ram.child level ⟨frame, level.index va⟩ = .absent) :
    ram.walk va level.down frame = none := by
  cases level <;> simp [Level.down, walk, hchild]

theorem walk_of_table {level below : Level} {frame node : Frame}
    (hnext : level.next = some below)
    (hchild : ram.child level ⟨frame, level.index va⟩ = .table node) :
    ram.walk va level.down frame =
      (ram.walk va below.down node).map fun hit =>
        { hit with above := ⟨frame, level.index va⟩ :: hit.above } := by
  rw [Level.down_of_next hnext, walk, hchild]
  cases hwalk : ram.walk va below.down node <;> simp [hwalk]

/-- What a walk that has come down to `level` by way of `cells` finds is a leaf
of the tree. -/
theorem leafAt_of_walk (level : Level) {frame : Frame} {cells : List Cell}
    {hit : Hit} (hreach : ram.Reach root level (level.pathTo va) frame)
    (htrail : ram.Trail root va level cells)
    (hwalk : ram.walk va level.down frame = some hit) :
    ∃ last, ram.LeafAt root va last hit.cell.frame hit.entry ∧
      hit.cell.index = last.index va ∧ last.leafSize = some hit.size ∧
      ram.Trail root va last (hit.above.reverse ++ cells) := by
  induction level using Level.induction_down generalizing frame cells hit with
  | step level ih =>
      cases hchild : ram.child level ⟨frame, level.index va⟩ with
      | absent => simp [walk_of_absent hchild] at hwalk
      | created node => exact absurd hchild child_ne_created
      | leaf e =>
          obtain ⟨size, hsize⟩ := leafSize_of_child_leaf hchild
          rw [walk_of_leaf hchild hsize] at hwalk
          cases hwalk
          exact ⟨level, ⟨hreach, hchild⟩, rfl, hsize, htrail⟩
      | table node =>
          obtain ⟨below, hnext⟩ := next_of_child_table hchild
          rw [walk_of_table hnext hchild, Option.map_eq_some_iff] at hwalk
          rcases hwalk with ⟨hit', hwalk', rfl⟩
          obtain ⟨last, hleaf, hindex, hsize, hall⟩ :=
            ih below hnext (hreach.along hnext hchild)
              (.step htrail hreach hnext) hwalk'
          refine ⟨last, hleaf, hindex, hsize, ?_⟩
          simpa using hall

/-- A walk from the root goes on as a walk from any node on its way. -/
theorem Reach.walk {level : Level} {path : List Index} {frame : Frame}
    (h : ram.Reach root level path frame) (hpath : path = level.pathTo va) :
    ∃ upper, ram.walk va Level.all root =
      (ram.walk va level.down frame).map fun hit =>
        { hit with above := upper ++ hit.above } := by
  induction h with
  | root =>
      refine ⟨[], ?_⟩
      simp [Level.all, Level.down]
  | @step level below path frame node i hreach hnext hchild ih =>
      rw [Level.pathTo_of_next hnext] at hpath
      obtain ⟨rfl, rfl⟩ := List.cons.inj hpath
      obtain ⟨upper, hall⟩ := ih rfl
      refine ⟨upper ++ [⟨frame, level.index va⟩], ?_⟩
      rw [hall, walk_of_table hnext hchild, Option.map_map]
      simp [Function.comp_def]

theorem LeafAt.walk {level : Level} {frame : Frame} {e : Entry}
    {size : PageSize} (h : ram.LeafAt root va level frame e)
    (hsize : level.leafSize = some size) :
    ∃ above, ram.walk va Level.all root =
      some ⟨above, ⟨frame, level.index va⟩, e, size⟩ := by
  obtain ⟨upper, hall⟩ := h.reach.walk rfl
  rw [walk_of_leaf h.child hsize] at hall
  exact ⟨_, hall⟩

theorem LeafAt.unique {level level' : Level} {frame frame' : Frame}
    {e e' : Entry} (h : ram.LeafAt root va level frame e)
    (h' : ram.LeafAt root va level' frame' e') :
    level' = level ∧ frame' = frame ∧ e' = e := by
  obtain ⟨size, hsize⟩ := leafSize_of_child_leaf h.child
  obtain ⟨size', hsize'⟩ := leafSize_of_child_leaf h'.child
  obtain ⟨above, hwalk⟩ := h.walk hsize
  obtain ⟨above', hwalk'⟩ := h'.walk hsize'
  have heq := hwalk'.symm.trans hwalk
  simp only [Option.some.injEq, Hit.mk.injEq, Cell.mk.injEq] at heq
  rcases heq with ⟨-, ⟨hframe, -⟩, hentry, rfl⟩
  have hlevel :=
    (Level.level_of_leafSize hsize').symm.trans (Level.level_of_leafSize hsize)
  exact ⟨hlevel, hframe, hentry⟩

end Walk

end Ram

/-- Where a leaf of the given size takes `va`. -/
def Entry.target (e : Entry) (size : PageSize) (va : VirtAddr) : Target :=
  Hit.target ⟨[], ⟨e.tableFrame, .ofBits 0⟩, e, size⟩ va

namespace AddressSpace

variable {space : AddressSpace} {ram ram' : Ram} {va : VirtAddr}

/-- The leaf found for a canonical address, and the way to it. -/
theorem leafAt_of_find? {hit : Hit} (hfind : space.find? ram va = some hit) :
    va.isCanonical = true ∧
      ∃ last, ram.LeafAt space.root va last hit.cell.frame hit.entry ∧
        hit.cell.index = last.index va ∧ last.leafSize = some hit.size ∧
          ram.Trail space.root va last hit.above.reverse := by
  rw [find?, Option.ite_none_right_eq_some] at hfind
  rcases hfind with ⟨hcanonical, hwalk⟩
  have hleaf := Ram.leafAt_of_walk .pml4 .root .root hwalk
  rw [List.append_nil] at hleaf
  exact ⟨hcanonical, hleaf⟩

theorem lookup_of_leafAt (hcanonical : va.isCanonical = true) {level : Level}
    {frame : Frame} {e : Entry} {size : PageSize}
    (hleaf : ram.LeafAt space.root va level frame e)
    (hsize : level.leafSize = some size) :
    space.lookup ram va = some (e.target size va) := by
  obtain ⟨above, hwalk⟩ := hleaf.walk hsize
  simp only [lookup, find?, hcanonical, ↓reduceIte, hwalk, Option.map_some]
  rfl

/-- An address whose way ends at an absent entry leads nowhere. -/
theorem lookup_of_absent {level : Level} {frame : Frame}
    (hreach : ram.Reach space.root level (level.pathTo va) frame)
    (hchild : ram.child level ⟨frame, level.index va⟩ = .absent) :
    space.lookup ram va = none := by
  obtain ⟨upper, hall⟩ := hreach.walk rfl
  rw [Ram.walk_of_absent hchild] at hall
  simp [lookup, find?, hall]

theorem lookup_eq_some_iff {target : Target} :
    space.lookup ram va = some target ↔
      va.isCanonical = true ∧ ∃ level frame e size,
        ram.LeafAt space.root va level frame e ∧ level.leafSize = some size ∧
          e.target size va = target := by
  constructor
  · intro h
    obtain ⟨hit, hfind, rfl⟩ := Option.map_eq_some_iff.1 h
    obtain ⟨hcanonical, last, hleaf, -, hsize, -⟩ := leafAt_of_find? hfind
    exact ⟨hcanonical, last, _, _, _, hleaf, hsize, rfl⟩
  · intro hsome
    rcases hsome with ⟨hcanonical, level, frame, e, size, hleaf, hsize, rfl⟩
    exact lookup_of_leafAt hcanonical hleaf hsize

theorem lookup_of_not_canonical (h : va.isCanonical = false) :
    space.lookup ram va = none := by
  simp [lookup, find?, h]

/-- Look-ups agree where the same leaves are found. -/
theorem lookup_congr
    (hsame : ∀ level e, (∃ frame, ram'.LeafAt space.root va level frame e) ↔
      ∃ frame, ram.LeafAt space.root va level frame e) :
    space.lookup ram' va = space.lookup ram va := by
  ext target
  rw [lookup_eq_some_iff, lookup_eq_some_iff]
  constructor
  · intro hsome
    rcases hsome with ⟨hcanonical, level, frame, e, size, hleaf, hsize, htarget⟩
    obtain ⟨frame', hleaf'⟩ := (hsame level e).1 ⟨frame, hleaf⟩
    exact ⟨hcanonical, level, frame', e, size, hleaf', hsize, htarget⟩
  · intro hsome
    rcases hsome with ⟨hcanonical, level, frame, e, size, hleaf, hsize, htarget⟩
    obtain ⟨frame', hleaf'⟩ := (hsame level e).2 ⟨frame, hleaf⟩
    exact ⟨hcanonical, level, frame', e, size, hleaf', hsize, htarget⟩

end AddressSpace

end FourLevelPaging
