/-
What writing one entry of a node does to the trees.  Only ways through the
entry are affected: a leaf can be put or taken away, an empty node can be
linked or unlinked, and a link can be opened to user code.
-/
import FourLevelPaging.Proofs.Tree.Forest

namespace FourLevelPaging

namespace Memory

variable {mem : Memory} {level : Level} {frame other : Frame} {i j : Index}
  {e : Entry}

theorem child_write_of_ne (hne : ¬(frame = other ∧ i = j)) :
    (mem.write frame i e).ram.child level ⟨other, j⟩ =
      mem.ram.child level ⟨other, j⟩ := by
  apply Ram.child_congr
  have hread := mem.read_write frame other i j e
  rw [if_neg hne] at hread
  exact hread

theorem read_write_self (mem : Memory) (frame : Frame) (i : Index) (e : Entry) :
    (mem.write frame i e).read frame i = e := by
  rw [read_write, if_pos ⟨rfl, rfl⟩]

theorem child_clear_self (mem : Memory) (level : Level) (frame : Frame)
    (i : Index) :
    (mem.clear frame i).ram.child level ⟨frame, i⟩ = .absent :=
  child_of_read_empty (mem.read_write_self frame i .empty)

end Memory

namespace Forest

variable {mem : Memory} {roots : List Frame} {held : Finset Frame}
  {root : Frame} {level : Level} {path : List Index} {frame : Frame}
  {i : Index} {e : Entry}

/-- A way that does not pass the entry stays as it is. -/
theorem reach_write_iff (hforest : Forest mem roots held) (hroot : root ∈ roots)
    (hreach : mem.ram.Reach root level path frame) {root' : Frame}
    (hroot' : root' ∈ roots) {level' : Level} {path' : List Index}
    {frame' : Frame} (hout : ¬(root' = root ∧ i :: path <:+ path')) :
    (mem.write frame i e).ram.Reach root' level' path' frame' ↔
      mem.ram.Reach root' level' path' frame' := by
  have hchild : ∀ {upper upath node j}, mem.ram.Reach root' upper upath node →
      ¬(root' = root ∧ i :: path <:+ j :: upath) →
        (mem.write frame i e).ram.child upper ⟨node, j⟩ =
          mem.ram.child upper ⟨node, j⟩ := by
    intro upper upath node j hupper hj
    apply Memory.child_write_of_ne
    rintro ⟨rfl, rfl⟩
    obtain ⟨rfl, -, rfl⟩ := hforest.reach_eq hroot hreach hroot' hupper
    exact hj ⟨rfl, List.suffix_rfl⟩
  constructor
  · intro h
    induction h with
    | root => exact .root
    | step _ hnext hstep ih =>
        have hupper := ih fun h => hout ⟨h.1, h.2.trans (List.suffix_cons _ _)⟩
        exact .step hupper hnext ((hchild hupper hout).symm.trans hstep)
  · intro h
    induction h with
    | root => exact .root
    | step hupper hnext hstep ih =>
        refine .step (ih fun h => hout ⟨h.1, h.2.trans (List.suffix_cons _ _)⟩)
          hnext ?_
        exact (hchild hupper hout).trans hstep

/-- The nodes behind an entry, before and after it is written. -/
theorem reach_write_cons_iff (hforest : Forest mem roots held)
    (hroot : root ∈ roots) (hreach : mem.ram.Reach root level path frame)
    {below : Level} {node : Frame} :
    (mem.write frame i e).ram.Reach root below (i :: path) node ↔
      level.next = some below ∧
        (mem.write frame i e).ram.child level ⟨frame, i⟩ = .table node := by
  have hself :
      ∀ {upper node}, (mem.write frame i e).ram.Reach root upper path node ↔
        mem.ram.Reach root upper path node := by
    intro upper node
    refine hforest.reach_write_iff hroot hreach hroot fun h => ?_
    have hlength := h.2.length_le
    simp only [List.length_cons] at hlength
    omega
  constructor
  · intro h
    cases h with
    | step hupper hnext hchild =>
        have hold := hself.1 hupper
        obtain rfl := hreach.level_eq hold
        obtain rfl := hreach.frame_eq hold
        exact ⟨hnext, hchild⟩
  · intro hnew
    rcases hnew with ⟨hnext, hchild⟩
    exact .step (hself.2 hreach) hnext hchild

/-- What does not hold of the entry, neither before nor after it is written,
holds of the same entries of the trees as before. -/
theorem child_write_iff (hforest : Forest mem roots held) (hroot : root ∈ roots)
    (hreach : mem.ram.Reach root level path frame) (P : Child → Prop)
    (hold : ¬P (mem.ram.child level ⟨frame, i⟩))
    (hnew : ¬P ((mem.write frame i e).ram.child level ⟨frame, i⟩))
    {root' : Frame} (hroot' : root' ∈ roots) {level' : Level}
    {path' : List Index} {frame' : Frame}
    (hreach' : mem.ram.Reach root' level' path' frame') (j : Index) :
    P ((mem.write frame i e).ram.child level' ⟨frame', j⟩) ↔
      P (mem.ram.child level' ⟨frame', j⟩) := by
  by_cases hcell : frame = frame' ∧ i = j
  · rcases hcell with ⟨rfl, rfl⟩
    obtain ⟨-, rfl, -⟩ := hforest.reach_eq hroot hreach hroot' hreach'
    exact ⟨fun h => absurd h hnew, fun h => absurd h hold⟩
  · rw [Memory.child_write_of_ne hcell]

section Put

/-- An entry that points at no node can be replaced by another one. -/
theorem put (hforest : Forest mem roots held) (hroot : root ∈ roots)
    (hreach : mem.ram.Reach root level path frame)
    (hold : ∀ node, mem.ram.child level ⟨frame, i⟩ ≠ .table node)
    (hnew : ∀ node,
      (mem.write frame i e).ram.child level ⟨frame, i⟩ ≠ .table node)
    (hproper : e.Proper level) : Forest (mem.write frame i e) roots held := by
  refine hforest.transfer hforest.valid (.refl _) ?_ ?_ hforest.allocated
    hforest.apart
  · intro root' level' path' frame' hroot' hreach' j node
    exact hforest.child_write_iff hroot hreach (· = .table node) (hold node)
      (hnew node) hroot' hreach' j
  · intro root' level' path' frame' hroot' hreach' j
    rw [Memory.read_write]
    split
    · next hcell =>
        rcases hcell with ⟨rfl, rfl⟩
        obtain ⟨-, rfl, -⟩ := hforest.reach_eq hroot hreach hroot' hreach'
        exact hproper
    · exact hforest.proper hroot' hreach' j

/-- Which nodes there are does not depend on entries that point at none. -/
theorem reach_put_iff (hforest : Forest mem roots held) (hroot : root ∈ roots)
    (hreach : mem.ram.Reach root level path frame)
    (hold : ∀ node, mem.ram.child level ⟨frame, i⟩ ≠ .table node)
    (hnew : ∀ node,
      (mem.write frame i e).ram.child level ⟨frame, i⟩ ≠ .table node)
    {root' : Frame} (hroot' : root' ∈ roots) {level' : Level}
    {path' : List Index} {frame' : Frame} :
    (mem.write frame i e).ram.Reach root' level' path' frame' ↔
      mem.ram.Reach root' level' path' frame' := by
  refine Ram.Reach.congr fun {level' path' frame'} hreach' j node => ?_
  exact hforest.child_write_iff hroot hreach (· = .table node) (hold node)
    (hnew node) hroot' hreach' j

/-- A walk that does not pass the entry ends where it ended before. -/
theorem leafAt_put_iff (hforest : Forest mem roots held) (hroot : root ∈ roots)
    (hreach : mem.ram.Reach root level path frame)
    (hold : ∀ node, mem.ram.child level ⟨frame, i⟩ ≠ .table node)
    (hnew : ∀ node,
      (mem.write frame i e).ram.child level ⟨frame, i⟩ ≠ .table node)
    {root' : Frame} (hroot' : root' ∈ roots) {va : VirtAddr}
    (hout : ¬(root' = root ∧ level.index va = i ∧ level.pathTo va = path))
    {level' : Level} {frame' : Frame} {leaf : Entry} :
    (mem.write frame i e).ram.LeafAt root' va level' frame' leaf ↔
      mem.ram.LeafAt root' va level' frame' leaf := by
  have hiff : ∀ {frame'}, (mem.write frame i e).ram.Reach root' level'
        (level'.pathTo va) frame' ↔
      mem.ram.Reach root' level' (level'.pathTo va) frame' :=
    hforest.reach_put_iff hroot hreach hold hnew hroot'
  have hchild : mem.ram.Reach root' level' (level'.pathTo va) frame' →
      (mem.write frame i e).ram.child level' ⟨frame', level'.index va⟩ =
        mem.ram.child level' ⟨frame', level'.index va⟩ := by
    intro h
    apply Memory.child_write_of_ne
    rintro ⟨rfl, hi⟩
    obtain ⟨hsame, rfl, hpath⟩ := hforest.reach_eq hroot hreach hroot' h
    exact hout ⟨hsame, hi.symm, hpath⟩
  constructor
  · intro h
    have hreach' := hiff.1 h.reach
    exact ⟨hreach', (hchild hreach').symm.trans h.child⟩
  · intro h
    exact ⟨hiff.2 h.reach, (hchild h.reach).trans h.child⟩

end Put

section Link

variable {node : Frame} {below : Level}

/-- Linking an empty node adds the way to it. -/
theorem reach_link_iff (hforest : Forest mem roots held) (hroot : root ∈ roots)
    (hreach : mem.ram.Reach root level path frame)
    (habsent : mem.ram.child level ⟨frame, i⟩ = .absent)
    (hnext : level.next = some below) (hheld : node ∈ held)
    (hempty : ∀ j, mem.read node j = .empty)
    (hchild : (mem.write frame i e).ram.child level ⟨frame, i⟩ = .table node)
    {root' : Frame} (hroot' : root' ∈ roots) {level' : Level}
    {path' : List Index} {frame' : Frame} :
    (mem.write frame i e).ram.Reach root' level' path' frame' ↔
      mem.ram.Reach root' level' path' frame' ∨
        root' = root ∧ level' = below ∧ path' = i :: path ∧ frame' = node := by
  have hbefore :
      ∀ {level' path' frame'}, mem.ram.Reach root level' path' frame' →
        ¬i :: path <:+ path' :=
    hreach.not_suffix fun node h => by
      rw [habsent] at h
      cases h
  have hlink : (mem.write frame i e).ram.Reach root below (i :: path) node :=
    (hforest.reach_write_cons_iff hroot hreach).2 ⟨hnext, hchild⟩
  have hbehind : ∀ j other, (mem.write frame i e).ram.child below ⟨node, j⟩ ≠
      .table other := by
    intro j other
    have hne : ¬(frame = node ∧ i = j) := by
      rintro ⟨rfl, -⟩
      exact hforest.apart hroot ⟨_, _, hreach⟩ hheld
    rw [Memory.child_write_of_ne hne, Memory.child_of_read_empty (hempty j)]
    exact fun h => Child.noConfusion h
  by_cases hout : root' = root ∧ i :: path <:+ path'
  · rcases hout with ⟨rfl, hsuffix⟩
    constructor
    · intro h
      obtain rfl := hlink.eq_of_suffix hbehind h hsuffix
      exact Or.inr ⟨rfl, hlink.level_eq h, rfl, hlink.frame_eq h⟩
    · intro hway
      rcases hway with hold | ⟨-, rfl, rfl, rfl⟩
      · exact absurd hsuffix (hbefore hold)
      · exact hlink
  · rw [hforest.reach_write_iff hroot hreach hroot' hout]
    constructor
    · exact Or.inl
    · intro hway
      rcases hway with hold | ⟨rfl, rfl, rfl, rfl⟩
      · exact hold
      · exact absurd ⟨rfl, List.suffix_rfl⟩ hout

/-- Unlinking an empty node takes away the way to it. -/
theorem reach_unlink_iff (hforest : Forest mem roots held)
    (hroot : root ∈ roots) (hreach : mem.ram.Reach root level path frame)
    (hchild : mem.ram.child level ⟨frame, i⟩ = .table node)
    (hnext : level.next = some below)
    (hempty : ∀ j, mem.ram.child below ⟨node, j⟩ = .absent) {root' : Frame}
    (hroot' : root' ∈ roots) {level' : Level} {path' : List Index}
    {frame' : Frame} :
    (mem.clear frame i).ram.Reach root' level' path' frame' ↔
      mem.ram.Reach root' level' path' frame' ∧ frame' ≠ node := by
  have hlink : mem.ram.Reach root below (i :: path) node :=
    .step hreach hnext hchild
  have hbehind : ∀ j other, mem.ram.child below ⟨node, j⟩ ≠ .table other := by
    intro j other h
    rw [hempty j] at h
    cases h
  by_cases hout : root' = root ∧ i :: path <:+ path'
  · rcases hout with ⟨rfl, hsuffix⟩
    constructor
    · intro h
      obtain ⟨_, node', hnode⟩ := h.node_of_suffix hsuffix
      have habsent := mem.child_clear_self level frame i
      rw [Memory.clear] at hnode habsent
      rw [hforest.reach_write_cons_iff hroot hreach, habsent] at hnode
      cases hnode.2
    · intro hway
      rcases hway with ⟨h, hne⟩
      obtain rfl := hlink.eq_of_suffix hbehind h hsuffix
      exact absurd (hlink.frame_eq h) hne
  · rw [Memory.clear, hforest.reach_write_iff hroot hreach hroot' hout]
    constructor
    · intro h
      refine ⟨h, ?_⟩
      rintro rfl
      obtain ⟨rfl, -, rfl⟩ := hforest.reach_eq hroot hlink hroot' h
      exact hout ⟨rfl, List.suffix_rfl⟩
    · exact And.left

/-- Linking an empty node that was held makes it a node of the tree. -/
theorem link (hforest : Forest mem roots held) (hroot : root ∈ roots)
    (hreach : mem.ram.Reach root level path frame)
    (habsent : mem.ram.child level ⟨frame, i⟩ = .absent)
    (hnext : level.next = some below) (hheld : node ∈ held)
    (hempty : ∀ j, mem.read node j = .empty)
    (hchild : (mem.write frame i e).ram.child level ⟨frame, i⟩ = .table node)
    (hproper : e.Proper level) :
    Forest (mem.write frame i e) roots (held.erase node) := by
  have hiff : ∀ {root' level' path' frame'}, root' ∈ roots →
      ((mem.write frame i e).ram.Reach root' level' path' frame' ↔
        mem.ram.Reach root' level' path' frame' ∨
          root' = root ∧ level' = below ∧ path' = i :: path ∧ frame' = node) :=
    fun hroot' =>
      hforest.reach_link_iff hroot hreach habsent hnext hheld hempty
        hchild hroot'
  have hfresh : ∀ {root' level' path'}, root' ∈ roots →
      ¬mem.ram.Reach root' level' path' node :=
    fun hroot' h => hforest.apart hroot' ⟨_, _, h⟩ hheld
  have hnodes :
      ∀ other, (∃ root ∈ roots, (mem.write frame i e).ram.Owns root other) ↔
        (∃ root ∈ roots, mem.ram.Owns root other) ∨ other = node := by
    intro other
    constructor
    · rintro ⟨root', hroot', level', path', h⟩
      rcases (hiff hroot').1 h with hold | ⟨-, -, -, heq⟩
      · exact Or.inl ⟨root', hroot', level', path', hold⟩
      · exact Or.inr heq
    · intro hother
      rcases hother with ⟨root', hroot', level', path', h⟩ | heq
      · exact ⟨root', hroot', level', path', (hiff hroot').2 (Or.inl h)⟩
      · exact ⟨root, hroot, below, i :: path,
          (hiff hroot).2 (Or.inr ⟨rfl, rfl, rfl, heq⟩)⟩
  obtain ⟨hallocated, hapart⟩ := hforest.account_of_added hheld hnodes
  refine ⟨hforest.valid, hforest.low, hforest.nodup, ?_, hallocated, hapart, ?_⟩
  · intro root₁ root₂ level₁ level₂ path₁ path₂ other hroot₁ hroot₂ h₁ h₂
    rcases (hiff hroot₁).1 h₁ with hold₁ | ⟨rfl, -, rfl, rfl⟩
    · rcases (hiff hroot₂).1 h₂ with hold₂ | ⟨-, -, -, rfl⟩
      · exact hforest.unique hroot₁ hroot₂ hold₁ hold₂
      · exact absurd hold₁ (hfresh hroot₁)
    · rcases (hiff hroot₂).1 h₂ with hold₂ | ⟨rfl, -, rfl, -⟩
      · exact absurd hold₂ (hfresh hroot₂)
      · exact ⟨rfl, rfl⟩
  · intro root' level' path' other hroot' h j
    rcases (hiff hroot').1 h with h | ⟨-, -, -, rfl⟩
    · rw [Memory.read_write]
      split
      · next hcell =>
          rcases hcell with ⟨rfl, rfl⟩
          obtain ⟨-, rfl, -⟩ := hforest.reach_eq hroot hreach hroot' h
          exact hproper
      · exact hforest.proper hroot' h j
    · have hne : ¬(frame = other ∧ i = j) := by
        rintro ⟨rfl, -⟩
        exact hfresh hroot hreach
      rw [Memory.read_write, if_neg hne, hempty j]
      exact Entry.proper_empty _

/-- Linking an empty node gives no address a leaf and takes none away. -/
theorem sameLeaves_link (hforest : Forest mem roots held) (hroot : root ∈ roots)
    (hreach : mem.ram.Reach root level path frame)
    (habsent : mem.ram.child level ⟨frame, i⟩ = .absent)
    (hnext : level.next = some below) (hheld : node ∈ held)
    (hempty : ∀ j, mem.read node j = .empty)
    (hchild : (mem.write frame i e).ram.child level ⟨frame, i⟩ = .table node) :
    Ram.SameLeaves roots mem.ram (mem.write frame i e).ram := by
  intro root' hroot' va level' other leaf
  have hiff :
      (mem.write frame i e).ram.Reach root' level' (level'.pathTo va) other ↔
        _ :=
    hforest.reach_link_iff hroot hreach habsent hnext hheld hempty hchild hroot'
  have hleaf : mem.ram.Reach root' level' (level'.pathTo va) other →
      ((mem.write frame i e).ram.child level' ⟨other, level'.index va⟩ =
          .leaf leaf ↔
        mem.ram.child level' ⟨other, level'.index va⟩ = .leaf leaf) :=
    fun h => hforest.child_write_iff hroot hreach (· = .leaf leaf)
      (by simp [habsent]) (by simp [hchild]) hroot' h _
  constructor
  · intro h
    rcases hiff.1 h.reach with hold | ⟨-, -, -, rfl⟩
    · exact ⟨hold, (hleaf hold).1 h.child⟩
    · have hne : ¬(frame = other ∧ i = level'.index va) := by
        rintro ⟨rfl, -⟩
        exact hforest.apart hroot ⟨_, _, hreach⟩ hheld
      have hnone := h.child
      rw [Memory.child_write_of_ne hne, Memory.child_of_read_empty (hempty _)]
        at hnone
      cases hnone
  · intro h
    exact ⟨hiff.2 (Or.inl h.reach), (hleaf h.reach).2 h.child⟩

/-- Fetching a node and linking it where nothing was adds one way. -/
theorem grow {mem' : Memory} (hforest : Forest mem roots held)
    (hroot : root ∈ roots) (hreach : mem.ram.Reach root level path frame)
    (habsent : mem.ram.child level ⟨frame, i⟩ = .absent)
    (hnext : level.next = some below) (hfetched : mem.Fetched node mem')
    (user : Bool) :
    Forest (mem'.write frame i (.table node (Flags.table.put .user user)))
        roots held ∧
      Ram.SameLeaves roots mem.ram
        (mem'.write frame i (.table node (Flags.table.put .user user))).ram ∧
      (mem'.write frame i (.table node (Flags.table.put .user user))).ram.Reach
        root below (i :: path) node := by
  have hfresh : node ∉ held := fun hmem =>
    hfetched.took.fresh ((hforest.allocated node).2 (Or.inl hmem))
  obtain ⟨hforest', hleaves⟩ := hforest.take hfetched.took hfetched.read_other
  have hreach' : mem'.ram.Reach root level path frame :=
    (Ram.Reach.congr_child (hforest.child_fetch hfetched hroot)).2 hreach
  have habsent' : mem'.ram.child level ⟨frame, i⟩ = .absent :=
    (hforest.child_fetch hfetched hroot hreach i).trans habsent
  have hheld := Finset.mem_insert_self node held
  have hlow :=
    hforest'.low_of_allocated ((hforest'.allocated node).2 (Or.inl hheld))
  have hchild := Memory.child_of_read_table hnext hlow
    (mem'.read_write_self frame i (.table node (Flags.table.put .user user)))
  have hlinked := hforest'.link hroot hreach' habsent' hnext hheld
    hfetched.read_self hchild (Entry.proper_table hnext hlow user)
  have hkept := hforest'.sameLeaves_link hroot hreach' habsent' hnext hheld
    hfetched.read_self hchild
  rw [Finset.erase_insert hfresh] at hlinked
  refine ⟨hlinked, hleaves.trans hkept, ?_⟩
  exact (hforest'.reach_write_cons_iff hroot hreach').2 ⟨hnext, hchild⟩

/-- Unlinking an empty node leaves it with whoever unlinked it. -/
theorem unlink (hforest : Forest mem roots held) (hroot : root ∈ roots)
    (hreach : mem.ram.Reach root level path frame)
    (hchild : mem.ram.child level ⟨frame, i⟩ = .table node)
    (hnext : level.next = some below)
    (hempty : ∀ j, mem.ram.child below ⟨node, j⟩ = .absent) :
    Forest (mem.clear frame i) roots (insert node held) := by
  have hlink : mem.ram.Reach root below (i :: path) node :=
    .step hreach hnext hchild
  have hiff : ∀ {root' level' path' frame'}, root' ∈ roots →
      ((mem.clear frame i).ram.Reach root' level' path' frame' ↔
        mem.ram.Reach root' level' path' frame' ∧ frame' ≠ node) :=
    fun hroot' =>
      hforest.reach_unlink_iff hroot hreach hchild hnext hempty hroot'
  refine ⟨hforest.valid, hforest.low, hforest.nodup, ?_, ?_, ?_, ?_⟩
  · intro root₁ root₂ level₁ level₂ path₁ path₂ other hroot₁ hroot₂ h₁ h₂
    exact hforest.unique hroot₁ hroot₂ ((hiff hroot₁).1 h₁).1
      ((hiff hroot₂).1 h₂).1
  · intro other
    rw [Finset.mem_insert]
    refine (hforest.allocated other).trans ⟨?_, ?_⟩
    · intro howned
      rcases howned with hother | ⟨root', hroot', level', path', h⟩
      · exact Or.inl (Or.inr hother)
      · by_cases heq : other = node
        · exact Or.inl (Or.inl heq)
        · exact Or.inr ⟨root', hroot', level', path', (hiff hroot').2 ⟨h, heq⟩⟩
    · intro howned
      rcases howned with (rfl | hother) | ⟨root', hroot', level', path', h⟩
      · exact Or.inr ⟨root, hroot, below, _, hlink⟩
      · exact Or.inl hother
      · exact Or.inr ⟨root', hroot', level', path', ((hiff hroot').1 h).1⟩
  · rintro root' other hroot' ⟨level', path', h⟩ hmem
    obtain ⟨hold, hne⟩ := (hiff hroot').1 h
    rcases Finset.mem_insert.1 hmem with heq | hmem
    · exact hne heq
    · exact hforest.apart hroot' ⟨level', path', hold⟩ hmem
  · intro root' level' path' other hroot' h j
    obtain ⟨hold, -⟩ := (hiff hroot').1 h
    rw [Memory.clear, Memory.read_write]
    split
    · exact Entry.proper_empty _
    · exact hforest.proper hroot' hold j

/-- Unlinking an empty node takes no leaf from any address and gives none. -/
theorem sameLeaves_unlink (hforest : Forest mem roots held)
    (hroot : root ∈ roots) (hreach : mem.ram.Reach root level path frame)
    (hchild : mem.ram.child level ⟨frame, i⟩ = .table node)
    (hnext : level.next = some below)
    (hempty : ∀ j, mem.ram.child below ⟨node, j⟩ = .absent) :
    Ram.SameLeaves roots mem.ram (mem.clear frame i).ram := by
  intro root' hroot' va level' other leaf
  have hlink : mem.ram.Reach root below (i :: path) node :=
    .step hreach hnext hchild
  have hiff :
      (mem.clear frame i).ram.Reach root' level' (level'.pathTo va) other ↔ _ :=
    hforest.reach_unlink_iff hroot hreach hchild hnext hempty hroot'
  have hcleared :
      (mem.clear frame i).ram.child level ⟨frame, i⟩ ≠ .leaf leaf := by
    rw [mem.child_clear_self]
    exact fun h => Child.noConfusion h
  have hleaf : mem.ram.Reach root' level' (level'.pathTo va) other →
      ((mem.clear frame i).ram.child level' ⟨other, level'.index va⟩ =
          .leaf leaf ↔
        mem.ram.child level' ⟨other, level'.index va⟩ = .leaf leaf) :=
    fun h => hforest.child_write_iff hroot hreach (· = .leaf leaf)
      (by simp [hchild]) hcleared hroot' h _
  constructor
  · intro h
    have hold := (hiff.1 h.reach).1
    exact ⟨hold, (hleaf hold).1 h.child⟩
  · intro h
    have hother : other ≠ node := by
      rintro rfl
      obtain ⟨-, rfl, -⟩ := hforest.reach_eq hroot hlink hroot' h.reach
      have hnone := h.child
      rw [hempty] at hnone
      cases hnone
    exact ⟨hiff.2 ⟨h.reach, hother⟩, (hleaf h.reach).2 h.child⟩

end Link

/-- A link opened to user code still leads to its node. -/
theorem child_of_opened (hforest : Forest mem roots held) (hroot : root ∈ roots)
    (hreach : mem.ram.Reach root level path frame) {node : Frame}
    (hchild : mem.ram.child level ⟨frame, i⟩ = .table node) {mem' : Memory}
    (hread : mem'.read frame i = (mem.read frame i).put .user true) :
    mem'.ram.child level ⟨frame, i⟩ = .table node ∧
      (mem'.read frame i).Proper level := by
  obtain ⟨below, hnext⟩ := Ram.next_of_child_table hchild
  have hlow := hforest.low_of_reach hroot (.step hreach hnext hchild)
  obtain ⟨user, hold⟩ := hforest.read_of_child_table hroot hreach hchild
  rw [hold, Entry.put_user_table, Flags.put_put_self] at hread
  refine ⟨Memory.child_of_read_table hnext hlow hread, ?_⟩
  rw [hread]
  exact Entry.proper_table hnext hlow true

/-- Opening links to user code, however many, changes nothing that an entry
leads to. -/
theorem open_links {mem' : Memory} (hforest : Forest mem roots held)
    (hvalid : mem'.pool.Valid) (hregion : mem.pool.SameRegion mem'.pool)
    (hallocated : mem'.pool.allocated = mem.pool.allocated)
    (hread : ∀ {root level path frame}, root ∈ roots →
      mem.ram.Reach root level path frame → ∀ i,
        mem'.read frame i = mem.read frame i ∨
          mem'.read frame i = (mem.read frame i).put .user true ∧
            ∃ node, mem.ram.child level ⟨frame, i⟩ = .table node) :
    Forest mem' roots held ∧
      ∀ {root level path frame}, root ∈ roots →
        mem.ram.Reach root level path frame → ∀ i,
          mem'.ram.child level ⟨frame, i⟩ = mem.ram.child level ⟨frame, i⟩ := by
  have hsame : ∀ {root level path frame}, root ∈ roots →
      mem.ram.Reach root level path frame → ∀ i,
        mem'.ram.child level ⟨frame, i⟩ = mem.ram.child level ⟨frame, i⟩ ∧
          (mem'.read frame i).Proper level := by
    intro root level path frame hroot hreach i
    rcases hread hroot hreach i with heq | ⟨heq, node, hchild⟩
    · refine ⟨Ram.child_congr heq, ?_⟩
      rw [heq]
      exact hforest.proper hroot hreach i
    · rw [hchild]
      exact hforest.child_of_opened hroot hreach hchild heq
  refine ⟨?_, fun hroot hreach i => (hsame hroot hreach i).1⟩
  refine hforest.transfer hvalid hregion ?_ ?_ ?_ hforest.apart
  · intro root level path frame hroot hreach i node
    rw [(hsame hroot hreach i).1]
  · intro root level path frame hroot hreach i
    exact (hsame hroot hreach i).2
  · intro frame
    rw [hallocated, hforest.allocated]

end Forest

end FourLevelPaging
