/-
Trees without empty nodes.  Behind every entry of such a tree lies a leaf, so a
node stands on the way of an address exactly if some address of the same span is
mapped by a leaf further down.
-/
import FourLevelPaging.Proofs.Tree.Link

namespace FourLevelPaging

/-- Every node of the trees holds an entry, but perhaps those in `bare`. -/
def Memory.Trim (mem : Memory) (held : Finset Frame) (bare : List Frame) :
    Prop :=
  ∀ frame ∈ mem.pool.allocated, frame ∉ held → frame ∉ bare →
    ∃ i, (mem.read frame i).present = true

/-- The numbers of the spans of a level in which an address is mapped by a leaf
further down. -/
def AddressSpace.spans (space : AddressSpace) (ram : Ram) (level : Level) :
    Set Nat :=
  {n | ∃ a target, space.lookup ram a = some target ∧
    target.size.level.height < level.height ∧ a.toNat / 2 ^ level.shift = n}

/-- The trees lie apart and have no empty nodes, in a memory whose pool consists
of the frames of `pool`. -/
structure Memory.Tended (mem : Memory) (pool : FramePool) (roots : List Frame)
    (held : Finset Frame) : Prop where
  forest : Forest mem roots held
  trim : mem.Trim held roots
  region : pool.SameRegion mem.pool

namespace Memory.Trim

variable {mem mem' : Memory} {held : Finset Frame} {bare : List Frame}
  {frame node : Frame}

theorem mono {bare' : List Frame} (htrim : mem.Trim held bare)
    (hsub : ∀ frame ∈ bare, frame ∈ bare') : mem.Trim held bare' :=
  fun frame hframe hheld hbare =>
    htrim frame hframe hheld fun h => hbare (hsub frame h)

/-- A change that takes no entry away keeps the nodes from being empty. -/
theorem of_present (htrim : mem.Trim held bare)
    (hallocated : mem'.pool.allocated = mem.pool.allocated)
    (hpresent : ∀ frame ∈ mem.pool.allocated, ∀ i,
      (mem.read frame i).present = true → (mem'.read frame i).present = true) :
    mem'.Trim held bare := by
  intro frame hframe hheld hbare
  rw [hallocated] at hframe
  obtain ⟨i, hi⟩ := htrim frame hframe hheld hbare
  exact ⟨i, hpresent frame hframe i hi⟩

/-- A node with an entry is not bare. -/
theorem of_entry (htrim : mem.Trim held (node :: bare)) {i : Index}
    (hpresent : (mem.read node i).present = true) : mem.Trim held bare := by
  intro frame hframe hheld hbare
  by_cases heq : frame = node
  · subst heq
    exact ⟨i, hpresent⟩
  · exact htrim frame hframe hheld (by simp [heq, hbare])

/-- A node that gets an entry is no longer bare. -/
theorem write (htrim : mem.Trim held (node :: bare)) (i : Index) {e : Entry}
    (hpresent : e.present = true) : (mem.write node i e).Trim held bare := by
  have hkept : (mem.write node i e).Trim held (node :: bare) := by
    refine htrim.of_present rfl fun frame _ j hj => ?_
    rw [Memory.read_write]
    split
    · exact hpresent
    · exact hj
  apply hkept.of_entry (i := i)
  rw [mem.read_write_self]
  exact hpresent

/-- A node that loses an entry may become bare. -/
theorem clear (htrim : mem.Trim held bare) (node : Frame) (i : Index) :
    (mem.clear node i).Trim held (node :: bare) := by
  intro frame hframe hheld hbare
  rw [List.mem_cons, not_or] at hbare
  obtain ⟨j, hj⟩ := htrim frame hframe hheld hbare.2
  refine ⟨j, ?_⟩
  rw [Memory.clear, Memory.read_write, if_neg fun h => hbare.1 h.1.symm]
  exact hj

/-- Linking a node that was made for it leaves only that node bare. -/
theorem link (htrim : mem.Trim held (frame :: bare))
    (hfetched : mem.Fetched node mem') (i : Index) (flags : Flags) :
    (mem'.write frame i (.table node flags)).Trim held (node :: bare) := by
  have htook : mem'.Trim held (frame :: node :: bare) := by
    intro other hother hheld hbare
    simp only [List.mem_cons, not_or] at hbare
    rw [hfetched.took.allocated_eq, Finset.mem_insert] at hother
    obtain ⟨j, hj⟩ :=
      htrim other (hother.resolve_left hbare.2.1) hheld (by simp [hbare])
    refine ⟨j, ?_⟩
    rw [hfetched.read_other hbare.2.1]
    exact hj
  exact htook.write i (Entry.present_leaf _ _)

/-- A bare node may be handed back. -/
theorem giveBack (htrim : mem.Trim held (node :: bare))
    (hfreed : mem.pool.Freed node (mem.giveBack node).state.pool) :
    (mem.giveBack node).state.Trim held bare := by
  intro frame hframe hheld hbare
  rw [hfreed.allocated_eq, Finset.mem_erase] at hframe
  exact htrim frame hframe.2 hheld (by simp [hframe.1, hbare])

end Memory.Trim

namespace Ram

variable {ram : Ram} {root : Frame} {va : VirtAddr} {level upper : Level}
  {frame node : Frame}

/-- A way down to a level passes a node of every level above it. -/
theorem Reach.passes (h : ram.Reach root level (level.pathTo va) frame)
    (hle : level.height ≤ upper.height) :
    ∃ node, ram.Reach root upper (upper.pathTo va) node := by
  obtain ⟨level', node, hnode⟩ := h.node_of_suffix (Level.pathTo_suffix hle va)
  have hheight := hnode.height_add_length
  have hheight' := upper.length_pathTo va
  obtain rfl : level' = upper := Level.height_inj (by omega)
  exact ⟨node, hnode⟩

/-- No way goes on below an entry that points at no node. -/
theorem Reach.not_below (h : ram.Reach root upper (upper.pathTo va) frame)
    (hchild : ∀ other, ram.child upper ⟨frame, upper.index va⟩ ≠ .table other)
    (hlt : level.height < upper.height) :
    ¬ram.Reach root level (level.pathTo va) node :=
  fun h' => h.not_suffix hchild h' (Level.cons_pathTo_suffix hlt va)

/-- The leaf of an address lies below every node that its way leads on from. -/
theorem LeafAt.height_lt {e : Entry} {other : Frame}
    (hleaf : ram.LeafAt root va level node e)
    (hreach : ram.Reach root upper (upper.pathTo va) frame)
    (hchild : ram.child upper ⟨frame, upper.index va⟩ = .table other) :
    level.height < upper.height := by
  have hnot :
      ∀ other, ram.child level ⟨node, level.index va⟩ ≠ .table other := by
    intro other h
    rw [hleaf.child] at h
    cases h
  by_contra hle
  rcases Nat.eq_or_lt_of_not_lt hle with heq | hlt
  · obtain rfl := Level.height_inj heq
    obtain rfl := hleaf.reach.frame_eq hreach
    exact hnot _ hchild
  · exact hleaf.reach.not_below hnot hlt hreach

end Ram

namespace Forest

variable {mem : Memory} {roots : List Frame} {held : Finset Frame}
  {root : Frame}

theorem allocated_not_held_iff (hforest : Forest mem roots held)
    {frame : Frame} :
    frame ∈ mem.pool.allocated ∧ frame ∉ held ↔
      ∃ root ∈ roots, mem.ram.Owns root frame := by
  rw [hforest.allocated]
  constructor
  · rintro ⟨hmem | howns, hnot⟩
    · exact absurd hmem hnot
    · exact howns
  · rintro ⟨root, hroot, howns⟩
    exact ⟨Or.inr ⟨root, hroot, howns⟩, hforest.apart hroot howns⟩

/-- A node below a root is itself no root. -/
theorem not_mem_roots (hforest : Forest mem roots held) (hroot : root ∈ roots)
    {level : Level} {i : Index} {path : List Index} {node : Frame}
    (hreach : mem.ram.Reach root level (i :: path) node) : node ∉ roots := by
  intro hmem
  obtain ⟨-, -, hpath⟩ := hforest.reach_eq hmem .root hroot hreach
  cases hpath

/-- A node of a trim tree other than its root holds an entry. -/
theorem exists_entry (hforest : Forest mem roots held)
    (htrim : mem.Trim held roots) (hroot : root ∈ roots) {level : Level}
    {i : Index} {path : List Index} {node : Frame}
    (hreach : mem.ram.Reach root level (i :: path) node) :
    ∃ j, mem.ram.child level ⟨node, j⟩ ≠ .absent := by
  obtain ⟨hallocated, hheld⟩ :=
    hforest.allocated_not_held_iff.2 ⟨root, hroot, level, _, hreach⟩
  obtain ⟨j, hj⟩ :=
    htrim node hallocated hheld (hforest.not_mem_roots hroot hreach)
  refine ⟨j, fun h => ?_⟩
  rw [Ram.child_eq_absent_iff] at h
  exact absurd (hj.symm.trans h) (by decide)

/-- Behind every entry of a trim tree lies a leaf that some address ends in. -/
theorem exists_leafAt (hforest : Forest mem roots held)
    (htrim : mem.Trim held roots) (hroot : root ∈ roots) {level : Level}
    {path : List Index} {frame : Frame} {i : Index}
    (hreach : mem.ram.Reach root level path frame)
    (hchild : mem.ram.child level ⟨frame, i⟩ ≠ .absent) :
    ∃ a last node e, a.isCanonical = true ∧ level.index a = i ∧
      level.pathTo a = path ∧
      mem.ram.LeafAt root a last node e ∧ last.height ≤ level.height := by
  induction level using Level.induction_down generalizing path frame i with
  | step level ih =>
      cases hfound : mem.ram.child level ⟨frame, i⟩ with
      | absent => exact absurd hfound hchild
      | created node => exact absurd hfound Ram.child_ne_created
      | leaf e =>
          obtain ⟨a, ha, rfl, rfl⟩ :=
            Level.exists_pathTo hreach.height_add_length i
          exact ⟨a, level, frame, e, ha, rfl, rfl, ⟨hreach, hfound⟩,
            Nat.le_refl _⟩
      | table node =>
          obtain ⟨below, hnext⟩ := Ram.next_of_child_table hfound
          have hbelow := Ram.Reach.step hreach hnext hfound
          obtain ⟨j, hj⟩ := hforest.exists_entry htrim hroot hbelow
          obtain ⟨a, last, leaf, e, ha, -, hpath, hleaf, hle⟩ :=
            ih below hnext hbelow hj
          rw [Level.pathTo_of_next hnext] at hpath
          obtain ⟨hindex, hpath⟩ := List.cons.inj hpath
          have hheight := Level.height_of_next hnext
          exact ⟨a, last, leaf, e, ha, hindex, hpath, hleaf, by omega⟩

/-- A node other than the root stands on the way of an address exactly if an
address of the same span is mapped by a leaf further down. -/
theorem reach_iff_mem_spans (hforest : Forest mem roots held)
    (htrim : mem.Trim held roots) {space : AddressSpace}
    (hroot : space.root ∈ roots) {upper level : Level}
    (hnext : upper.next = some level) {va : VirtAddr}
    (hva : va.isCanonical = true) :
    (∃ frame, mem.ram.Reach space.root level (level.pathTo va) frame) ↔
      va.toNat / 2 ^ upper.shift ∈ space.spans mem.ram upper := by
  have hheight := Level.height_of_next hnext
  constructor
  · rintro ⟨frame, hreach⟩
    rw [Level.pathTo_of_next hnext] at hreach
    obtain ⟨j, hj⟩ := hforest.exists_entry htrim hroot hreach
    obtain ⟨a, last, node, e, ha, -, hpath, hleaf, hle⟩ :=
      hforest.exists_leafAt htrim hroot hreach hj
    rw [← Level.pathTo_of_next hnext, Level.pathTo_eq_iff hnext ha hva] at hpath
    obtain ⟨size, hsize⟩ := Ram.leafSize_of_child_leaf hleaf.child
    refine ⟨a, _, AddressSpace.lookup_of_leafAt ha hleaf hsize, ?_, hpath⟩
    change size.level.height < upper.height
    rw [Level.level_of_leafSize hsize]
    omega
  · rintro ⟨a, target, hlookup, hlt, hspan⟩
    obtain ⟨ha, last, node, e, size, hleaf, hsize, rfl⟩ :=
      AddressSpace.lookup_eq_some_iff.1 hlookup
    change size.level.height < upper.height at hlt
    rw [Level.level_of_leafSize hsize] at hlt
    have hle : last.height ≤ level.height := by omega
    obtain ⟨frame, hreach⟩ := hleaf.reach.passes hle
    rw [(Level.pathTo_eq_iff hnext ha hva).2 hspan] at hreach
    exact ⟨frame, hreach⟩

end Forest

section Create

variable {mem : Memory} {pool : FramePool} {roots : List Frame}
  {held : Finset Frame}

/-- A memory without trees. -/
theorem Memory.Tended.bare (hvalid : mem.pool.Valid)
    (hlow : mem.pool.Below (2 ^ 52)) :
    mem.Tended mem.pool [] mem.pool.allocated :=
  ⟨.bare hvalid hlow, fun _ hframe hheld => absurd hframe hheld, .refl _⟩

/-- A new space adds a tree of one node. -/
theorem AddressSpace.tended_create (htended : mem.Tended pool roots held)
    {space : AddressSpace} (hmade : (create mem).value = .ok space) :
    (create mem).state.Tended pool (roots ++ [space.root]) held := by
  have hfetched := (fetched_of_create htended.forest.valid hmade).1
  refine ⟨(forest_create htended.forest hmade).1, ?_,
    htended.region.trans hfetched.took.region⟩
  intro frame hframe hheld hbare
  rw [List.mem_append, List.mem_singleton, not_or] at hbare
  rw [hfetched.took.allocated_eq, Finset.mem_insert] at hframe
  obtain ⟨i, hi⟩ :=
    htended.trim frame (hframe.resolve_left hbare.2) hheld hbare.1
  exact ⟨i, (congrArg Entry.present (hfetched.read_other hbare.2 i)).trans hi⟩

end Create

end FourLevelPaging
