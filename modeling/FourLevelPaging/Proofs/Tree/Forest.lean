/-
Trees that share a pool.  Every node is reached by one way from one root, and
the frames handed out by the pool are the nodes of the trees and the frames
that others hold, which are apart.
-/
import FourLevelPaging.Proofs.Entry.Leaf
import FourLevelPaging.Proofs.FramePool.Allocated
import FourLevelPaging.Proofs.Tree.Reach

namespace FourLevelPaging

/-- What an entry of a node of the given level may be: nothing at all, a link
with the permissions of a link and no other bit, or a leaf for a whole page. -/
structure Entry.Proper (level : Level) (e : Entry) : Prop where
  absent : e.present = false → e = .empty
  table : e.present = true → level.isLeaf e = false →
    ∃ user, e = .table e.tableFrame (Flags.table.put .user user)
  leaf : ∀ size, e.present = true → level.isLeaf e = true →
    level.leafSize = some size → e.base.isAligned size = true

/-- The trees under `roots` lie apart in memory, and the pool has handed out
their nodes and the frames in `held`. -/
structure Forest (mem : Memory) (roots : List Frame) (held : Finset Frame) :
    Prop where
  valid : mem.pool.Valid
  low : mem.pool.Below (2 ^ 52)
  nodup : roots.Nodup
  unique :
    ∀ {root root' level level' path path' frame}, root ∈ roots → root' ∈ roots →
      mem.ram.Reach root level path frame →
      mem.ram.Reach root' level' path' frame →
      root' = root ∧ path' = path
  allocated : ∀ frame, frame ∈ mem.pool.allocated ↔
    frame ∈ held ∨ ∃ root ∈ roots, mem.ram.Owns root frame
  apart : ∀ {root frame}, root ∈ roots → mem.ram.Owns root frame → frame ∉ held
  proper : ∀ {root level path frame}, root ∈ roots →
    mem.ram.Reach root level path frame → ∀ i, (mem.read frame i).Proper level

/-- Walks for any address from any of the roots end at the same leaves. -/
def Ram.SameLeaves (roots : List Frame) (ram ram' : Ram) : Prop :=
  ∀ root ∈ roots, ∀ va level frame e,
    ram'.LeafAt root va level frame e ↔ ram.LeafAt root va level frame e

namespace Ram.SameLeaves

variable {roots : List Frame} {ram ram' ram'' : Ram}

theorem refl (roots : List Frame) (ram : Ram) : SameLeaves roots ram ram :=
  fun _ _ _ _ _ _ => Iff.rfl

theorem trans (h : SameLeaves roots ram ram')
    (h' : SameLeaves roots ram' ram'') :
    SameLeaves roots ram ram'' :=
  fun root hroot va level frame e =>
    (h' root hroot va level frame e).trans (h root hroot va level frame e)

theorem lookup_eq (h : SameLeaves roots ram ram') {space : AddressSpace}
    (hroot : space.root ∈ roots) (va : VirtAddr) :
    space.lookup ram' va = space.lookup ram va :=
  AddressSpace.lookup_congr fun level e =>
    exists_congr fun frame => h space.root hroot va level frame e

end Ram.SameLeaves

namespace Entry

theorem proper_empty (level : Level) : Proper level .empty :=
  ⟨fun _ => rfl, fun h => absurd h (by decide), fun _ h => absurd h (by decide)⟩

theorem isLeaf_table {level below : Level} (hnext : level.next = some below)
    (node : Frame) (flags : Flags) :
    level.isLeaf (.table node flags) = false := by
  have hhuge := has_huge_table node flags
  cases level
  · rfl
  · exact hhuge
  · exact hhuge
  · cases hnext

theorem proper_table {level below : Level} (hnext : level.next = some below)
    {node : Frame} (hlow : node.base.toNat < 2 ^ 52) (user : Bool) :
    Proper level (.table node (Flags.table.put .user user)) := by
  refine ⟨fun h => ?_, fun _ _ => ⟨user, ?_⟩, fun _ _ h => ?_⟩
  · rw [table, present_leaf] at h
    cases h
  · rw [tableFrame_table hlow]
  · rw [isLeaf_table hnext] at h
    cases h

end Entry

namespace Memory

variable {mem : Memory} {level below : Level} {frame node : Frame} {i : Index}

theorem child_of_read_empty (h : mem.read frame i = .empty) :
    mem.ram.child level ⟨frame, i⟩ = .absent := by
  rw [Ram.child_eq_absent_iff]
  change (mem.read frame i).present = false
  rw [h, Entry.present_empty]

/-- An entry made for a node leads to the node. -/
theorem child_of_read_table {flags : Flags} (hnext : level.next = some below)
    (hlow : node.base.toNat < 2 ^ 52)
    (h : mem.read frame i = .table node flags) :
    mem.ram.child level ⟨frame, i⟩ = .table node := by
  rw [Ram.child_eq_table_iff]
  change (mem.read frame i).present = true ∧
    level.isLeaf (mem.read frame i) = false ∧
    (mem.read frame i).tableFrame = node
  rw [h]
  exact ⟨Entry.present_leaf _ _, Entry.isLeaf_table hnext node flags,
    Entry.tableFrame_table hlow flags⟩

end Memory

namespace Forest

variable {mem mem' : Memory} {roots : List Frame} {held held' : Finset Frame}

/-- A node belongs to one way only. -/
theorem reach_eq (hforest : Forest mem roots held) {root root' : Frame}
    {level level' : Level} {path path' : List Index} {frame : Frame}
    (hroot : root ∈ roots) (hreach : mem.ram.Reach root level path frame)
    (hroot' : root' ∈ roots)
    (hreach' : mem.ram.Reach root' level' path' frame) :
    root' = root ∧ level' = level ∧ path' = path := by
  obtain ⟨rfl, rfl⟩ := hforest.unique hroot hroot' hreach hreach'
  exact ⟨rfl, hreach.level_eq hreach', rfl⟩

theorem mem_allocated_of_reach (hforest : Forest mem roots held) {root : Frame}
    (hroot : root ∈ roots) {level : Level} {path : List Index} {frame : Frame}
    (hreach : mem.ram.Reach root level path frame) :
    frame ∈ mem.pool.allocated :=
  (hforest.allocated frame).2 (Or.inr ⟨root, hroot, level, path, hreach⟩)

theorem low_of_allocated (hforest : Forest mem roots held) {frame : Frame}
    (hframe : frame ∈ mem.pool.allocated) : frame.base.toNat < 2 ^ 52 := by
  obtain ⟨i, hi, -, rfl⟩ := FramePool.mem_allocated.1 hframe
  exact hforest.low i (Nat.lt_of_lt_of_le hi hforest.valid.next_le)

theorem low_of_reach (hforest : Forest mem roots held) {root : Frame}
    (hroot : root ∈ roots) {level : Level} {path : List Index} {frame : Frame}
    (hreach : mem.ram.Reach root level path frame) :
    frame.base.toNat < 2 ^ 52 :=
  hforest.low_of_allocated (hforest.mem_allocated_of_reach hroot hreach)

/-- An entry that leads to a node was made for it. -/
theorem read_of_child_table (hforest : Forest mem roots held) {root : Frame}
    (hroot : root ∈ roots) {level : Level} {path : List Index}
    {frame node : Frame} (hreach : mem.ram.Reach root level path frame)
    {i : Index} (hchild : mem.ram.child level ⟨frame, i⟩ = .table node) :
    ∃ user, mem.read frame i = .table node (Flags.table.put .user user) := by
  obtain ⟨hp, hl, rfl⟩ := Ram.child_eq_table_iff.1 hchild
  exact (hforest.proper hroot hreach i).table hp hl

theorem read_of_child_absent (hforest : Forest mem roots held) {root : Frame}
    (hroot : root ∈ roots) {level : Level} {path : List Index} {frame : Frame}
    (hreach : mem.ram.Reach root level path frame) {i : Index}
    (hchild : mem.ram.child level ⟨frame, i⟩ = .absent) :
    mem.read frame i = .empty := by
  rw [Ram.child_eq_absent_iff] at hchild
  exact (hforest.proper hroot hreach i).absent hchild

/-- The trees are still there after a change that keeps the links of their
nodes, whatever it does elsewhere. -/
theorem transfer (hforest : Forest mem roots held) (hvalid : mem'.pool.Valid)
    (hregion : mem.pool.SameRegion mem'.pool)
    (hchild : ∀ {root level path frame}, root ∈ roots →
      mem.ram.Reach root level path frame → ∀ i node,
        mem'.ram.child level ⟨frame, i⟩ = .table node ↔
          mem.ram.child level ⟨frame, i⟩ = .table node)
    (hproper : ∀ {root level path frame}, root ∈ roots →
      mem.ram.Reach root level path frame →
      ∀ i, (mem'.read frame i).Proper level)
    (hallocated : ∀ frame, frame ∈ mem'.pool.allocated ↔
      frame ∈ held' ∨ ∃ root ∈ roots, mem.ram.Owns root frame)
    (hapart : ∀ {root frame}, root ∈ roots → mem.ram.Owns root frame →
      frame ∉ held') : Forest mem' roots held' := by
  have hreach : ∀ {root level path frame}, root ∈ roots →
      (mem'.ram.Reach root level path frame ↔
        mem.ram.Reach root level path frame) :=
    fun hroot => Ram.Reach.congr (hchild hroot)
  have howns : ∀ {root frame}, root ∈ roots →
      (mem'.ram.Owns root frame ↔ mem.ram.Owns root frame) :=
    fun hroot => exists_congr fun _ => exists_congr fun _ => hreach hroot
  refine ⟨hvalid, hregion.below hforest.low, hforest.nodup, ?_, ?_, ?_, ?_⟩
  · intro root root' level level' path path' frame hroot hroot' h h'
    exact hforest.unique hroot hroot' ((hreach hroot).1 h)
      ((hreach hroot').1 h')
  · intro frame
    rw [hallocated]
    exact or_congr_right (exists_congr fun root => and_congr_right fun hroot =>
      (howns hroot).symm)
  · intro root frame hroot h
    exact hapart hroot ((howns hroot).1 h)
  · intro root level path frame hroot h
    exact hproper hroot ((hreach hroot).1 h)

/-- A change that keeps the entries of all nodes keeps the leaves. -/
theorem sameLeaves_of_child
    (hchild : ∀ {root level path frame}, root ∈ roots →
      mem.ram.Reach root level path frame → ∀ i,
        mem'.ram.child level ⟨frame, i⟩ = mem.ram.child level ⟨frame, i⟩) :
    Ram.SameLeaves roots mem.ram mem'.ram := by
  intro root hroot va level frame e
  have hreach : mem'.ram.Reach root level (level.pathTo va) frame ↔
      mem.ram.Reach root level (level.pathTo va) frame :=
    Ram.Reach.congr_child (hchild hroot)
  constructor
  · intro h
    have hold := hreach.1 h.reach
    exact ⟨hold, (hchild hroot hold _).symm.trans h.child⟩
  · intro h
    exact ⟨hreach.2 h.reach, (hchild hroot h.reach _).trans h.child⟩

theorem of_read_eq (hforest : Forest mem roots held) (hvalid : mem'.pool.Valid)
    (hregion : mem.pool.SameRegion mem'.pool)
    (hread : ∀ {root frame}, root ∈ roots → mem.ram.Owns root frame →
      ∀ i, mem'.read frame i = mem.read frame i)
    (hallocated : ∀ frame, frame ∈ mem'.pool.allocated ↔
      frame ∈ held' ∨ ∃ root ∈ roots, mem.ram.Owns root frame)
    (hapart : ∀ {root frame}, root ∈ roots → mem.ram.Owns root frame →
      frame ∉ held') :
    Forest mem' roots held' ∧ Ram.SameLeaves roots mem.ram mem'.ram := by
  have hchild : ∀ {root level path frame}, root ∈ roots →
      mem.ram.Reach root level path frame → ∀ i,
        mem'.ram.child level ⟨frame, i⟩ = mem.ram.child level ⟨frame, i⟩ :=
    fun hroot hreach i => Ram.child_congr (hread hroot ⟨_, _, hreach⟩ i)
  refine ⟨?_, sameLeaves_of_child hchild⟩
  refine hforest.transfer hvalid hregion ?_ ?_ hallocated hapart
  · intro root level path frame hroot hreach i node
    rw [hchild hroot hreach i]
  · intro root level path frame hroot hreach i
    rw [hread hroot ⟨_, _, hreach⟩ i]
    exact hforest.proper hroot hreach i

end Forest

/-- What making room for a node does: `node` leaves the pool, is emptied, and
nothing else changes. -/
structure Memory.Fetched (mem : Memory) (node : Frame) (mem' : Memory) :
    Prop where
  took : mem.pool.Took node mem'.pool
  read_self : ∀ i, mem'.read node i = .empty
  read_other :
    ∀ {frame}, frame ≠ node → ∀ i, mem'.read frame i = mem.read frame i

theorem Memory.fetched_of_newNode? {mem mem' : Memory} {node : Frame}
    (hvalid : mem.pool.Valid) (hnew : mem.newNode? = some (node, mem')) :
    mem.Fetched node mem' := by
  unfold newNode? at hnew
  split at hnew
  · next frame pool htaken =>
      cases hnew
      refine ⟨FramePool.took_of_take? hvalid htaken, ?_, ?_⟩
      · intro i
        rw [Memory.read_zero]
        simp
      · intro frame hne i
        rw [Memory.read_zero]
        simp only [hne.symm, ↓reduceIte]
        rfl
  · cases hnew

namespace Forest

variable {mem mem' : Memory} {roots : List Frame} {held : Finset Frame}
  {node : Frame}

theorem ne_of_fresh (hforest : Forest mem roots held)
    (hfresh : node ∉ mem.pool.allocated) {root frame : Frame}
    (hroot : root ∈ roots) (howns : mem.ram.Owns root frame) :
    frame ≠ node := by
  rintro rfl
  exact hfresh ((hforest.allocated frame).2 (Or.inr ⟨root, hroot, howns⟩))

theorem child_fetch (hforest : Forest mem roots held)
    (hfetched : mem.Fetched node mem') {root : Frame} (hroot : root ∈ roots)
    {level : Level} {path : List Index} {frame : Frame}
    (hreach : mem.ram.Reach root level path frame) (i : Index) :
    mem'.ram.child level ⟨frame, i⟩ = mem.ram.child level ⟨frame, i⟩ := by
  have hne := hforest.ne_of_fresh hfetched.took.fresh hroot ⟨_, _, hreach⟩
  exact Ram.child_congr (hfetched.read_other hne i)

/-- A frame that leaves the pool is held by whoever took it. -/
theorem take (hforest : Forest mem roots held)
    (htook : mem.pool.Took node mem'.pool) (hread : ∀ {frame}, frame ≠ node →
      ∀ i, mem'.read frame i = mem.read frame i) :
    Forest mem' roots (insert node held) ∧
      Ram.SameLeaves roots mem.ram mem'.ram := by
  refine hforest.of_read_eq htook.valid htook.region ?_ ?_ ?_
  · intro root frame hroot howns
    exact hread (hforest.ne_of_fresh htook.fresh hroot howns)
  · intro frame
    rw [htook.allocated_eq, Finset.mem_insert, Finset.mem_insert,
      hforest.allocated, or_assoc]
  · intro root frame hroot howns
    rw [Finset.mem_insert, not_or]
    exact ⟨hforest.ne_of_fresh htook.fresh hroot howns,
      hforest.apart hroot howns⟩

/-- A frame that is held can be given back to the pool. -/
theorem free (hforest : Forest mem roots held) (hheld : node ∈ held)
    (hfreed : mem.pool.Freed node mem'.pool) (hram : mem'.ram = mem.ram) :
    Forest mem' roots (held.erase node) ∧
      Ram.SameLeaves roots mem.ram mem'.ram := by
  have hne : ∀ {root frame}, root ∈ roots → mem.ram.Owns root frame →
      frame ≠ node := by
    rintro root frame hroot howns rfl
    exact hforest.apart hroot howns hheld
  refine hforest.of_read_eq hfreed.valid hfreed.region ?_ ?_ ?_
  · intro root frame _ _ i
    simp only [Memory.read, hram]
  · intro frame
    rw [hfreed.allocated_eq, Finset.mem_erase, Finset.mem_erase,
      hforest.allocated]
    constructor
    · intro howned
      rcases howned with ⟨hother, hold | hold⟩
      · exact Or.inl ⟨hother, hold⟩
      · exact Or.inr hold
    · intro howned
      rcases howned with ⟨hother, hold⟩ | ⟨root, hroot, howns⟩
      · exact ⟨hother, Or.inl hold⟩
      · exact ⟨hne hroot howns, Or.inr ⟨root, hroot, howns⟩⟩
  · intro root frame hroot howns hmem
    exact hforest.apart hroot howns (Finset.mem_of_mem_erase hmem)

theorem giveBack (hforest : Forest mem roots held) (hheld : node ∈ held) :
    Forest (mem.giveBack node).state roots (held.erase node) ∧
      Ram.SameLeaves roots mem.ram (mem.giveBack node).state.ram ∧
        (mem.giveBack node).events = #[] := by
  have hallocated := (hforest.allocated node).2 (Or.inl hheld)
  obtain ⟨hfreed, hquiet⟩ := FramePool.freed_giveBack hforest.valid hallocated
  have hkept : Forest (mem.giveBack node).state roots (held.erase node) ∧
      Ram.SameLeaves roots mem.ram (mem.giveBack node).state.ram :=
    hforest.free hheld hfreed (mem.giveBack_ram node)
  exact ⟨hkept.1, hkept.2, hquiet⟩

/-- What is done to frames that hold no node is of no concern to the trees. -/
theorem of_pool_eq (hforest : Forest mem roots held)
    (hpool : mem'.pool = mem.pool) (hread : ∀ {frame}, frame ∉ held →
      ∀ i, mem'.read frame i = mem.read frame i) :
    Forest mem' roots held := by
  refine (hforest.of_read_eq ?_ ?_ ?_ ?_ hforest.apart).1
  · rw [hpool]
    exact hforest.valid
  · rw [hpool]
    exact .refl _
  · intro root frame hroot howns
    exact hread (hforest.apart hroot howns)
  · rw [hpool]
    exact hforest.allocated

/-- A pool whose frames all belong to others. -/
theorem bare (hvalid : mem.pool.Valid) (hlow : mem.pool.Below (2 ^ 52)) :
    Forest mem [] mem.pool.allocated := by
  refine ⟨hvalid, hlow, List.nodup_nil, ?_, ?_, ?_, ?_⟩
  · intro _ _ _ _ _ _ _ hroot
    cases hroot
  · intro frame
    simp
  · intro _ _ hroot
    cases hroot
  · intro _ _ _ _ hroot
    cases hroot

/-- The account of frames once a frame that was held became a node. -/
theorem account_of_added (hforest : Forest mem roots held) {roots' : List Frame}
    {ram' : Ram} (hheld : node ∈ held)
    (hnodes : ∀ frame, (∃ root ∈ roots', ram'.Owns root frame) ↔
      (∃ root ∈ roots, mem.ram.Owns root frame) ∨ frame = node) :
    (∀ frame, frame ∈ mem.pool.allocated ↔
        frame ∈ held.erase node ∨ ∃ root ∈ roots', ram'.Owns root frame) ∧
      ∀ {root frame}, root ∈ roots' → ram'.Owns root frame →
        frame ∉ held.erase node := by
  constructor
  · intro frame
    rw [hforest.allocated, hnodes, Finset.mem_erase]
    by_cases heq : frame = node
    · subst heq
      simp [hheld]
    · simp [heq]
  · intro root frame hroot howns hmem
    rw [Finset.mem_erase] at hmem
    rcases (hnodes frame).1 ⟨root, hroot, howns⟩ with
      ⟨root', hroot', hold⟩ | heq
    · exact hforest.apart hroot' hold hmem.2
    · exact hmem.1 heq

/-- A frame that is held and empty can become the root of a further tree. -/
theorem plant (hforest : Forest mem roots held) (hheld : node ∈ held)
    (hempty : ∀ j, mem.read node j = .empty) :
    Forest mem (roots ++ [node]) (held.erase node) := by
  have hbehind : ∀ i other, mem.ram.child .pml4 ⟨node, i⟩ ≠ .table other := by
    intro i other
    rw [Memory.child_of_read_empty (hempty i)]
    exact Child.noConfusion
  have honly : ∀ {level path frame}, mem.ram.Reach node level path frame →
      level = .pml4 ∧ path = [] ∧ frame = node := by
    intro level path frame h
    have hself : mem.ram.Reach node .pml4 [] node := .root
    obtain rfl := hself.eq_of_suffix hbehind h List.nil_suffix
    exact ⟨hself.level_eq h, rfl, hself.frame_eq h⟩
  have hother : ∀ {root level path}, root ∈ roots →
      ¬mem.ram.Reach root level path node :=
    fun hroot h => hforest.apart hroot ⟨_, _, h⟩ hheld
  have hmem : ∀ {root}, root ∈ roots ++ [node] →
      root ∈ roots ∨ root = node := by
    intro root h
    rwa [List.mem_append, List.mem_singleton] at h
  have hnodes : ∀ frame, (∃ root ∈ roots ++ [node], mem.ram.Owns root frame) ↔
      (∃ root ∈ roots, mem.ram.Owns root frame) ∨ frame = node := by
    intro frame
    constructor
    · rintro ⟨root, hroot, level, path, h⟩
      rcases hmem hroot with hold | rfl
      · exact Or.inl ⟨root, hold, level, path, h⟩
      · exact Or.inr (honly h).2.2
    · intro howned
      rcases howned with ⟨root, hroot, howns⟩ | rfl
      · exact ⟨root, List.mem_append_left _ hroot, howns⟩
      · exact ⟨frame, by simp, _, _, .root⟩
  obtain ⟨hallocated, hapart⟩ := hforest.account_of_added hheld hnodes
  refine ⟨hforest.valid, hforest.low, ?_, ?_, hallocated, hapart, ?_⟩
  · rw [List.nodup_append]
    refine ⟨hforest.nodup, List.nodup_singleton node, ?_⟩
    rintro root hroot other hmem' rfl
    rw [List.mem_singleton] at hmem'
    subst hmem'
    exact hother hroot .root
  · intro root root' level level' path path' frame hroot hroot' h h'
    rcases hmem hroot with hold | rfl
    · rcases hmem hroot' with hold' | rfl
      · exact hforest.unique hold hold' h h'
      · obtain ⟨-, -, rfl⟩ := honly h'
        exact absurd h (hother hold)
    · obtain ⟨-, rfl, rfl⟩ := honly h
      rcases hmem hroot' with hold' | rfl
      · exact absurd h' (hother hold')
      · exact ⟨rfl, (honly h').2.1⟩
  · intro root level path frame hroot h i
    rcases hmem hroot with hroot | rfl
    · exact hforest.proper hroot h i
    · obtain ⟨rfl, -, rfl⟩ := honly h
      rw [hempty]
      exact Entry.proper_empty _

/-- The operation kept the trees and every leaf, and no frame that it handed
back was refused. -/
structure Kept {α : Type} (mem : Memory) (roots : List Frame)
    (held : Finset Frame) (done : Reported Memory α) : Prop where
  forest : Forest done.state roots held
  leaves : Ram.SameLeaves roots mem.ram done.state.ram
  accepted : AllAccepted done.events

end Forest

namespace AddressSpace

variable {mem : Memory} {roots : List Frame} {held : Finset Frame}

theorem create_of_starved (hnew : mem.newNode? = none) :
    create mem = .quiet (.error (.outOfMemory .pml4)) mem := by
  simp [create, hnew]

theorem create_of_fetched {root : Frame} {mem' : Memory}
    (hnew : mem.newNode? = some (root, mem')) :
    create mem = ⟨.ok ⟨root⟩, mem', #[.rootAdded root]⟩ := by
  simp [create, hnew]

/-- A space that cannot be made changes nothing. -/
theorem create_of_error {reason : MapError}
    (hmade : (create mem).value = .error reason) :
    create mem = .quiet (.error reason) mem := by
  cases hnew : mem.newNode? with
  | none =>
      rw [create_of_starved hnew] at hmade ⊢
      cases hmade
      rfl
  | some taken =>
      rw [create_of_fetched hnew] at hmade
      cases hmade

/-- A space that is made has its root in a node that was made for it. -/
theorem fetched_of_create (hvalid : mem.pool.Valid) {space : AddressSpace}
    (hmade : (create mem).value = .ok space) :
    mem.Fetched space.root (create mem).state ∧
      (create mem).events = #[.rootAdded space.root] := by
  cases hnew : mem.newNode? with
  | none =>
      rw [create_of_starved hnew] at hmade
      cases hmade
  | some taken =>
      rcases taken with ⟨root, mem'⟩
      rw [create_of_fetched hnew] at hmade ⊢
      cases hmade
      exact ⟨Memory.fetched_of_newNode? hvalid hnew, rfl⟩

/-- A new space adds its root to the trees. -/
theorem forest_create (hforest : Forest mem roots held) {space : AddressSpace}
    (hmade : (create mem).value = .ok space) :
    Forest (create mem).state (roots ++ [space.root]) held ∧
      Ram.SameLeaves roots mem.ram (create mem).state.ram ∧
        AllAccepted (create mem).events := by
  obtain ⟨hfetched, hevents⟩ := fetched_of_create hforest.valid hmade
  have hfresh : space.root ∉ held := fun hmem =>
    hfetched.took.fresh ((hforest.allocated space.root).2 (Or.inl hmem))
  obtain ⟨hforest', hleaves⟩ := hforest.take hfetched.took hfetched.read_other
  have hplanted := hforest'.plant (Finset.mem_insert_self space.root held)
    hfetched.read_self
  rw [Finset.erase_insert hfresh] at hplanted
  refine ⟨hplanted, hleaves, ?_⟩
  rw [hevents]
  exact .singleton fun _ => nofun

/-- A new space maps nothing. -/
theorem lookup_create (hvalid : mem.pool.Valid) {space : AddressSpace}
    (hmade : (create mem).value = .ok space) (va : VirtAddr) :
    space.lookup (create mem).state.ram va = none := by
  have hfetched := (fetched_of_create hvalid hmade).1
  exact lookup_of_absent .root
    (Memory.child_of_read_empty (hfetched.read_self _))

end AddressSpace

end FourLevelPaging
