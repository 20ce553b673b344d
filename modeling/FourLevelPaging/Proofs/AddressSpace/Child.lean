/-
The step that every operation on a tree goes through.  What an entry leads to is
told by its present bit, its huge bit and the level alone, whatever else memory
holds; nothing has to be known about the node it stands in.  Asking for missing
nodes changes at most the entry itself and the frame that is taken for it.
-/
import FourLevelPaging.Spaces
import FourLevelPaging.Proofs.Tree.Missing
import FourLevelPaging.Proofs.Tree.Open

namespace FourLevelPaging

namespace Level

/-- A present entry of this level ends the walk: always in the nodes of the last
level, by its huge bit in those of the two levels above, and never in a root. -/
def EndsAt (level : Level) (e : Entry) : Prop :=
  level = .pt ∨ (level = .pdpt ∨ level = .pd) ∧ e.has .huge = true

theorem isLeaf_iff_endsAt {level : Level} {e : Entry} :
    level.isLeaf e = true ↔ level.EndsAt e := by
  cases level <;> simp [isLeaf, EndsAt]

/-- `found` is what the entry `e` of a node of this level leads to. -/
structure Finds (level : Level) (e : Entry) (found : Child) : Prop where
  leaf_iff : ∀ e', found = .leaf e' ↔ e' = e ∧ e.present = true ∧ level.EndsAt e
  table_iff : ∀ node,
    found = .table node ↔
      node = e.tableFrame ∧ e.present = true ∧ ¬level.EndsAt e
  absent_iff : found = .absent ↔ e.present = false

theorem finds_child (level : Level) (ram : Ram) (cell : Cell) :
    level.Finds (ram.read cell.frame cell.index) (ram.child level cell) := by
  refine ⟨fun e => ?_, fun node => ?_, Ram.child_eq_absent_iff⟩
  · rw [Ram.child_eq_leaf_iff, ← isLeaf_iff_endsAt]
    constructor
    · rintro ⟨rfl, hleaf⟩
      exact ⟨rfl, hleaf⟩
    · rintro ⟨rfl, hleaf⟩
      exact ⟨rfl, hleaf⟩
  · rw [Ram.child_eq_table_iff, ← isLeaf_iff_endsAt, Bool.not_eq_true]
    constructor
    · rintro ⟨hpresent, htable, rfl⟩
      exact ⟨rfl, hpresent, htable⟩
    · rintro ⟨rfl, hpresent, htable⟩
      exact ⟨hpresent, htable, rfl⟩

end Level

namespace Memory

/-- `node` was taken from the pool, emptied and linked at `cell`: by its address
and the given flags, present and not huge, and by no other bit. -/
structure Grew (mem : Memory) (cell : Cell) (flags : Flags) (node : Frame)
    (mem' : Memory) : Prop where
  taken : mem.pool.take? = some (node, mem'.pool)
  took : mem.pool.Took node mem'.pool
  apart : node ≠ cell.frame
  emptied : ∀ i, mem'.read node i = .empty
  link_base : (mem'.read cell.frame cell.index).base = node.base
  link_flags : (mem'.read cell.frame cell.index).flags =
    (flags.put .huge false).sanitized.put .present true
  /-- Nothing else is written. -/
  read_other : ∀ {frame i}, frame ≠ node → cell ≠ ⟨frame, i⟩ →
    mem'.read frame i = mem.read frame i

variable {mem mem' : Memory} {cell : Cell} {flags : Flags} {node : Frame}

theorem take?_of_newNode? (hnew : mem.newNode? = some (node, mem')) :
    mem.pool.take? = some (node, mem'.pool) := by
  unfold newNode? at hnew
  split at hnew
  · next htaken =>
      cases hnew
      exact htaken
  · cases hnew

/-- A frame that is outside the pool or handed out is not handed out now. -/
theorem Fetched.ne (hfetched : mem.Fetched node mem') (hvalid : mem.pool.Valid)
    {frame : Frame} (hkept : mem.pool.contains frame.base = false ∨
      frame ∈ mem.pool.allocated) : node ≠ frame := by
  rintro rfl
  rcases hkept with houtside | hout
  · obtain ⟨i, hi, rfl⟩ := hfetched.took.inside
    rw [FramePool.contains_frameAt hvalid hi] at houtside
    cases houtside
  · exact hfetched.took.fresh hout

theorem grew_of_newNode? (hvalid : mem.pool.Valid)
    (hlow : mem.pool.Below (2 ^ 52))
    (hkept : mem.pool.contains cell.frame.base = false ∨
      cell.frame ∈ mem.pool.allocated)
    (hnew : mem.newNode? = some (node, mem')) :
    mem.Grew cell flags node
      (mem'.write cell.frame cell.index (.table node flags)) := by
  have hfetched := fetched_of_newNode? hvalid hnew
  have hapart := hfetched.ne hvalid hkept
  have htaken := take?_of_newNode? hnew
  have hlink := mem'.read_write_self cell.frame cell.index (.table node flags)
  refine ⟨htaken, hfetched.took, hapart, fun i => ?_, ?_, ?_, ?_⟩
  · rw [read_write, if_neg fun h => hapart h.1.symm]
    exact hfetched.read_self i
  · rw [hlink, ← Entry.base_tableFrame,
      Entry.tableFrame_table (hfetched.took.low hlow)]
  · rw [hlink, Entry.table, Entry.flags_leaf]
  · intro frame i hne hcell
    rw [read_write, if_neg fun h => hcell (congrArg₂ Cell.mk h.1 h.2)]
    exact hfetched.read_other hne i

/-- A link is opened by the request that made it. -/
theorem opened_of_linked
    (h : mem.read cell.frame cell.index = .table node flags) :
    mem.opened cell flags = mem := by
  have huser : (mem.read cell.frame cell.index).has .user = flags.has .user :=
    h ▸ Entry.has_table (by decide) (by decide) node flags
  simp [opened, huser]

end Memory

namespace Spaces

variable {spaces : Spaces} {level : Level} {cell : Cell} {flags : Flags}

/-- Following one entry is exact on any contents of memory, and changes no more
than its answer tells: without creation nothing, with creation the user bit of a
link that was there or one entry and one frame for a node that was not. -/
theorem child_step (hpool : spaces.memory.pool.Reachable)
    (hlow : spaces.memory.pool.Below (2 ^ 52))
    (hkept : spaces.memory.pool.contains cell.frame.base = false ∨
      cell.frame ∈ spaces.memory.pool.allocated) :
    ∃ found, spaces.call (.child level cell) = .quiet (.child found) spaces ∧
      level.Finds (spaces.memory.read cell.frame cell.index) found ∧
      ((∃ e, found = .leaf e) ∨ found = .absent ∧ level = .pt →
        spaces.call (.childOrCreate level cell flags) =
          .quiet (.child found) spaces) ∧
      (∀ node, found = .table node → ∃ mem',
        spaces.call (.childOrCreate level cell flags) =
            .quiet (.child found) { spaces with memory := mem' } ∧
          mem'.pool = spaces.memory.pool ∧
          ∀ frame i, mem'.read frame i =
            if flags.has .user = true ∧ cell = ⟨frame, i⟩ then
              (spaces.memory.read frame i).put .user true
            else spaces.memory.read frame i) ∧
      (∀ below, found = .absent → level.next = some below →
        spaces.memory.pool.freeCount = 0 ∧
            spaces.call (.childOrCreate level cell flags) =
              .quiet (.refused (.outOfMemory below)) spaces ∨
          ∃ node mem',
            spaces.call (.childOrCreate level cell flags) =
                ⟨.child (.created node), { spaces with memory := mem' },
                  #[.nodeAdded below node]⟩ ∧
              spaces.memory.Grew cell flags node mem' ∧
              call { spaces with memory := mem' }
                  (.childOrCreate level cell flags) =
                .quiet (.child (.table node))
                  { spaces with memory := mem' }) := by
  have hvalid := hpool.valid
  refine ⟨spaces.memory.ram.child level cell, rfl, level.finds_child _ cell,
    ?_, ?_, ?_⟩
  · rintro (⟨e, hleaf⟩ | ⟨habsent, rfl⟩)
    · rw [call, Memory.childOrCreate_of_leaf hleaf, hleaf]
      rfl
    · rw [call, Memory.childOrCreate_of_last rfl habsent, habsent]
      rfl
  · intro node htable
    refine ⟨spaces.memory.opened cell flags, ?_,
      spaces.memory.opened_pool cell flags,
      spaces.memory.read_opened cell flags⟩
    rw [call, Memory.childOrCreate_of_table htable, htable]
    rfl
  · intro below habsent hnext
    cases hnew : spaces.memory.newNode? with
    | none =>
        left
        refine ⟨(Memory.newNode?_eq_none_iff hvalid).1 hnew, ?_⟩
        rw [call, Memory.childOrCreate_of_starved hnext habsent hnew]
        rfl
    | some taken =>
        right
        rcases taken with ⟨node, mem'⟩
        have hgrew : spaces.memory.Grew cell flags node
            (mem'.write cell.frame cell.index (.table node flags)) :=
          Memory.grew_of_newNode? hvalid hlow hkept hnew
        have hlink :=
          mem'.read_write_self cell.frame cell.index (.table node flags)
        have hchild :=
          Memory.child_of_read_table hnext (hgrew.took.low hlow) hlink
        refine ⟨node, _, ?_, hgrew, ?_⟩
        · rw [call, Memory.childOrCreate_of_created hnext habsent hnew]
          rfl
        · rw [call, Memory.childOrCreate_of_table hchild,
            Memory.opened_of_linked hlink]
          rfl

/-- Memory full of absent entries that hold stray bits, and no space in it. -/
def littered : Spaces :=
  ⟨⟨Ram.ofBackground fun _ _ => ⟨0xCCCCCCCCCCCCCCCC⟩, FramePool.small⟩, []⟩

/-- Of the stray bits in the entry and in the flags none is left in the link. -/
theorem child_step_littered :
    littered.memory.pool.Reachable ∧ littered.memory.pool.Below (2 ^ 52) ∧
      littered.memory.pool.contains (.containing ⟨0x5000⟩ : Frame).base =
        false ∧
      ∃ mem', littered.call (.childOrCreate .pdpt ⟨.containing ⟨0x5000⟩, 7⟩
            ⟨0xFFFFFFFFFFFFFFFF⟩) =
          ⟨.child (.created (.containing ⟨0x100000⟩)), ⟨mem', []⟩,
            #[.nodeAdded .pd (.containing ⟨0x100000⟩)]⟩ ∧
        (mem'.read (.containing ⟨0x5000⟩) 7).base = ⟨0x100000⟩ ∧
        (mem'.read (.containing ⟨0x5000⟩) 7).flags = ⟨0xFFF0000000000F7F⟩ := by
  have hpool : littered.memory.pool.Reachable :=
    FramePool.reachable_of_ofRegion FramePool.ofRegion_small
  have houtside :
      littered.memory.pool.contains (.containing ⟨0x5000⟩ : Frame).base =
        false := by
    decide +kernel
  obtain ⟨found, -, hfinds, -, -, hcreate⟩ :=
    @child_step littered .pdpt ⟨.containing ⟨0x5000⟩, 7⟩ ⟨0xFFFFFFFFFFFFFFFF⟩
      hpool FramePool.below_small (Or.inl houtside)
  have habsent : found = .absent := hfinds.absent_iff.2 (by decide +kernel)
  refine ⟨hpool, FramePool.below_small, houtside, ?_⟩
  rcases hcreate .pd habsent rfl with
    ⟨hempty, -⟩ | ⟨node, mem', hcall, hgrew, -⟩
  · cases hempty
  · have htake : littered.memory.pool.take? =
        some (.containing ⟨0x100000⟩, { FramePool.small with next := 1 }) := by
      decide +kernel
    obtain ⟨rfl, -⟩ :=
      Prod.mk.inj (Option.some.inj (htake.symm.trans hgrew.taken))
    refine ⟨mem', hcall, hgrew.link_base.trans (by decide +kernel), ?_⟩
    exact hgrew.link_flags.trans (by decide +kernel)

end Spaces

end FourLevelPaging
