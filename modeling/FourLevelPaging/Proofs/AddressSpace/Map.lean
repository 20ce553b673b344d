/-
Mapping one page.  A request either fails, and then the memory is restored but
for links that stay open to user code, or it writes one leaf at the end of the
way of the address, and then exactly the addresses of the page lead elsewhere.
-/
import FourLevelPaging.Proofs.Tree.RollBack

namespace FourLevelPaging

/-- The leaf that a request to map a page writes. -/
def PageSize.leaf (size : PageSize) (pa : PhysAddr) (flags : Flags) : Entry :=
  .leaf (pa.page .fourK) (flags.put .huge size.isHuge)

/-- `after` takes the page of the given size at `va` to the memory from `pa` on,
less the address bits that an entry has no room for, and every other address to
where `before` takes it.  What `mapped` says was replaced is what mapped the
page before. -/
structure Installs (before after : VirtAddr → Option Target) (va : VirtAddr)
    (pa : PhysAddr) (size : PageSize) (flags : Flags) (mapped : Mapped) :
    Prop where
  size_eq : mapped.size = size
  inside :
    ∀ a : VirtAddr, va.toNat ≤ a.toNat → a.toNat < va.toNat + size.bytes →
      after a = some
        { phys := .ofNat (pa.toNat % 2 ^ 52 + (a.toNat - va.toNat))
          size
          flags := (flags.sanitized.put .present true).put .huge size.isHuge }
  outside :
    ∀ a : VirtAddr, ¬(va.toNat ≤ a.toNat ∧ a.toNat < va.toNat + size.bytes) →
      after a = before a
  replaced : mapped.replaced.map (fun e => (e.base, size, e.flags)) =
    (before va).map fun target => (target.phys, target.size, target.flags)

/-- The size of the page that a request of no given size asks for: the largest
that both addresses are aligned to if the flags ask for a huge page, and 4 KiB
otherwise. -/
def PageSize.Chosen (size : PageSize) (va : VirtAddr) (pa : PhysAddr)
    (flags : Flags) : Prop :=
  if flags.has .huge then
    (va.isAligned size = true ∧ pa.isAligned size = true) ∧
      ∀ other : PageSize, va.isAligned other = true →
        pa.isAligned other = true →
        other.bytes ≤ size.bytes
  else size = .fourK

/-- The links that a request to map a page leaves open to user code. -/
def AddressSpace.linksToOpen (space : AddressSpace) (ram : Ram) (va : VirtAddr)
    (pa : PhysAddr) (size : PageSize) (flags : Flags) : List Cell :=
  if va.isCanonical && (va.isAligned size && pa.isAligned size) then
    ram.linksToOpen va flags size.above space.root
  else []

section Leaf

variable {size : PageSize} {pa : PhysAddr} {flags : Flags}

theorem Level.isLeaf_level (size : PageSize) (e : Entry) :
    size.level.isLeaf e = (!size.isHuge || e.has .huge) := by
  cases size <;> rfl

theorem PageSize.isLeaf_leaf (size : PageSize) (pa : PhysAddr) (flags : Flags) :
    size.level.isLeaf (size.leaf pa flags) = true := by
  rw [Level.isLeaf_level, leaf, Entry.has_leaf_of_ne _ _ (by decide),
    Flags.has_put_self]
  cases size <;> rfl

theorem PageSize.proper_leaf (haligned : pa.isAligned size = true)
    (flags : Flags) :
    (size.leaf pa flags).Proper size.level := by
  have hp : (size.leaf pa flags).present = true := Entry.present_leaf _ _
  have hl := size.isLeaf_leaf pa flags
  refine ⟨fun h => ?_, fun _ h => ?_, fun size' _ _ h => ?_⟩
  · rw [hp] at h
    cases h
  · rw [hl] at h
    cases h
  · rw [leafSize_level, Option.some.injEq] at h
    rw [← h]
    exact Entry.isAligned_base_leaf haligned _

/-- Where the pages of a leaf at a whole page lead. -/
theorem Entry.phys_target {e : Entry} (haligned : e.base.isAligned size = true)
    {va : VirtAddr} (hva : va.isAligned size = true) {a : VirtAddr}
    (hle : va.toNat ≤ a.toNat) (hlt : a.toNat < va.toNat + size.bytes) :
    (e.target size a).phys = .ofNat (e.base.toNat + (a.toNat - va.toNat)) := by
  have hoffset : (a.offset size).val = a.toNat - va.toNat := by
    change a.toNat % size.bytes = a.toNat - va.toNat
    have hmod := Address.isAligned_iff.1 hva
    have hsum : a.toNat = va.toNat + (a.toNat - va.toNat) := by omega
    rw [hsum, Nat.add_mod, hmod, Nat.zero_add, Nat.mod_mod,
      Nat.add_sub_cancel_left]
    exact Nat.mod_eq_of_lt (by omega)
  change (e.base.page size).join (a.offset size) = _
  rw [Page.join, Address.toNat_base_page haligned, hoffset]

/-- The target of an address in a page that was mapped. -/
theorem PageSize.target_leaf {va : VirtAddr} (hva : va.isAligned size = true)
    (hpa : pa.isAligned size = true) {a : VirtAddr} (hle : va.toNat ≤ a.toNat)
    (hlt : a.toNat < va.toNat + size.bytes) :
    (size.leaf pa flags).target size a =
      { phys := .ofNat (pa.toNat % 2 ^ 52 + (a.toNat - va.toNat))
        size
        flags :=
          (flags.sanitized.put .present true).put .huge size.isHuge } := by
  have hphys := Entry.phys_target (Entry.isAligned_base_leaf hpa
    (flags.put .huge size.isHuge)) hva hle hlt
  rw [Entry.toNat_base_leaf_page hpa] at hphys
  have hflags : (size.leaf pa flags).flags =
      (flags.sanitized.put .present true).put .huge size.isHuge := by
    rw [leaf, Entry.flags_leaf, Flags.sanitized_put,
      Flags.put_comm _ (by decide)]
  rw [← hphys, ← hflags]
  rfl

end Leaf

theorem PageSize.chosen_select {va : VirtAddr} {pa : PhysAddr} {flags : Flags}
    (hva : va.isAligned (select va pa (flags.has .huge)) = true)
    (hpa : pa.isAligned (select va pa (flags.has .huge)) = true) :
    (select va pa (flags.has .huge)).Chosen va pa flags := by
  unfold Chosen
  cases hhuge : flags.has .huge with
  | false => rfl
  | true =>
      rw [hhuge] at hva hpa
      refine ⟨⟨hva, hpa⟩, ?_⟩
      intro other hother hother'
      unfold select
      split
      · exact other.bytes_le_oneG
      · next hgiga =>
          split
          · next hmega =>
              cases other
              · decide
              · exact Nat.le_refl _
              · simp [hother, hother'] at hgiga
          · next hmega =>
              cases other
              · exact Nat.le_refl _
              · simp [hother, hother'] at hmega
              · simp [hother, hother'] at hgiga

namespace Memory

variable {mem : Memory} {frame : Frame} {va : VirtAddr} {size : PageSize}

theorem place_of_table {node : Frame} (pa : PhysAddr) (flags : Flags)
    (hchild : mem.ram.child size.level ⟨frame, size.level.index va⟩ =
      .table node) :
    mem.place frame va pa size flags =
      .quiet (.error (.conflict va size.level)) mem := by
  obtain ⟨hp, hl, -⟩ := Ram.child_eq_table_iff.1 hchild
  change (mem.read frame (size.level.index va)).present = true at hp
  change size.level.isLeaf (mem.read frame (size.level.index va)) = false at hl
  rw [Level.isLeaf_level, Bool.or_eq_false_iff, Bool.not_eq_false'] at hl
  simp [place, hp, hl.1, hl.2]

theorem place_of_not_table (pa : PhysAddr) (flags : Flags)
    (hchild : ∀ node, mem.ram.child size.level ⟨frame, size.level.index va⟩ ≠
      .table node) :
    mem.place frame va pa size flags =
      ⟨.ok ⟨size, if (mem.read frame (size.level.index va)).present then
          some (mem.read frame (size.level.index va)) else none⟩,
        mem.write frame (size.level.index va) (size.leaf pa flags),
        #[.leafMapped va pa size]⟩ := by
  have hfree : ((mem.read frame (size.level.index va)).present && size.isHuge &&
      !(mem.read frame (size.level.index va)).has .huge) = false := by
    by_contra hconflict
    rw [Bool.not_eq_false, Bool.and_eq_true, Bool.and_eq_true,
      Bool.not_eq_true'] at hconflict
    rcases hconflict with ⟨⟨hp, hhuge⟩, hno⟩
    refine hchild _ (Ram.child_of_table hp ?_)
    change size.level.isLeaf (mem.read frame (size.level.index va)) = false
    rw [Level.isLeaf_level, hhuge, hno]
    rfl
  simp only [place, hfree]
  rfl

theorem child_write_leaf (mem : Memory) (frame : Frame) (i : Index)
    (size : PageSize) (pa : PhysAddr) (flags : Flags) :
    (mem.write frame i (size.leaf pa flags)).ram.child size.level ⟨frame, i⟩ =
      .leaf (size.leaf pa flags) :=
  Ram.child_eq_leaf_iff.2 ⟨mem.read_write_self frame i _,
    Entry.present_leaf _ _, size.isLeaf_leaf pa flags⟩

theorem child_write_leaf_ne_table (mem : Memory) (frame : Frame) (i : Index)
    (size : PageSize) (pa : PhysAddr) (flags : Flags) (node : Frame) :
    (mem.write frame i (size.leaf pa flags)).ram.child size.level ⟨frame, i⟩ ≠
      .table node := by
  rw [child_write_leaf]
  exact Child.noConfusion

end Memory

namespace AddressSpace

variable {space : AddressSpace} {mem : Memory} {va : VirtAddr} {pa : PhysAddr}
  {size : PageSize} {flags : Flags}

section Cases

variable {walk : Reported Memory (Except MapError Frame × List Added)}
  {frame : Frame} {reason : MapError}

theorem mapSized_of_not_canonical (pa : PhysAddr) (size : PageSize)
    (flags : Flags) (hcanonical : va.isCanonical = false) :
    space.mapSized mem va pa size flags =
      .quiet (.error (.nonCanonical va)) mem := by
  simp [mapSized, hcanonical]

theorem mapSized_of_unaligned (flags : Flags)
    (hcanonical : va.isCanonical = true)
    (haligned : (va.isAligned size && pa.isAligned size) = false) :
    space.mapSized mem va pa size flags =
      .quiet (.error (.unaligned va pa size)) mem := by
  simp [mapSized, hcanonical, haligned]

theorem mapSized_of_walk_error (hcanonical : va.isCanonical = true)
    (haligned : (va.isAligned size && pa.isAligned size) = true)
    (hwalk : mem.descend va (parentFlags flags) size.above space.root = walk)
    (herror : walk.value.1 = .error reason) :
    space.mapSized mem va pa size flags =
      ⟨.error reason, (walk.state.rollBack walk.value.2).state,
        walk.events ++ (walk.state.rollBack walk.value.2).events⟩ := by
  rcases walk with ⟨⟨answer, added⟩, state, events⟩
  simp only at herror
  subst herror
  simp [mapSized, install, hcanonical, haligned, hwalk]

theorem mapSized_of_conflict (hcanonical : va.isCanonical = true)
    (haligned : (va.isAligned size && pa.isAligned size) = true)
    (hwalk : mem.descend va (parentFlags flags) size.above space.root = walk)
    (hok : walk.value.1 = .ok frame) {node : Frame}
    (hchild : walk.state.ram.child size.level ⟨frame, size.level.index va⟩ =
      .table node) :
    space.mapSized mem va pa size flags =
      ⟨.error (.conflict va size.level),
        (walk.state.rollBack walk.value.2).state,
        walk.events ++ (walk.state.rollBack walk.value.2).events⟩ := by
  rcases walk with ⟨⟨answer, added⟩, state, events⟩
  simp only at hok hchild
  subst hok
  simp [mapSized, install, hcanonical, haligned, hwalk,
    Memory.place_of_table pa flags hchild, Outcome.quiet]

theorem mapSized_of_placed (hcanonical : va.isCanonical = true)
    (haligned : (va.isAligned size && pa.isAligned size) = true)
    (hwalk : mem.descend va (parentFlags flags) size.above space.root = walk)
    (hok : walk.value.1 = .ok frame) (hchild : ∀ node,
      walk.state.ram.child size.level ⟨frame, size.level.index va⟩ ≠
        .table node) :
    space.mapSized mem va pa size flags =
      ⟨.ok ⟨size, if (walk.state.read frame (size.level.index va)).present then
          some (walk.state.read frame (size.level.index va)) else none⟩,
        walk.state.write frame (size.level.index va) (size.leaf pa flags),
        walk.events ++ #[.leafMapped va pa size]⟩ := by
  rcases walk with ⟨⟨answer, added⟩, state, events⟩
  simp only at hok hchild
  subst hok
  simp [mapSized, install, hcanonical, haligned, hwalk,
    Memory.place_of_not_table pa flags hchild]

end Cases

/-- A request is carried out if the walk comes to its end and finds no node
there. -/
theorem walk_of_mapSized {mapped : Mapped}
    (hok : (space.mapSized mem va pa size flags).value = .ok mapped) :
    (va.isCanonical = true ∧ va.isAligned size = true ∧
        pa.isAligned size = true) ∧
      ∃ walk frame,
        mem.descend va (parentFlags flags) size.above space.root = walk ∧
          walk.value.1 = .ok frame ∧ ∀ node,
            walk.state.ram.child size.level ⟨frame, size.level.index va⟩ ≠
              .table node := by
  cases hcanonical : va.isCanonical with
  | false =>
      rw [mapSized_of_not_canonical pa size flags hcanonical] at hok
      cases hok
  | true =>
      cases haligned : va.isAligned size && pa.isAligned size with
      | false =>
          rw [mapSized_of_unaligned flags hcanonical haligned] at hok
          cases hok
      | true =>
          obtain ⟨walk, hwalk⟩ :
              ∃ walk, mem.descend va (parentFlags flags) size.above space.root =
                walk :=
            ⟨_, rfl⟩
          refine ⟨⟨rfl, Bool.and_eq_true_iff.1 haligned⟩, walk, ?_⟩
          cases hanswer : walk.value.1 with
          | error reason =>
              rw [mapSized_of_walk_error hcanonical haligned hwalk hanswer]
                at hok
              cases hok
          | ok frame =>
              refine ⟨frame, hwalk, rfl, ?_⟩
              intro node hchild
              rw [mapSized_of_conflict hcanonical haligned hwalk hanswer hchild]
                at hok
              cases hok

/-- Of the physical address only its alignment decides whether a request is
carried out. -/
theorem mapSized_ok_congr {pa' : PhysAddr} (hpa' : pa'.isAligned size = true)
    {mapped : Mapped}
    (hok : (space.mapSized mem va pa size flags).value = .ok mapped) :
    (space.mapSized mem va pa' size flags).value = .ok mapped := by
  obtain ⟨⟨hcanonical, hva, hpa⟩, walk, frame, hwalk, hanswer, hchild⟩ :=
    walk_of_mapSized hok
  rw [mapSized_of_placed hcanonical (Bool.and_eq_true_iff.2 ⟨hva, hpa⟩) hwalk
    hanswer hchild] at hok
  rw [mapSized_of_placed hcanonical (Bool.and_eq_true_iff.2 ⟨hva, hpa'⟩) hwalk
    hanswer hchild]
  exact hok

variable {roots : List Frame} {held : Finset Frame}

/-- A request that is refused restores the memory. -/
theorem restored_mapSized (hforest : Forest mem roots held)
    (hroot : space.root ∈ roots) {reason : MapError}
    (herror : (space.mapSized mem va pa size flags).value = .error reason) :
    mem.Restored (space.linksToOpen mem.ram va pa size flags)
        (space.mapSized mem va pa size flags).state ∧
      AllAccepted (space.mapSized mem va pa size flags).events := by
  cases hcanonical : va.isCanonical with
  | false =>
      rw [mapSized_of_not_canonical pa size flags hcanonical, linksToOpen,
        hcanonical]
      exact ⟨.refl hforest.valid, .empty⟩
  | true =>
      cases haligned : va.isAligned size && pa.isAligned size with
      | false =>
          rw [mapSized_of_unaligned flags hcanonical haligned, linksToOpen,
            hcanonical, haligned]
          exact ⟨.refl hforest.valid, .empty⟩
      | true =>
          obtain ⟨walk, hwalk⟩ :
              ∃ walk, mem.descend va (parentFlags flags) size.above space.root =
                walk :=
            ⟨_, rfl⟩
          obtain ⟨hkept, -⟩ := hforest.descend size.leads_above hroot .root
          rw [hwalk] at hkept
          have hrolled :=
            hforest.restored_rollBack size.leads_above hroot .root hwalk
          have hevents := hkept.accepted.append hrolled.2
          have hlinks : space.linksToOpen mem.ram va pa size flags =
              mem.ram.linksToOpen va flags size.above space.root := by
            simp [linksToOpen, hcanonical, haligned]
          rw [hlinks]
          cases hanswer : walk.value.1 with
          | error reason' =>
              rw [mapSized_of_walk_error hcanonical haligned hwalk hanswer]
              exact ⟨hrolled.1, hevents⟩
          | ok frame =>
              by_cases hchild : ∃ node, walk.state.ram.child size.level
                  ⟨frame, size.level.index va⟩ = .table node
              · rcases hchild with ⟨node, hchild⟩
                rw [mapSized_of_conflict hcanonical haligned hwalk
                  hanswer hchild]
                exact ⟨hrolled.1, hevents⟩
              · rw [mapSized_of_placed hcanonical haligned hwalk hanswer
                  (not_exists.1 hchild)] at herror
                cases herror

/-- The links left open by a request that is refused lead to nodes. -/
theorem link_of_mem_linksToOpen {ram : Ram} {cell : Cell}
    (hmem : cell ∈ space.linksToOpen ram va pa size flags) :
    ∃ level node, ram.Reach space.root level (level.pathTo va) cell.frame ∧
      ram.child level cell = .table node := by
  rw [linksToOpen] at hmem
  split at hmem
  · exact Ram.of_mem_linksToOpen size.leads_above .root hmem
  · cases hmem

/-- A request that is refused changes nothing that an entry leads to. -/
theorem child_of_refused (hforest : Forest mem roots held)
    (hroot : space.root ∈ roots) {reason : MapError}
    (herror : (space.mapSized mem va pa size flags).value = .error reason) :
    Forest (space.mapSized mem va pa size flags).state roots held ∧
      ∀ {root level path frame}, root ∈ roots →
        mem.ram.Reach root level path frame → ∀ i,
          (space.mapSized mem va pa size flags).state.ram.child level
              ⟨frame, i⟩ =
            mem.ram.child level ⟨frame, i⟩ := by
  obtain ⟨hrestored, -⟩ := restored_mapSized hforest hroot herror
  apply hforest.of_restored hrestored
  intro cell hmem
  obtain ⟨level, node, hreach, hchild⟩ := link_of_mem_linksToOpen hmem
  exact ⟨space.root, hroot, level, level.pathTo va, node, hreach, hchild⟩

/-- What a request that is carried out does: a way down that keeps the trees,
and a leaf at its end. -/
structure Placed (space : AddressSpace) (mem : Memory) (roots : List Frame)
    (held : Finset Frame) (va : VirtAddr) (pa : PhysAddr) (size : PageSize)
    (mid : Memory) (node : Frame) : Prop where
  canonical : va.isCanonical = true
  aligned_va : va.isAligned size = true
  aligned_pa : pa.isAligned size = true
  root_mem : space.root ∈ roots
  forest : Forest mid roots held
  leaves : Ram.SameLeaves roots mem.ram mid.ram
  reach : mid.ram.Reach space.root size.level (size.level.pathTo va) node
  not_table : ∀ other,
    mid.ram.child size.level ⟨node, size.level.index va⟩ ≠ .table other

theorem placed_of_mapSized (hforest : Forest mem roots held)
    (hroot : space.root ∈ roots) {mapped : Mapped}
    (hok : (space.mapSized mem va pa size flags).value = .ok mapped) :
    ∃ mid node, space.Placed mem roots held va pa size mid node ∧
      mapped = ⟨size, if (mid.read node (size.level.index va)).present then
        some (mid.read node (size.level.index va)) else none⟩ ∧
      (space.mapSized mem va pa size flags).state =
        mid.write node (size.level.index va) (size.leaf pa flags) ∧
      AllAccepted (space.mapSized mem va pa size flags).events := by
  obtain ⟨⟨hcanonical, hva, hpa⟩, walk, frame, hwalk, hanswer, hchild⟩ :=
    walk_of_mapSized hok
  obtain ⟨hkept, hend⟩ := hforest.descend size.leads_above hroot .root
  rw [hwalk] at hkept hend
  rw [mapSized_of_placed hcanonical (Bool.and_eq_true_iff.2 ⟨hva, hpa⟩) hwalk
    hanswer hchild] at hok ⊢
  cases hok
  have hmapped : AllAccepted #[.leafMapped va pa size] :=
    .singleton fun _ => nofun
  exact ⟨walk.state, frame,
    ⟨hcanonical, hva, hpa, hroot, hkept.forest, hkept.leaves,
      hend frame hanswer, hchild⟩, rfl, rfl, hkept.accepted.append hmapped⟩

namespace Placed

variable {mid : Memory} {node : Frame}

theorem forest_write (hplaced : space.Placed mem roots held va pa size mid node)
    (flags : Flags) :
    Forest (mid.write node (size.level.index va) (size.leaf pa flags))
      roots held :=
  hplaced.forest.put hplaced.root_mem hplaced.reach hplaced.not_table
    (mid.child_write_leaf_ne_table node _ size pa flags)
    (PageSize.proper_leaf hplaced.aligned_pa flags)

theorem leafAt_inside
    (hplaced : space.Placed mem roots held va pa size mid node) (flags : Flags)
    {a : VirtAddr} (hindex : size.level.index a = size.level.index va)
    (hpath : size.level.pathTo a = size.level.pathTo va) :
    (mid.write node (size.level.index va) (size.leaf pa flags)).ram.LeafAt
      space.root a size.level node (size.leaf pa flags) := by
  constructor
  · rw [hpath, hplaced.forest.reach_put_iff hplaced.root_mem hplaced.reach
      hplaced.not_table (mid.child_write_leaf_ne_table node _ size pa flags)
      hplaced.root_mem]
    exact hplaced.reach
  · rw [hindex, mid.child_write_leaf]

/-- Walks that do not come through the page end where they ended before. -/
theorem leafAt_outside
    (hplaced : space.Placed mem roots held va pa size mid node) (flags : Flags)
    {root : Frame} (hroot : root ∈ roots) {a : VirtAddr}
    (hout : ¬(root = space.root ∧ size.level.index a = size.level.index va ∧
      size.level.pathTo a = size.level.pathTo va))
    {level : Level} {frame : Frame} {e : Entry} :
    (mid.write node (size.level.index va) (size.leaf pa flags)).ram.LeafAt root
        a level frame e ↔
      mem.ram.LeafAt root a level frame e := by
  rw [hplaced.forest.leafAt_put_iff hplaced.root_mem hplaced.reach
    hplaced.not_table
    (mid.child_write_leaf_ne_table node _ size pa flags) hroot hout]
  exact hplaced.leaves root hroot a level frame e

theorem lookup_inside
    (hplaced : space.Placed mem roots held va pa size mid node) (flags : Flags)
    {a : VirtAddr} (hle : va.toNat ≤ a.toNat)
    (hlt : a.toNat < va.toNat + size.bytes) :
    space.lookup
        (mid.write node (size.level.index va) (size.leaf pa flags)).ram a =
      some { phys := .ofNat (pa.toNat % 2 ^ 52 + (a.toNat - va.toNat))
             size
             flags :=
               (flags.sanitized.put .present true).put .huge size.isHuge } := by
  have hcanonical := PageSize.isCanonical_of_mem_page hplaced.aligned_va
    hplaced.canonical hle hlt
  obtain ⟨hindex, hpath⟩ := (PageSize.mem_page_iff_pathTo hplaced.aligned_va
    hplaced.canonical hcanonical).1 ⟨hle, hlt⟩
  rw [lookup_of_leafAt hcanonical (hplaced.leafAt_inside flags hindex hpath)
    size.leafSize_level,
    PageSize.target_leaf hplaced.aligned_va hplaced.aligned_pa hle hlt]

/-- Addresses outside the page, and all addresses of other spaces, lead where
they led before. -/
theorem lookup_outside
    (hplaced : space.Placed mem roots held va pa size mid node) (flags : Flags)
    {other : AddressSpace} (hother : other.root ∈ roots) {a : VirtAddr}
    (hout : ¬(other.root = space.root ∧ va.toNat ≤ a.toNat ∧
      a.toNat < va.toNat + size.bytes)) :
    other.lookup
        (mid.write node (size.level.index va) (size.leaf pa flags)).ram a =
      other.lookup mem.ram a := by
  cases hcanonical : a.isCanonical with
  | false =>
      rw [lookup_of_not_canonical hcanonical,
        lookup_of_not_canonical hcanonical]
  | true =>
      rw [PageSize.mem_page_iff_pathTo hplaced.aligned_va hplaced.canonical
        hcanonical] at hout
      exact lookup_congr fun level e => exists_congr fun frame =>
        hplaced.leafAt_outside flags hother hout

/-- The entry that is replaced is the leaf that mapped the page. -/
theorem replaced_eq
    (hplaced : space.Placed mem roots held va pa size mid node) :
    (if (mid.read node (size.level.index va)).present then
          some (mid.read node (size.level.index va)) else none).map
        (fun e => (e.base, size, e.flags)) =
      (space.lookup mem.ram va).map fun t => (t.phys, t.size, t.flags) := by
  rw [← hplaced.leaves.lookup_eq hplaced.root_mem]
  cases hp : (mid.read node (size.level.index va)).present with
  | false =>
      rw [lookup_of_absent hplaced.reach (Ram.child_of_not_present hp)]
      rfl
  | true =>
      have hl :
          size.level.isLeaf (mid.read node (size.level.index va)) = true := by
        by_contra hl
        exact hplaced.not_table _
          (Ram.child_of_table hp (Bool.eq_false_iff.2 hl))
      have hleaf : mid.ram.LeafAt space.root va size.level node
          (mid.read node (size.level.index va)) :=
        ⟨hplaced.reach, Ram.child_of_leaf hp hl⟩
      have haligned := (hplaced.forest.proper hplaced.root_mem hplaced.reach
        (size.level.index va)).leaf size hp hl size.leafSize_level
      have hphys := Entry.phys_target haligned hplaced.aligned_va
        (Nat.le_refl va.toNat) (Nat.lt_add_of_pos_right size.bytes_pos)
      rw [Nat.sub_self, Nat.add_zero, Address.ofNat_toNat] at hphys
      rw [lookup_of_leafAt hplaced.canonical hleaf size.leafSize_level,
        Option.map_some, hphys]
      rfl

end Placed

theorem installs_of_mapSized (hforest : Forest mem roots held)
    (hroot : space.root ∈ roots) {mapped : Mapped}
    (hok : (space.mapSized mem va pa size flags).value = .ok mapped) :
    Installs (space.lookup mem.ram)
      (space.lookup (space.mapSized mem va pa size flags).state.ram) va pa size
      flags mapped := by
  obtain ⟨mid, node, hplaced, rfl, hstate, -⟩ :=
    placed_of_mapSized hforest hroot hok
  rw [hstate]
  refine ⟨rfl, ?_, ?_, hplaced.replaced_eq⟩
  · intro a hle hlt
    exact hplaced.lookup_inside flags hle hlt
  · intro a hout
    exact hplaced.lookup_outside flags hroot fun h => hout h.2

/-- A request to map a page keeps the trees, whether or not it is refused. -/
theorem forest_mapSized (hforest : Forest mem roots held)
    (hroot : space.root ∈ roots) (va : VirtAddr) (pa : PhysAddr)
    (size : PageSize) (flags : Flags) :
    Forest (space.mapSized mem va pa size flags).state roots held ∧
      AllAccepted (space.mapSized mem va pa size flags).events := by
  cases hanswer : (space.mapSized mem va pa size flags).value with
  | error reason =>
      exact ⟨(child_of_refused hforest hroot hanswer).1,
        (restored_mapSized hforest hroot hanswer).2⟩
  | ok mapped =>
      obtain ⟨mid, node, hplaced, -, hstate, haccepted⟩ :=
        placed_of_mapSized hforest hroot hanswer
      rw [hstate]
      exact ⟨hplaced.forest_write flags, haccepted⟩

section Select

/-- A request for a page of no given size is one for a page of the size
selected, but for what it reports. -/
theorem map_eq (space : AddressSpace) (mem : Memory) (va : VirtAddr)
    (pa : PhysAddr) (flags : Flags) :
    (space.map mem va pa flags).value = (space.mapSized mem va pa
        (.select va pa (flags.has .huge)) flags).value ∧
      (space.map mem va pa flags).state = (space.mapSized mem va pa
        (.select va pa (flags.has .huge)) flags).state := by
  by_cases hdemoted : (flags.has .huge &&
      decide (PageSize.select va pa (flags.has .huge) = .fourK)) = true
  · simp only [map, hdemoted, ↓reduceIte, and_self]
  · simp only [map, hdemoted, Bool.false_eq_true, ↓reduceIte, and_self]

theorem forest_map (hforest : Forest mem roots held)
    (hroot : space.root ∈ roots) (va : VirtAddr) (pa : PhysAddr)
    (flags : Flags) :
    Forest (space.map mem va pa flags).state roots held ∧
      AllAccepted (space.map mem va pa flags).events := by
  have hdone :=
    forest_mapSized hforest hroot va pa (.select va pa (flags.has .huge)) flags
  have hdemoted : AllAccepted #[.demoted va pa] := .singleton fun _ => nofun
  simp only [map]
  split
  · exact ⟨hdone.1, hdemoted.append hdone.2⟩
  · exact hdone

end Select

end AddressSpace

end FourLevelPaging
