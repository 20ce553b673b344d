/-
How a request to map a page is answered.  What is mapped inside the page decides
whether anything is in its way; if nothing is, the frames left in the pool
decide whether the missing nodes can be added.
-/
import FourLevelPaging.Proofs.AddressSpace.Map
import FourLevelPaging.Proofs.Tree.Missing

namespace FourLevelPaging

namespace PageSize

theorem bytes_lt_iff {a b : PageSize} :
    a.bytes < b.bytes ↔ a.level.height < b.level.height := by
  cases a <;> cases b <;> decide

theorem level_inj {a b : PageSize} (h : a.level = b.level) : a = b := by
  revert h
  cases a <;> cases b <;> decide

end PageSize

namespace AddressSpace

/-- An address of the page at `va` is mapped by a leaf of another size, and the
entry of `level` is in the way: that of the leaf if the leaf is larger, and the
one that the page would take otherwise. -/
def Blocked (space : AddressSpace) (ram : Ram) (va : VirtAddr) (size : PageSize)
    (level : Level) : Prop :=
  ∃ (a : VirtAddr) (target : Target),
    (va.toNat ≤ a.toNat ∧ a.toNat < va.toNat + size.bytes) ∧
      space.lookup ram a = some target ∧ target.size ≠ size ∧
      level =
        if size.bytes < target.size.bytes then target.size.level else size.level

/-- The levels, top first, of the nodes that are missing on the way of `va` from
the root down to the node that holds leaves of the given size. -/
noncomputable def missing (space : AddressSpace) (ram : Ram) (va : VirtAddr)
    (size : PageSize) : List Level :=
  ram.missing space.root va size.above

/-- Why a request to map the page of the given size at `va` to `pa` is
refused. -/
inductive Refuses (space : AddressSpace) (mem : Memory) (va : VirtAddr)
    (pa : PhysAddr) (size : PageSize) : MapError → Prop
  | nonCanonical (hcanonical : va.isCanonical = false) :
      Refuses space mem va pa size (.nonCanonical va)
  | unaligned (hcanonical : va.isCanonical = true)
      (haligned : (va.isAligned size && pa.isAligned size) = false) :
      Refuses space mem va pa size (.unaligned va pa size)
  | conflict {level : Level} (hcanonical : va.isCanonical = true)
      (haligned : (va.isAligned size && pa.isAligned size) = true)
      (hblocked : space.Blocked mem.ram va size level) :
      Refuses space mem va pa size (.conflict va level)
  | outOfMemory {level : Level} (hcanonical : va.isCanonical = true)
      (haligned : (va.isAligned size && pa.isAligned size) = true)
      (hfree : ∀ level, ¬space.Blocked mem.ram va size level)
      (hmissing : (space.missing mem.ram va size)[mem.pool.freeCount]? =
        some level) :
      Refuses space mem va pa size (.outOfMemory level)

section Page

variable {space : AddressSpace} {mem : Memory} {roots : List Frame}
  {held : Finset Frame} {va : VirtAddr} {size : PageSize} {last : Level}
  {node : Frame} (haligned : va.isAligned size = true)
  (hcanonical : va.isCanonical = true)
  (hlevel : size.level.height ≤ last.height)
  (hreach : mem.ram.Reach space.root last (last.pathTo va) node)

include haligned hcanonical hlevel hreach

/-- A leaf met on the way maps the whole page. -/
theorem lookup_page_of_leaf {e : Entry}
    (hchild : mem.ram.child last ⟨node, last.index va⟩ = .leaf e) {a : VirtAddr}
    (hle : va.toNat ≤ a.toNat) (hlt : a.toNat < va.toNat + size.bytes) :
    ∃ target, space.lookup mem.ram a = some target ∧
      target.size.level = last := by
  obtain ⟨ha, hindex, hpath⟩ :=
    PageSize.way_of_mem_page haligned hcanonical hle hlt hlevel
  obtain ⟨large, hlarge⟩ := Ram.leafSize_of_child_leaf hchild
  have hleaf : mem.ram.LeafAt space.root a last node e :=
    ⟨hpath ▸ hreach, hindex ▸ hchild⟩
  exact ⟨_, lookup_of_leafAt ha hleaf hlarge, Level.level_of_leafSize hlarge⟩

/-- Where a node is missing, nothing of the page is mapped. -/
theorem lookup_page_of_absent
    (hchild : mem.ram.child last ⟨node, last.index va⟩ = .absent) {a : VirtAddr}
    (hle : va.toNat ≤ a.toNat) (hlt : a.toNat < va.toNat + size.bytes) :
    space.lookup mem.ram a = none := by
  obtain ⟨-, hindex, hpath⟩ :=
    PageSize.way_of_mem_page haligned hcanonical hle hlt hlevel
  exact lookup_of_absent (hpath ▸ hreach) (hindex ▸ hchild)

/-- A larger leaf is in the way of the page, and nothing else is. -/
theorem blocked_iff_of_leaf {e : Entry}
    (hchild : mem.ram.child last ⟨node, last.index va⟩ = .leaf e)
    (hlarger : size.level.height < last.height) {level : Level} :
    space.Blocked mem.ram va size level ↔ level = last := by
  constructor
  · rintro ⟨a, target, ⟨hle, hlt⟩, hlookup, -, rfl⟩
    obtain ⟨target', hlookup', hlast⟩ :=
      lookup_page_of_leaf haligned hcanonical hlevel hreach hchild hle hlt
    obtain rfl := Option.some.inj (hlookup.symm.trans hlookup')
    rw [if_pos (PageSize.bytes_lt_iff.2 (hlast ▸ hlarger)), hlast]
  · rintro rfl
    have hend := Nat.lt_add_of_pos_right (n := va.toNat) size.bytes_pos
    obtain ⟨target, hlookup, hlast⟩ :=
      lookup_page_of_leaf haligned hcanonical hlevel hreach hchild
        (Nat.le_refl _) hend
    have hlt := PageSize.bytes_lt_iff.2 (hlast ▸ hlarger)
    refine ⟨va, target, ⟨Nat.le_refl _, hend⟩, hlookup, ?_, ?_⟩
    · rintro rfl
      exact Nat.lt_irrefl _ hlt
    · rw [if_pos hlt, hlast]

theorem not_blocked_of_absent
    (hchild : mem.ram.child last ⟨node, last.index va⟩ = .absent)
    (level : Level) :
    ¬space.Blocked mem.ram va size level := by
  rintro ⟨a, target, ⟨hle, hlt⟩, hlookup, -⟩
  rw [lookup_page_of_absent haligned hcanonical hlevel hreach hchild hle hlt]
    at hlookup
  cases hlookup

end Page

section Place

variable {space : AddressSpace} {mem : Memory} {roots : List Frame}
  {held : Finset Frame} {va : VirtAddr} {pa : PhysAddr} {size : PageSize}
  {flags : Flags} {node : Frame} (haligned : va.isAligned size = true)
  (hcanonical : va.isCanonical = true)
  (hreach : mem.ram.Reach space.root size.level (size.level.pathTo va) node)

include haligned hcanonical hreach

/-- An entry that the leaf of the page may take is not in the way. -/
theorem not_blocked_of_not_table
    (hchild : ∀ other, mem.ram.child size.level ⟨node, size.level.index va⟩ ≠
      .table other) (level : Level) : ¬space.Blocked mem.ram va size level := by
  cases hfound : mem.ram.child size.level ⟨node, size.level.index va⟩ with
  | created other => exact absurd hfound Ram.child_ne_created
  | table other => exact absurd hfound (hchild other)
  | absent =>
      exact not_blocked_of_absent haligned hcanonical (Nat.le_refl _) hreach
        hfound level
  | leaf e =>
      rintro ⟨a, target, ⟨hle, hlt⟩, hlookup, hne, -⟩
      obtain ⟨target', hlookup', hlast⟩ :=
        lookup_page_of_leaf haligned hcanonical (Nat.le_refl _) hreach
          hfound hle hlt
      obtain rfl := Option.some.inj (hlookup.symm.trans hlookup')
      exact hne (PageSize.level_inj hlast)

/-- Smaller leaves lie behind a node that stands where the leaf of the page
would. -/
theorem blocked_iff_of_table (hforest : Forest mem roots held)
    (htrim : mem.Trim held roots) (hroot : space.root ∈ roots) {other : Frame}
    (hchild : mem.ram.child size.level ⟨node, size.level.index va⟩ =
      .table other) {level : Level} :
    space.Blocked mem.ram va size level ↔ level = size.level := by
  have hsmaller : ∀ {a target}, va.toNat ≤ a.toNat →
      a.toNat < va.toNat + size.bytes →
      space.lookup mem.ram a = some target →
      target.size.level.height < size.level.height := by
    intro a target hle hlt hlookup
    obtain ⟨-, hindex, hpath⟩ :=
      PageSize.way_of_mem_page haligned hcanonical hle hlt (Nat.le_refl _)
    obtain ⟨-, last, frame, e, small, hleaf, hsmall, rfl⟩ :=
      lookup_eq_some_iff.1 hlookup
    change small.level.height < size.level.height
    rw [Level.level_of_leafSize hsmall]
    exact hleaf.height_lt (hpath ▸ hreach) (hindex ▸ hchild)
  have hnot : ∀ {small : PageSize}, small.level.height < size.level.height →
      ¬size.bytes < small.bytes := by
    intro small hlt
    rw [PageSize.bytes_lt_iff]
    omega
  constructor
  · rintro ⟨a, target, ⟨hle, hlt⟩, hlookup, -, rfl⟩
    rw [if_neg (hnot (hsmaller hle hlt hlookup))]
  · rintro rfl
    obtain ⟨a, last, frame, e, ha, hindex, hpath, hleaf, -⟩ :=
      hforest.exists_leafAt htrim hroot hreach (i := size.level.index va)
        (by simp [hchild])
    obtain ⟨small, hsmall⟩ := Ram.leafSize_of_child_leaf hleaf.child
    have hlookup := lookup_of_leafAt ha hleaf hsmall
    have hpage :=
      (PageSize.mem_page_iff_pathTo haligned hcanonical ha).2 ⟨hindex, hpath⟩
    have hlt := hsmaller hpage.1 hpage.2 hlookup
    refine ⟨a, _, hpage, hlookup, ?_, ?_⟩
    · intro heq
      rw [heq] at hlt
      exact Nat.lt_irrefl _ hlt
    · rw [if_neg (hnot hlt)]

end Place

section Decided

variable {space : AddressSpace} {mem : Memory} {roots : List Frame}
  {held : Finset Frame} {va : VirtAddr} {pa : PhysAddr} {size : PageSize}
  {flags : Flags}

/-- How a request for a page that is aligned is answered. -/
inductive Decided (space : AddressSpace) (mem : Memory) (va : VirtAddr)
    (size : PageSize) (done : Reported Memory (Except MapError Mapped)) : Prop
  | blocked {level : Level}
      (hblocked : ∀ other, space.Blocked mem.ram va size other ↔ other = level)
      (hvalue : done.value = .error (.conflict va level))
  | starved {level : Level}
      (hfree : ∀ other, ¬space.Blocked mem.ram va size other)
      (hmissing : (space.missing mem.ram va size)[mem.pool.freeCount]? =
        some level) (hvalue : done.value = .error (.outOfMemory level))
  | placed {mapped : Mapped}
      (hfree : ∀ other, ¬space.Blocked mem.ram va size other)
      (hvalue : done.value = .ok mapped) (hcount : mem.pool.freeCount =
        done.state.pool.freeCount + (space.missing mem.ram va size).length)

variable (hcanonical : va.isCanonical = true)
  (haligned : (va.isAligned size && pa.isAligned size) = true)
  {last : Level} {rest : List Level} {node : Frame} {mid : Memory}

include hcanonical haligned

/-- No node is missing: the entry that the page would take decides. -/
theorem decided_of_arrived (hforest : Forest mem roots held)
    (htrim : mem.Trim held roots) (hroot : space.root ∈ roots)
    (hsame : mem.SameTrees roots held mid)
    (hreach : mem.ram.Reach space.root size.level (size.level.pathTo va) node)
    (hmissing : space.missing mem.ram va size = [])
    (hwalk : mem.descend va (parentFlags flags) size.above space.root =
      .quiet (.ok node, []) mid) :
    space.Decided mem va size (space.mapSized mem va pa size flags) := by
  have hva := (Bool.and_eq_true_iff.1 haligned).1
  have hchild := hsame.child_eq hroot hreach (size.level.index va)
  by_cases htable : ∃ other,
      mem.ram.child size.level ⟨node, size.level.index va⟩ = .table other
  · rcases htable with ⟨other, htable⟩
    refine .blocked (fun _ =>
      blocked_iff_of_table hva hcanonical hreach hforest htrim hroot htable) ?_
    rw [mapSized_of_conflict hcanonical haligned hwalk rfl
      (hchild.trans htable)]
  · have htable := not_exists.1 htable
    have hplaced := mapSized_of_placed hcanonical haligned hwalk rfl
      fun other h => htable other (hchild.symm.trans h)
    refine .placed (not_blocked_of_not_table hva hcanonical hreach htable)
      (by rw [hplaced]) ?_
    rw [hplaced, hmissing]
    exact congrArg FramePool.freeCount hsame.pool_eq.symm

/-- The way is cut off by a larger leaf. -/
theorem decided_of_leaf {e : Entry} (hlarger : size.level.height < last.height)
    (hreach : mem.ram.Reach space.root last (last.pathTo va) node)
    (hchild : mem.ram.child last ⟨node, last.index va⟩ = .leaf e)
    (hwalk : mem.descend va (parentFlags flags) size.above space.root =
      .quiet (.error (.conflict va last), []) mid) :
    space.Decided mem va size (space.mapSized mem va pa size flags) := by
  have hva := (Bool.and_eq_true_iff.1 haligned).1
  refine .blocked (fun _ => blocked_iff_of_leaf hva hcanonical
    (Nat.le_of_lt hlarger) hreach hchild hlarger) ?_
  rw [mapSized_of_walk_error hcanonical haligned hwalk rfl]

/-- Nodes are missing: the frames left decide. -/
theorem decided_of_absent (hroot : space.root ∈ roots)
    (hsame : mem.SameTrees roots held mid)
    (hreach : mem.ram.Reach space.root last (last.pathTo va) node)
    (hlevel : size.level.height ≤ last.height)
    (hleads : last.Leads rest size.level)
    (hmissing : space.missing mem.ram va size = rest.filterMap Level.next)
    (hchild : mem.ram.child last ⟨node, last.index va⟩ = .absent)
    (hwalk : mem.descend va (parentFlags flags) size.above space.root =
      mid.descend va (parentFlags flags) rest node) :
    space.Decided mem va size (space.mapSized mem va pa size flags) := by
  have hva := (Bool.and_eq_true_iff.1 haligned).1
  have hfree := not_blocked_of_absent hva hcanonical hlevel hreach hchild
  have hlength := hleads.length_filterMap_next
  have hnode : node ∈ mid.pool.allocated :=
    hsame.forest.mem_allocated_of_reach hroot ((hsame.reach_iff hroot).2 hreach)
  obtain ⟨hok, herror⟩ := Memory.descend_of_absent hleads
    hsame.forest.valid hnode ((hsame.child_eq hroot hreach _).trans hchild)
  rw [hsame.pool_eq] at hok herror
  rw [← hmissing] at herror
  by_cases hle : rest.length ≤ mem.pool.freeCount
  · obtain ⟨target, hanswer, hblank, hcount⟩ := hok hle
    have hplaced := mapSized_of_placed hcanonical haligned hwalk hanswer
      fun other h => by
        rw [hblank] at h
        cases h
    refine .placed hfree (by rw [hplaced]) ?_
    rw [hplaced, hmissing, hlength]
    exact hcount
  · have hlt : mem.pool.freeCount < (space.missing mem.ram va size).length := by
      rw [hmissing, hlength]
      omega
    have hlevel' := List.getElem?_eq_getElem hlt
    refine .starved hfree hlevel' ?_
    rw [mapSized_of_walk_error hcanonical haligned hwalk (herror _ hlevel')]

end Decided

variable {space : AddressSpace} {mem : Memory} {roots : List Frame}
  {held : Finset Frame} {va : VirtAddr} {pa : PhysAddr} {size : PageSize}
  {flags : Flags}

/-- Every request for a page that is aligned is decided by what is mapped inside
the page, and by the frames left if nothing there is in the way. -/
theorem decided_mapSized (hforest : Forest mem roots held)
    (htrim : mem.Trim held roots) (hroot : space.root ∈ roots)
    (hcanonical : va.isCanonical = true)
    (haligned : (va.isAligned size && pa.isAligned size) = true) :
    space.Decided mem va size (space.mapSized mem va pa size flags) := by
  obtain ⟨last, rest, node, mid, ⟨hleads, hreach, hstopped, hmissing⟩, hsame,
      hwalk⟩ :=
    (Memory.SameTrees.refl hforest).follow hroot va (parentFlags flags)
      size.leads_above .root
  have hlevel := hleads.height_le
  cases hleads with
  | here =>
      exact decided_of_arrived hcanonical haligned hforest htrim hroot hsame
        hreach hmissing hwalk
  | @next _ below _ rest hnext hrest =>
      have hheight := Level.height_of_next hnext
      have hlower := hrest.height_le
      cases hchild : mem.ram.child last ⟨node, last.index va⟩ with
      | created other => exact absurd hchild Ram.child_ne_created
      | table other =>
          rcases hstopped with hnil | hstopped
          · cases hnil
          · exact absurd hchild (hstopped other)
      | leaf e =>
          have hleaf :=
            (hsame.child_eq hroot hreach (last.index va)).trans hchild
          rw [Memory.descend_of_leaf hleaf] at hwalk
          exact decided_of_leaf hcanonical haligned (by omega) hreach
            hchild hwalk
      | absent =>
          exact decided_of_absent hcanonical haligned hroot hsame hreach hlevel
            (.next hnext hrest) hmissing hchild hwalk

section Answer

variable (hforest : Forest mem roots held) (htrim : mem.Trim held roots)
  (hroot : space.root ∈ roots)

include hforest htrim hroot

theorem refuses_of_mapSized {reason : MapError}
    (herror : (space.mapSized mem va pa size flags).value = .error reason) :
    space.Refuses mem va pa size reason := by
  cases hcanonical : va.isCanonical with
  | false =>
      rw [mapSized_of_not_canonical pa size flags hcanonical] at herror
      cases herror
      exact .nonCanonical hcanonical
  | true =>
      cases haligned : va.isAligned size && pa.isAligned size with
      | false =>
          rw [mapSized_of_unaligned flags hcanonical haligned] at herror
          cases herror
          exact .unaligned hcanonical haligned
      | true =>
          cases decided_mapSized hforest htrim hroot hcanonical haligned with
          | blocked hblocked hvalue =>
              cases hvalue.symm.trans herror
              exact .conflict hcanonical haligned ((hblocked _).2 rfl)
          | starved hfree hmissing hvalue =>
              cases hvalue.symm.trans herror
              exact .outOfMemory hcanonical haligned hfree hmissing
          | placed hfree hvalue hcount => cases hvalue.symm.trans herror

theorem mapSized_of_refuses {reason : MapError}
    (hrefuses : space.Refuses mem va pa size reason) :
    (space.mapSized mem va pa size flags).value = .error reason := by
  cases hrefuses with
  | nonCanonical hcanonical =>
      rw [mapSized_of_not_canonical pa size flags hcanonical]
      rfl
  | unaligned hcanonical haligned =>
      rw [mapSized_of_unaligned flags hcanonical haligned]
      rfl
  | conflict hcanonical haligned hblocked =>
      cases decided_mapSized hforest htrim hroot hcanonical haligned with
      | blocked honly hvalue => rw [hvalue, (honly _).1 hblocked]
      | starved hfree _ _ => exact absurd hblocked (hfree _)
      | placed hfree _ _ => exact absurd hblocked (hfree _)
  | outOfMemory hcanonical haligned hfree hmissing =>
      cases decided_mapSized hforest htrim hroot hcanonical haligned with
      | blocked honly _ => exact absurd ((honly _).2 rfl) (hfree _)
      | starved _ hfirst hvalue =>
          rw [hvalue, Option.some.inj (hfirst.symm.trans hmissing)]
      | placed _ _ hcount =>
          obtain ⟨hlt, -⟩ := List.getElem?_eq_some_iff.1 hmissing
          omega

/-- A request is refused exactly if there is a reason to. -/
theorem mapSized_eq_error_iff {reason : MapError} :
    (space.mapSized mem va pa size flags).value = .error reason ↔
      space.Refuses mem va pa size reason :=
  ⟨refuses_of_mapSized hforest htrim hroot,
    mapSized_of_refuses hforest htrim hroot⟩

/-- A request that is carried out takes one frame for each node that is
missing. -/
theorem freeCount_of_mapSized {mapped : Mapped}
    (hok : (space.mapSized mem va pa size flags).value = .ok mapped) :
    mem.pool.freeCount =
      (space.mapSized mem va pa size flags).state.pool.freeCount +
        (space.missing mem.ram va size).length := by
  obtain ⟨⟨hcanonical, hva, hpa⟩, -⟩ := walk_of_mapSized hok
  cases decided_mapSized hforest htrim hroot hcanonical
      (Bool.and_eq_true_iff.2 ⟨hva, hpa⟩) with
  | blocked _ hvalue => cases hvalue.symm.trans hok
  | starved _ _ hvalue => cases hvalue.symm.trans hok
  | placed _ _ hcount => exact hcount

/-- A request is carried out exactly if the addresses are in order, nothing is
in the way and there are frames for the nodes that are missing. -/
theorem mapSized_eq_ok_iff :
    (∃ mapped, (space.mapSized mem va pa size flags).value = .ok mapped) ↔
      (va.isCanonical = true ∧ va.isAligned size = true ∧
          pa.isAligned size = true) ∧
        (∀ level, ¬space.Blocked mem.ram va size level) ∧
        (space.missing mem.ram va size).length ≤ mem.pool.freeCount := by
  constructor
  · rintro ⟨mapped, hok⟩
    have hcount := freeCount_of_mapSized hforest htrim hroot hok
    obtain ⟨⟨hcanonical, hva, hpa⟩, -⟩ := walk_of_mapSized hok
    have haligned := Bool.and_eq_true_iff.2 ⟨hva, hpa⟩
    refine ⟨⟨hcanonical, hva, hpa⟩, fun level hblocked => ?_, by omega⟩
    have herror : (space.mapSized mem va pa size flags).value =
        .error (.conflict va level) :=
      mapSized_of_refuses hforest htrim hroot
        (.conflict hcanonical haligned hblocked)
    cases hok.symm.trans herror
  · rintro ⟨⟨hcanonical, hva, hpa⟩, hfree, hle⟩
    cases decided_mapSized hforest htrim hroot hcanonical
        (Bool.and_eq_true_iff.2 ⟨hva, hpa⟩) with
    | blocked honly _ => exact absurd ((honly _).2 rfl) (hfree _)
    | starved _ hmissing _ =>
        obtain ⟨hlt, -⟩ := List.getElem?_eq_some_iff.1 hmissing
        omega
    | placed _ hvalue _ => exact ⟨_, hvalue⟩

end Answer

/-- A request that is refused leaves all translations and the number of frames
handed out as they were. -/
theorem unchanged_of_refused (hforest : Forest mem roots held)
    (hroot : space.root ∈ roots) {reason : MapError}
    (herror : (space.mapSized mem va pa size flags).value = .error reason) :
    space.lookup (space.mapSized mem va pa size flags).state.ram =
        space.lookup mem.ram ∧
      (space.mapSized mem va pa size flags).state.pool.allocatedCount =
        mem.pool.allocatedCount := by
  obtain ⟨hrestored, -⟩ := restored_mapSized hforest hroot herror
  obtain ⟨-, hchild⟩ := child_of_refused hforest hroot herror
  constructor
  · funext a
    exact (Forest.sameLeaves_of_child hchild).lookup_eq hroot a
  · rw [← FramePool.card_allocated hrestored.valid, hrestored.allocated_eq,
      FramePool.card_allocated hforest.valid]

/-- At most one node is missing for each level between the root and the leaf. -/
theorem length_missing_le (space : AddressSpace) (ram : Ram) (va : VirtAddr)
    (size : PageSize) :
    (space.missing ram va size).length ≤
      Level.pml4.height - size.level.height := by
  have hmissing : (space.missing ram va size).length ≤ size.above.length :=
    Nat.le_trans (List.length_filter_le _ _) (List.length_filterMap_le _ _)
  have habove : size.above.length = Level.pml4.height - size.level.height := by
    cases size <;> rfl
  rwa [habove] at hmissing

/-- A request to map a page leaves no node without entries, whether or not it is
refused. -/
theorem trim_mapSized (hforest : Forest mem roots held)
    (htrim : mem.Trim held roots) (hroot : space.root ∈ roots) (va : VirtAddr)
    (pa : PhysAddr) (size : PageSize) (flags : Flags) :
    (space.mapSized mem va pa size flags).state.Trim held roots := by
  cases hanswer : (space.mapSized mem va pa size flags).value with
  | error reason =>
      obtain ⟨hrestored, -⟩ := restored_mapSized hforest hroot hanswer
      refine htrim.of_present hrestored.allocated_eq fun frame hframe i hi => ?_
      rw [hrestored.read_eq frame hframe i]
      split
      · exact (Entry.present_put_user _ true).trans hi
      · exact hi
  | ok mapped =>
      obtain ⟨⟨hcanonical, hva, hpa⟩, walk, frame, hwalk, hok, hchild⟩ :=
        walk_of_mapSized hanswer
      have hbelow := Memory.trim_descend
        size.leads_above hforest.valid
        (htrim.mono fun _ => List.mem_cons_of_mem space.root) (hwalk ▸ hok)
      rw [hwalk] at hbelow
      rw [mapSized_of_placed hcanonical (Bool.and_eq_true_iff.2 ⟨hva, hpa⟩)
        hwalk hok hchild]
      exact hbelow.write _ (Entry.present_leaf _ _)

theorem sameRegion_mapSized (hforest : Forest mem roots held)
    (hroot : space.root ∈ roots) (va : VirtAddr) (pa : PhysAddr)
    (size : PageSize) (flags : Flags) :
    mem.pool.SameRegion (space.mapSized mem va pa size flags).state.pool := by
  cases hanswer : (space.mapSized mem va pa size flags).value with
  | error reason => exact (restored_mapSized hforest hroot hanswer).1.region
  | ok mapped =>
      obtain ⟨⟨hcanonical, hva, hpa⟩, walk, frame, hwalk, hok, hchild⟩ :=
        walk_of_mapSized hanswer
      have hdrew := Memory.drew_descend va (parentFlags flags) size.leads_above
        hforest.valid space.root
      rw [hwalk] at hdrew
      rw [mapSized_of_placed hcanonical (Bool.and_eq_true_iff.2 ⟨hva, hpa⟩)
        hwalk hok hchild]
      exact hdrew.region

theorem tended_mapSized {pool : FramePool}
    (htended : mem.Tended pool roots held) (hroot : space.root ∈ roots)
    (va : VirtAddr) (pa : PhysAddr) (size : PageSize) (flags : Flags) :
    (space.mapSized mem va pa size flags).state.Tended pool roots held :=
  ⟨(forest_mapSized htended.forest hroot va pa size flags).1,
    trim_mapSized htended.forest htended.trim hroot va pa size flags,
    htended.region.trans
      (sameRegion_mapSized htended.forest hroot va pa size flags)⟩

end AddressSpace

end FourLevelPaging
