/-
How many nodes it takes to map addresses by pages of given sizes.  A node other
than the root stands for a span of the level above in which a smaller page is
wanted, so a demand that contains another takes at least as many nodes, and what
is missing for a page makes up the difference.
-/
import FourLevelPaging.Proofs.Manager.Range
import FourLevelPaging.Proofs.Manager.Shape

namespace FourLevelPaging

/-- Addresses, each with the size of the page that it is to be mapped by. -/
abbrev Demand := Set (VirtAddr × PageSize)

namespace Demand

variable {demand demand' : Demand} {level : Level} {va : VirtAddr}
  {size : PageSize}

/-- The numbers of the spans of a level in which an address is to be mapped by a
leaf further down. -/
def spans (demand : Demand) (level : Level) : Set Nat :=
  {n | ∃ a size, (a, size) ∈ demand ∧ size.level.height < level.height ∧
    a.toNat / 2 ^ level.shift = n}

/-- The root, and a node for each of the spans. -/
noncomputable def nodes (demand : Demand) : Nat :=
  1 + (demand.spans .pml4).ncard + (demand.spans .pdpt).ncard +
    (demand.spans .pd).ncard

theorem finite_spans (demand : Demand) (level : Level) :
    (demand.spans level).Finite := by
  apply (Set.finite_lt_nat (2 ^ 64)).subset
  rintro _ ⟨a, size, -, -, rfl⟩
  exact Nat.lt_of_le_of_lt (Nat.div_le_self _ _) a.toNat_lt

theorem spans_mono (hsub : demand ⊆ demand') (level : Level) :
    demand.spans level ⊆ demand'.spans level := by
  rintro n ⟨a, size, hmem, hlt, hspan⟩
  exact ⟨a, size, hsub hmem, hlt, hspan⟩

theorem ncard_spans_le (hsub : demand ⊆ demand') (level : Level) :
    (demand.spans level).ncard ≤ (demand'.spans level).ncard :=
  Set.ncard_le_ncard (spans_mono hsub level) (demand'.finite_spans level)

theorem nodes_mono (hsub : demand ⊆ demand') :
    demand.nodes ≤ demand'.nodes := by
  have htop := ncard_spans_le hsub .pml4
  have hmiddle := ncard_spans_le hsub .pdpt
  have hlow := ncard_spans_le hsub .pd
  unfold nodes
  omega

/-- Whether the span of `va` is new to a level. -/
noncomputable def lacks (demand : Demand) (va : VirtAddr) (level : Level) :
    Nat :=
  open Classical in if va.toNat / 2 ^ level.shift ∈ demand.spans level then
    0 else 1

/-- A page that is asked for in addition takes a new span or shares one. -/
theorem ncard_spans_add_lacks_le (hsub : demand ⊆ demand')
    (hmem : (va, size) ∈ demand') (hlt : size.level.height < level.height) :
    (demand.spans level).ncard + demand.lacks va level ≤
      (demand'.spans level).ncard := by
  unfold lacks
  split
  · exact ncard_spans_le hsub level
  · next hnew =>
      have hinsert :
          insert (va.toNat / 2 ^ level.shift) (demand.spans level) ⊆
            demand'.spans level :=
        Set.insert_subset ⟨va, size, hmem, hlt, rfl⟩ (spans_mono hsub level)
      rw [← Set.ncard_insert_of_notMem hnew (demand.finite_spans level)]
      exact Set.ncard_le_ncard hinsert (demand'.finite_spans level)

/-- `bytes` from `va` on, by pages of one size. -/
def window (va : VirtAddr) (bytes : Nat) (size : PageSize) : Demand :=
  {p | p.1 ∈ va.window bytes ∧ p.2 = size}

end Demand

/-- The levels on the way at which a node is missing are those with a new
span. -/
theorem Ram.length_missing {mem : Memory} {roots : List Frame}
    {held : Finset Frame} {space : AddressSpace}
    (hforest : Forest mem roots held) (htrim : mem.Trim held roots)
    (hroot : space.root ∈ roots) {demand : Demand}
    (hdemand : ∀ level, demand.spans level = space.spans mem.ram level)
    {va : VirtAddr} (hva : va.isCanonical = true) {levels : List Level}
    {level target : Level} (hleads : level.Leads levels target) :
    (mem.ram.missing space.root va levels).length =
      (levels.map (demand.lacks va)).sum := by
  induction hleads with
  | here => rfl
  | @next level below target rest hnext hrest ih =>
      have hreach := hforest.reach_iff_mem_spans htrim hroot hnext hva
      rw [← hdemand] at hreach
      rw [List.map_cons, List.sum_cons, ← ih]
      by_cases hthere : va.toNat / 2 ^ level.shift ∈ demand.spans level
      · obtain ⟨node, hnode⟩ := hreach.2 hthere
        rw [Ram.missing_of_table hnext hnode, Demand.lacks, if_pos hthere,
          Nat.zero_add]
      · have hnone := fun h => hthere (hreach.1 h)
        rw [Demand.lacks, if_neg hthere, Nat.add_comm]
        simp only [Ram.missing, List.filterMap_cons_some hnext]
        rw [List.filter_cons_of_pos (by simpa using hnone)]
        rfl

namespace Manager

variable {vm : Manager} {pool : FramePool} {held : Finset Frame}

/-- What is mapped. -/
def demand (vm : Manager) : Demand :=
  {p | ∃ target, vm.lookup p.1 = some target ∧ target.size = p.2}

theorem spans_demand (vm : Manager) (level : Level) :
    vm.demand.spans level = vm.space.spans vm.memory.ram level := by
  ext n
  constructor
  · rintro ⟨a, size, ⟨target, hlookup, rfl⟩, hlt, hspan⟩
    exact ⟨a, target, hlookup, hlt, hspan⟩
  · rintro ⟨a, target, hlookup, hlt, hspan⟩
    exact ⟨a, target.size, ⟨target, hlookup, rfl⟩, hlt, hspan⟩

/-- A tree has the nodes that it takes to map what it maps. -/
theorem nodes_demand (htended : vm.Tended pool held) :
    vm.demand.nodes = vm.tableFrames := by
  simp only [Demand.nodes, spans_demand]
  exact (AddressSpace.tableFrames_eq htended.forest htended.trim
    (List.mem_singleton_self _)).symm

/-- The nodes that are there and those that are missing for one more page are no
more than it takes to map anything that asks for the page and for what is mapped
already. -/
theorem tableFrames_add_missing_le (htended : vm.Tended pool held)
    {demand : Demand} (hdemand : vm.demand ⊆ demand) {va : VirtAddr}
    {size : PageSize} (hpage : (va, size) ∈ demand)
    (hcanonical : va.isCanonical = true) :
    vm.tableFrames + (vm.space.missing vm.memory.ram va size).length ≤
      demand.nodes := by
  have hlevel : ∀ level : Level, size.level.height < level.height →
      (vm.demand.spans level).ncard + vm.demand.lacks va level ≤
        (demand.spans level).ncard :=
    fun _ => Demand.ncard_spans_add_lacks_le hdemand hpage
  have hkeep := Demand.ncard_spans_le hdemand
  have hmissing := Ram.length_missing htended.forest htended.trim
    (List.mem_singleton_self _) vm.spans_demand hcanonical size.leads_above
  rw [← nodes_demand htended, AddressSpace.missing, hmissing, Demand.nodes,
    Demand.nodes]
  cases size with
  | oneG =>
      have htop := hlevel .pml4 (by decide)
      have hmiddle := hkeep .pdpt
      have hlow := hkeep .pd
      simp only [PageSize.above, List.map_cons, List.map_nil, List.sum_cons,
        List.sum_nil]
      omega
  | twoM =>
      have htop := hlevel .pml4 (by decide)
      have hmiddle := hlevel .pdpt (by decide)
      have hlow := hkeep .pd
      simp only [PageSize.above, List.map_cons, List.map_nil, List.sum_cons,
        List.sum_nil]
      omega
  | fourK =>
      have htop := hlevel .pml4 (by decide)
      have hmiddle := hlevel .pdpt (by decide)
      have hlow := hlevel .pd (by decide)
      simp only [PageSize.above, List.map_cons, List.map_nil, List.sum_cons,
        List.sum_nil]
      omega

end Manager

end FourLevelPaging
