/-
What it takes to build the kernel's first tree.  A policy that is accepted asks
for nothing that gets in its own way, so the tree is built if the pool has a
frame for each of its nodes.  How many these are follows from the two windows
alone: the spans that they touch, each counted once, also where the windows
share them.
-/
import FourLevelPaging.Proofs.Manager.Bootstrap
import FourLevelPaging.Proofs.Manager.Demand

namespace FourLevelPaging

namespace Demand

variable {va : VirtAddr} {bytes : Nat} {size : PageSize} {level : Level}

theorem spans_union (demand demand' : Demand) (level : Level) :
    spans (demand ∪ demand') level =
      demand.spans level ∪ demand'.spans level := by
  ext n
  constructor
  · rintro ⟨a, size, hmem | hmem, hlt, hspan⟩
    · exact Or.inl ⟨a, size, hmem, hlt, hspan⟩
    · exact Or.inr ⟨a, size, hmem, hlt, hspan⟩
  · rintro (hn | hn)
    · exact spans_mono Set.subset_union_left level hn
    · exact spans_mono Set.subset_union_right level hn

/-- A window takes the spans of its addresses on the levels above its pages. -/
theorem spans_window (hlt : size.level.height < level.height) :
    (window va bytes size).spans level =
      (fun a : VirtAddr => a.toNat / 2 ^ level.shift) '' va.window bytes := by
  ext n
  constructor
  · rintro ⟨a, _, ⟨ha, rfl⟩, -, hspan⟩
    exact ⟨a, ha, hspan⟩
  · rintro ⟨a, ha, hspan⟩
    exact ⟨a, size, ⟨ha, rfl⟩, hlt, hspan⟩

theorem spans_window_of_le (hle : level.height ≤ size.level.height) :
    (window va bytes size).spans level = ∅ := by
  apply Set.eq_empty_of_forall_notMem
  rintro n ⟨a, _, ⟨-, rfl⟩, hlt, -⟩
  exact Nat.not_lt.2 hle hlt

end Demand

/-- How many spans of `2 ^ shift` bytes some addresses lie in. -/
noncomputable def spanCount (shift : Nat) (addresses : Set VirtAddr) : Nat :=
  ((fun a : VirtAddr => a.toNat / 2 ^ shift) '' addresses).ncard

namespace Policy

/-- The addresses that a policy maps one to one. -/
def identityWindow (policy : Policy) : Set VirtAddr :=
  VirtAddr.window ⟨0⟩ policy.identityBytes.toNat

/-- The addresses of the image. -/
def imageWindow (policy : Policy) : Set VirtAddr :=
  policy.imageVirt.window policy.imageSize.toNat

/-- The number of nodes for the identity window alone. -/
noncomputable def identityNodes (policy : Policy) : Nat :=
  1 + spanCount 39 policy.identityWindow + spanCount 30 policy.identityWindow

/-- The number of nodes for everything that a policy asks for. -/
noncomputable def nodes (policy : Policy) : Nat :=
  1 + spanCount 39 (policy.identityWindow ∪ policy.imageWindow) +
    spanCount 30 (policy.identityWindow ∪ policy.imageWindow) +
    spanCount 21 policy.imageWindow

def identityDemand (policy : Policy) : Demand :=
  .window ⟨0⟩ policy.identityBytes.toNat .twoM

/-- Everything that a policy asks for. -/
def demand (policy : Policy) : Demand :=
  policy.identityDemand ∪ .window policy.imageVirt policy.imageSize.toNat .fourK

theorem nodes_identityDemand (policy : Policy) :
    policy.identityDemand.nodes = policy.identityNodes := by
  have htop : policy.identityDemand.spans .pml4 =
      (fun a : VirtAddr => a.toNat / 2 ^ 39) '' policy.identityWindow :=
    Demand.spans_window (by decide)
  have hmiddle : policy.identityDemand.spans .pdpt =
      (fun a : VirtAddr => a.toNat / 2 ^ 30) '' policy.identityWindow :=
    Demand.spans_window (by decide)
  have hlow : policy.identityDemand.spans .pd = ∅ :=
    Demand.spans_window_of_le (by decide)
  rw [Demand.nodes, htop, hmiddle, hlow, Set.ncard_empty]
  rfl

/-- Above the pages of both windows, their spans are those of all the
addresses. -/
theorem spans_demand (policy : Policy) {level : Level}
    (htall : 1 < level.height) :
    policy.demand.spans level = (fun a : VirtAddr => a.toNat / 2 ^ level.shift)
      '' (policy.identityWindow ∪ policy.imageWindow) := by
  have hidentity : PageSize.twoM.level.height < level.height := htall
  have himage : PageSize.fourK.level.height < level.height :=
    Nat.zero_lt_of_lt htall
  rw [demand, Demand.spans_union, identityDemand, Demand.spans_window hidentity,
    Demand.spans_window himage, Set.image_union]
  rfl

theorem nodes_demand (policy : Policy) :
    policy.demand.nodes = policy.nodes := by
  have hlow : policy.demand.spans .pd =
      (fun a : VirtAddr => a.toNat / 2 ^ 21) '' policy.imageWindow := by
    rw [demand, Demand.spans_union, identityDemand,
      Demand.spans_window_of_le (by decide), Demand.spans_window (by decide),
      Set.empty_union]
    rfl
  rw [Demand.nodes, policy.spans_demand (by decide),
    policy.spans_demand (by decide), hlow]
  rfl

end Policy

namespace Manager

/-- Why pages of some addresses cannot be mapped that `demand` asks for, if
nothing is mapped that it does not ask for: an address is not canonical, or the
frames of the pool do not suffice for all of `demand`. -/
inductive Shortage (pool : FramePool) (demand : Demand)
    (addresses : Set VirtAddr) : ManagerError → Prop
  | nonCanonical {a : VirtAddr} (ha : a ∈ addresses)
      (hcanonical : a.isCanonical = false) :
      Shortage pool demand addresses (.map (.nonCanonical a))
  | outOfMemory {level : Level} (hshort : pool.freeCount < demand.nodes) :
      Shortage pool demand addresses (.map (.outOfMemory level))

/-- Why a window cannot be mapped. -/
inductive Hindered (pool : FramePool) (demand : Demand) (va : VirtAddr)
    (pa : PhysAddr) (bytes : Word) : ManagerError → Prop
  | overflow (hends : 2 ^ 64 ≤ va.toNat + bytes.toNat ∨
        2 ^ 64 ≤ pa.toNat + bytes.toNat) :
      Hindered pool demand va pa bytes (.rangeOverflow va bytes)
  | shortage {reason : ManagerError}
      (hshortage : Shortage pool demand (va.window bytes.toNat) reason) :
      Hindered pool demand va pa bytes reason

theorem Shortage.mono {pool : FramePool} {demand : Demand}
    {addresses addresses' : Set VirtAddr} {reason : ManagerError}
    (hshortage : Shortage pool demand addresses reason)
    (hsub : addresses ⊆ addresses') :
    Shortage pool demand addresses' reason := by
  cases hshortage with
  | nonCanonical ha hcanonical => exact .nonCanonical (hsub ha) hcanonical
  | outOfMemory hshort => exact .outOfMemory hshort

/-- A window of canonical addresses that ends in time is hindered only by the
frames. -/
theorem Hindered.outOfMemory {pool : FramePool} {demand : Demand}
    {va : VirtAddr} {pa : PhysAddr} {bytes : Word} {reason : ManagerError}
    (hhindered : Hindered pool demand va pa bytes reason)
    (hva : va.toNat + bytes.toNat < 2 ^ 64)
    (hpa : pa.toNat + bytes.toNat < 2 ^ 64)
    (hcanonical : ∀ a ∈ va.window bytes.toNat, a.isCanonical = true) :
    pool.freeCount < demand.nodes ∧
      ∃ level, reason = .map (.outOfMemory level) := by
  cases hhindered with
  | overflow hends => omega
  | shortage hshortage =>
      cases hshortage with
      | nonCanonical ha hnot => exact absurd (hcanonical _ ha) (by simp [hnot])
      | outOfMemory hshort => exact ⟨hshort, _, rfl⟩

section Window

variable {pool : FramePool} (hpool : pool.Reachable)
  (hlow : pool.Below (2 ^ 52)) {vm : Manager} (hover : vm.MadeOver pool)
  {demand : Demand} (hdemand : vm.demand ⊆ demand) {va : VirtAddr}
  {pa : PhysAddr} {size : PageSize} (flags : Flags)

include hpool hlow hover

/-- What is mapped has its nodes from the pool. -/
theorem nodes_demand_le : vm.demand.nodes ≤ pool.freeCount := by
  have hcount := hover.freeCount_eq hpool hlow
  rw [nodes_demand (hover.tended hpool hlow)]
  omega

include hdemand

/-- Nothing is in the way of a page that `demand` asks for, and nodes for it are
missing only if there are too few for all of `demand`. -/
theorem shortage_of_mapSized (hva : va.isAligned size = true)
    (hpa : pa.isAligned size = true)
    (hpage : Demand.window va size.bytes size ⊆ demand)
    (hsame : ∀ a other, (a, other) ∈ demand → a ∈ va.window size.bytes →
      other = size) {reason : ManagerError}
    (herror : (vm.mapSized va pa size flags).value = .error reason) :
    Shortage pool demand (va.window size.bytes) reason := by
  have htended := hover.tended hpool hlow
  have hfirst : va ∈ va.window size.bytes :=
    ⟨Nat.le_refl _, Nat.lt_add_of_pos_right size.bytes_pos⟩
  obtain ⟨cause, rfl, hrefuses⟩ := (mapSized_eq_error_iff htended).1 herror
  cases hrefuses with
  | nonCanonical hcanonical => exact .nonCanonical hfirst hcanonical
  | unaligned _ haligned =>
      rw [hva, hpa] at haligned
      cases haligned
  | conflict _ _ hblocked =>
      obtain ⟨a, target, ha, hlookup, hne, -⟩ := hblocked
      exact absurd (hsame a _ (hdemand ⟨target, hlookup, rfl⟩) ha) hne
  | outOfMemory hcanonical _ _ hmissing =>
      obtain ⟨hlt, -⟩ := List.getElem?_eq_some_iff.1 hmissing
      have hcount := hover.freeCount_eq hpool hlow
      have hle := tableFrames_add_missing_le htended hdemand
        (hpage ⟨hfirst, rfl⟩) hcanonical
      exact .outOfMemory (by omega)

theorem demand_mapSized_subset
    (hpage : Demand.window va size.bytes size ⊆ demand) :
    (vm.mapSized va pa size flags).state.demand ⊆ demand := by
  have htended := hover.tended hpool hlow
  rintro ⟨a, other⟩ ⟨target, hlookup, rfl⟩
  cases hanswer : (vm.mapSized va pa size flags).value with
  | error reason =>
      rw [(unchanged_of_refused htended hanswer).lookup_eq] at hlookup
      exact hdemand ⟨target, hlookup, rfl⟩
  | ok mapped =>
      have hinstalls := installs_of_forest htended.forest hanswer
      by_cases ha : a ∈ va.window size.bytes
      · rw [hinstalls.inside a ha.1 ha.2] at hlookup
        cases hlookup
        exact hpage ⟨ha, rfl⟩
      · rw [hinstalls.outside a ha] at hlookup
        exact hdemand ⟨target, hlookup, rfl⟩

/-- A number of pages in a row that `demand` asks for. -/
theorem mapPages_budget {count : Nat} (hva : va.isAligned size = true)
    (hpa : pa.isAligned size = true)
    (hvaEnd : va.toNat + count * size.bytes < 2 ^ 64)
    (hpaEnd : pa.toNat + count * size.bytes < 2 ^ 64)
    (hpages : Demand.window va (count * size.bytes) size ⊆ demand)
    (hsame : ∀ a other, (a, other) ∈ demand →
      a ∈ va.window (count * size.bytes) → other = size)
    (events : Array Event) :
    (mapPages size flags count va pa vm events).state.demand ⊆ demand ∧
      ∀ reason,
        (mapPages size flags count va pa vm events).value = .error reason →
          Shortage pool demand (va.window (count * size.bytes)) reason := by
  induction count generalizing vm va pa events with
  | zero => exact ⟨hdemand, fun _ h => by cases h⟩
  | succ count ih =>
      rw [Nat.succ_mul] at hvaEnd hpaEnd hpages hsame ⊢
      have hfirst :
          va.window size.bytes ⊆ va.window (count * size.bytes + size.bytes) :=
        fun a ha => ⟨ha.1, Nat.lt_of_lt_of_le ha.2 (by omega)⟩
      have hpage : Demand.window va size.bytes size ⊆ demand :=
        fun p hp => hpages ⟨hfirst hp.1, hp.2⟩
      have hstep : (vm.mapSized va pa size flags).state.demand ⊆ demand :=
        demand_mapSized_subset hpool hlow hover hdemand flags hpage
      simp only [Manager.mapPages]
      cases hanswer : (vm.mapSized va pa size flags).value with
      | error reason =>
          refine ⟨hstep, fun other hother => ?_⟩
          cases hother
          exact (shortage_of_mapSized hpool hlow hover hdemand flags hva hpa
            hpage (fun a other hmem ha => hsame a other hmem (hfirst ha))
            hanswer).mono hfirst
      | ok mapped =>
          have hva' : (va.wrappingAdd (BitVec.ofNat 64 size.bytes)).toNat =
              va.toNat + size.bytes :=
            Address.toNat_wrappingAdd_bytes (by omega)
          have hpa' : (pa.wrappingAdd (BitVec.ofNat 64 size.bytes)).toNat =
              pa.toNat + size.bytes :=
            Address.toNat_wrappingAdd_bytes (by omega)
          have hrest :
              VirtAddr.window (va.wrappingAdd (BitVec.ofNat 64 size.bytes))
                  (count * size.bytes) ⊆
                va.window (count * size.bytes + size.bytes) := by
            rintro a ⟨hle, hlt⟩
            exact ⟨by omega, by omega⟩
          obtain ⟨hafter, hshort⟩ := ih (hover.mapSized va pa size flags) hstep
            (Address.isAligned_wrappingAdd_bytes hva (by omega))
            (Address.isAligned_wrappingAdd_bytes hpa (by omega)) (by omega)
            (by omega) (fun p hp => hpages ⟨hrest hp.1, hp.2⟩)
            (fun a other hmem ha => hsame a other hmem (hrest ha))
            (events ++ (vm.mapSized va pa size flags).events)
          exact ⟨hafter,
            fun reason hreason => (hshort reason hreason).mono hrest⟩

/-- A window that `demand` asks for. -/
theorem mapRange_budget {bytes : Word} (hbytes : size.isAligned bytes = true)
    (hva : va.isAligned size = true) (hpa : pa.isAligned size = true)
    (hpages : Demand.window va bytes.toNat size ⊆ demand)
    (hsame : ∀ a other, (a, other) ∈ demand → a ∈ va.window bytes.toNat →
      other = size) :
    (vm.mapRange va pa bytes size flags).state.demand ⊆ demand ∧
      ∀ reason, (vm.mapRange va pa bytes size flags).value = .error reason →
        Hindered pool demand va pa bytes reason := by
  rcases vm.mapRange_cases va pa bytes size flags with
    ⟨hrefused, hstate⟩ | ⟨count, hcount, hvaEnd, hpaEnd, hstate, hvalue⟩
  · rw [hstate]
    refine ⟨hdemand, fun reason herror => ?_⟩
    rcases hrefused with ⟨-, hlength⟩ | ⟨hvalue, hends⟩
    · rw [hbytes] at hlength
      cases hlength
    · cases hvalue.symm.trans herror
      exact .overflow hends
  · rw [hcount] at hvaEnd hpaEnd hpages hsame
    obtain ⟨hafter, hshort⟩ := mapPages_budget hpool hlow hover hdemand flags
      hva hpa hvaEnd hpaEnd hpages hsame #[]
    rw [hstate]
    refine ⟨hafter, fun reason herror => ?_⟩
    rw [hvalue] at herror
    apply Hindered.shortage
    rw [hcount]
    apply hshort
    cases hdone : (mapPages size flags count va pa vm #[]).value with
    | ok _ =>
        rw [hdone] at herror
        cases herror
    | error other =>
        rw [hdone] at herror
        cases herror
        rfl

end Window

/-- A request for a window that is carried out adds the window to what is
mapped. -/
theorem subset_demand_mapRange {pool : FramePool} {held : Finset Frame}
    {vm : Manager} (htended : vm.Tended pool held) {va : VirtAddr}
    {pa : PhysAddr} {bytes : Word} {size : PageSize} {flags : Flags}
    (hsame : ∀ a other, (a, other) ∈ vm.demand → a ∈ va.window bytes.toNat →
      other = size) {count : Nat}
    (hok : (vm.mapRange va pa bytes size flags).value = .ok count) :
    vm.demand ∪ .window va bytes.toNat size ⊆
      (vm.mapRange va pa bytes size flags).state.demand := by
  obtain ⟨done, -, hrange, hall⟩ :=
    installsRange_mapRange htended va pa bytes size flags
  rw [hall count hok] at hrange
  have hinside : Demand.window va bytes.toNat size ⊆
      (vm.mapRange va pa bytes size flags).state.demand := by
    rintro ⟨a, _⟩ ⟨ha, rfl⟩
    exact ⟨_, hrange.inside a ha, rfl⟩
  rintro ⟨a, other⟩ (hmem | hmem)
  · by_cases ha : a ∈ va.window bytes.toNat
    · exact hinside ⟨ha, hsame a other hmem ha⟩
    · obtain ⟨target, hlookup, htarget⟩ := hmem
      exact ⟨target, (hrange.outside a ha).trans hlookup, htarget⟩
  · exact hinside hmem

theorem MadeOver.mapRange {pool : FramePool} {vm : Manager}
    (hover : vm.MadeOver pool) (va : VirtAddr) (pa : PhysAddr) (bytes : Word)
    (size : PageSize) (flags : Flags) :
    (vm.mapRange va pa bytes size flags).state.MadeOver pool := by
  rw [← call_mapRange_state]
  exact hover.call (.mapRange va pa bytes size flags)

/-- What is wrong with a range is told together with the stage. -/
theorem mapStage_eq_error {vm : Manager} {stage : Stage} {e : BootstrapError}
    (herror : (vm.mapStage stage).value = .error e) :
    ∃ source, e = .stage stage.part source ∧
      (vm.mapRange stage.va stage.pa stage.bytes stage.size
        stage.flags).value = .error source := by
  simp only [mapStage] at herror
  split at herror
  · cases herror
  · next source hsource =>
      cases herror
      exact ⟨source, rfl, hsource⟩

theorem MadeOver.mapStage {pool : FramePool} {vm : Manager}
    (hover : vm.MadeOver pool) (stage : Stage) :
    (vm.mapStage stage).state.MadeOver pool := by
  rw [(vm.mapStage_eq stage).1]
  exact hover.mapRange _ _ _ _ _

/-- The identity window ends below the image, so what is mapped there is of the
image's size. -/
theorem size_of_mem_image {policy : Policy} (hvalid : policy.validate = .ok ())
    {a : VirtAddr} {size : PageSize} (hmem : (a, size) ∈ policy.demand)
    (ha : a ∈ policy.imageVirt.window policy.imageSize.toNat) :
    size = .fourK := by
  have hapart := Policy.identityBytes_le_of_validate hvalid
  rcases hmem with ⟨hbelow, -⟩ | ⟨-, hsize⟩
  · have hlt : a.toNat < policy.identityBytes.toNat :=
      VirtAddr.mem_window_zero.1 hbelow
    have hge := ha.1
    omega
  · exact hsize

section Build

variable {pool : FramePool} (hpool : pool.Reachable)
  (hlow : pool.Below (2 ^ 52)) {vm : Manager} (hover : vm.MadeOver pool)

include hpool hlow hover

theorem mapStage_budget (stage : Stage) {demand : Demand}
    (hdemand : vm.demand ⊆ demand)
    (hbytes : stage.size.isAligned stage.bytes = true)
    (hva : stage.va.isAligned stage.size = true)
    (hpa : stage.pa.isAligned stage.size = true)
    (hpages : Demand.window stage.va stage.bytes.toNat stage.size ⊆ demand)
    (hsame : ∀ a other, (a, other) ∈ demand →
      a ∈ stage.va.window stage.bytes.toNat → other = stage.size) :
    (vm.mapStage stage).state.demand ⊆ demand ∧
      ((vm.mapStage stage).value = .ok () →
        vm.demand ∪ .window stage.va stage.bytes.toNat stage.size ⊆
          (vm.mapStage stage).state.demand) ∧
      ∀ e, (vm.mapStage stage).value = .error e →
        ∃ source, e = .stage stage.part source ∧
          Hindered pool demand stage.va stage.pa stage.bytes source := by
  obtain ⟨hstate, hrange⟩ := vm.mapStage_eq stage
  obtain ⟨hafter, hhindered⟩ := mapRange_budget hpool hlow hover hdemand
    stage.flags hbytes hva hpa hpages hsame
  rw [hstate]
  refine ⟨hafter, fun hok => ?_, fun e herror => ?_⟩
  · obtain ⟨pages, hpages⟩ := hrange hok
    exact subset_demand_mapRange (hover.tended hpool hlow)
      (fun a other hmem => hsame a other (hdemand hmem)) hpages
  · obtain ⟨source, rfl, hsource⟩ := mapStage_eq_error herror
    exact ⟨source, rfl, hhindered source hsource⟩

variable {policy : Policy} (hvalid : policy.validate = .ok ())

include hvalid

theorem mapIdentity_budget (hempty : vm.demand = ∅) :
    (vm.mapIdentity policy).state.demand ⊆ policy.identityDemand ∧
      ((vm.mapIdentity policy).value = .ok () →
        policy.identityDemand ⊆ (vm.mapIdentity policy).state.demand) ∧
      ∀ e, (vm.mapIdentity policy).value = .error e →
        ∃ source, e = .stage .identity source ∧
          Hindered pool policy.identityDemand ⟨0⟩ ⟨0⟩ policy.identityBytes
            source := by
  obtain ⟨hbytes, -⟩ := Policy.validate_eq_ok_iff.1 hvalid
  have hnothing : vm.demand ⊆ policy.identityDemand :=
    hempty ▸ Set.empty_subset _
  have hva : Address.isAligned .twoM (⟨0⟩ : VirtAddr) = true := by decide
  have hpa : Address.isAligned .twoM (⟨0⟩ : PhysAddr) = true := by decide
  obtain ⟨hafter, hall, hhindered⟩ := mapStage_budget hpool hlow hover
    policy.identityStage hnothing hbytes hva hpa subset_rfl
    fun _ _ hmem _ => hmem.2
  exact ⟨hafter, fun hok => Set.subset_union_right.trans (hall hok), hhindered⟩

theorem mapImage_budget (hdemand : vm.demand ⊆ policy.identityDemand) :
    ((vm.mapImage policy).value = .ok () →
        vm.demand ∪
            .window policy.imageVirt policy.imageSize.toNat .fourK ⊆
          (vm.mapImage policy).state.demand) ∧
      ∀ e, (vm.mapImage policy).value = .error e →
        ∃ source, e = .stage .kernelImage source ∧
          Hindered pool policy.demand policy.imageVirt policy.imagePhys
            policy.imageSize source := by
  obtain ⟨-, ⟨hpa, hva⟩, hbytes, -⟩ := Policy.validate_eq_ok_iff.1 hvalid
  have hall : vm.demand ⊆ policy.demand :=
    hdemand.trans Set.subset_union_left
  exact (mapStage_budget hpool hlow hover policy.imageStage hall hbytes hva hpa
    Set.subset_union_right fun a other => size_of_mem_image hvalid).2

/-- If the tree is built there are frames for it, and if it is not, the stage
that failed was hindered. -/
theorem build_budget (hempty : vm.demand = ∅) :
    ((vm.build policy).value = .ok () → policy.demand.nodes ≤ pool.freeCount) ∧
      ∀ e, (vm.build policy).value = .error e →
        (∃ source, e = .stage .identity source ∧
            Hindered pool policy.identityDemand ⟨0⟩ ⟨0⟩
              policy.identityBytes source) ∨
          ∃ source, e = .stage .kernelImage source ∧
            policy.identityDemand.nodes ≤ pool.freeCount ∧
            Hindered pool policy.demand policy.imageVirt policy.imagePhys
              policy.imageSize source := by
  obtain ⟨hsub, hidentity, hhindered⟩ :=
    mapIdentity_budget hpool hlow hover hvalid hempty
  have hover₁ := hover.mapStage policy.identityStage
  obtain ⟨himage, hhindered'⟩ := mapImage_budget hpool hlow hover₁ hvalid hsub
  have hover₂ := hover₁.mapStage policy.imageStage
  cases hfirst : (vm.mapIdentity policy).value with
  | error e =>
      have hbuild : (vm.build policy).value = .error e := by
        simp only [build, hvalid, hfirst]
      rw [hbuild]
      refine ⟨fun h => (by cases h), fun other hother => ?_⟩
      cases hother
      exact Or.inl (hhindered e hfirst)
  | ok _ =>
      have hbuild : (vm.build policy).value =
          ((vm.mapIdentity policy).state.mapImage policy).value := by
        simp only [build, hvalid, hfirst]
      have hall := hidentity hfirst
      rw [hbuild]
      constructor
      · intro hok
        have hdemand : policy.demand ⊆
            ((vm.mapIdentity policy).state.mapImage policy).state.demand :=
          (Set.union_subset_union_left _ hall).trans (himage hok)
        exact (Demand.nodes_mono hdemand).trans
          (nodes_demand_le hpool hlow hover₂)
      · intro e herror
        obtain ⟨source, he, hsource⟩ := hhindered' e herror
        exact Or.inr ⟨source, he,
          (Demand.nodes_mono hall).trans (nodes_demand_le hpool hlow hover₁),
          hsource⟩

end Build

/-- A window that does not reach into the hole of the address range has
canonical addresses only. -/
theorem isCanonical_of_mem_window {va a : VirtAddr} {bytes : Nat}
    (hhalf : va.toNat + bytes ≤ 2 ^ 47 ∨ 2 ^ 64 - 2 ^ 47 ≤ va.toNat)
    (ha : a ∈ va.window bytes) : a.isCanonical = true := by
  rw [VirtAddr.isCanonical_iff]
  have hge := ha.1
  have hlt := ha.2
  omega

/-- Nothing that an accepted policy asks for is in its own way, unaligned or not
a whole number of pages. -/
theorem Hindered.not_refused {pool : FramePool} {demand : Demand}
    {va : VirtAddr} {pa : PhysAddr} {bytes : Word} {reason : ManagerError}
    (hhindered : Hindered pool demand va pa bytes reason) :
    (∀ a level, reason ≠ .map (.conflict a level)) ∧
      (∀ a b size, reason ≠ .map (.unaligned a b size)) ∧
      ∀ length size, reason ≠ .rangeLength length size := by
  cases hhindered with
  | overflow hends => simp
  | shortage hshortage => cases hshortage <;> simp

/-- A new manager that builds the tree of a policy that is accepted never finds
anything in the way.  If the windows end inside the address range and leave the
hole in it out, the tree is built exactly if the frames of the pool suffice for
its nodes, next to those that were handed out before; and else memory runs out,
in the identity window exactly if the frames do not suffice for the nodes of
that window alone. -/
theorem build_outcome {mem : Memory} {vm : Manager} (hpool : mem.pool.Reachable)
    (hlow : mem.pool.Below (2 ^ 52))
    (hmade : (Manager.create mem).value = .ok vm) {policy : Policy}
    (hvalid : policy.validate = .ok ()) :
    (∀ part source, (vm.build policy).value = .error (.stage part source) →
        (∀ a level, source ≠ .map (.conflict a level)) ∧
          (∀ a b size, source ≠ .map (.unaligned a b size)) ∧
          ∀ length size, source ≠ .rangeLength length size) ∧
      (policy.identityBytes.toNat ≤ 2 ^ 47 →
        (policy.imageVirt.toNat + policy.imageSize.toNat ≤ 2 ^ 47 ∨
          2 ^ 64 - 2 ^ 47 ≤ policy.imageVirt.toNat) →
        policy.imageVirt.toNat + policy.imageSize.toNat < 2 ^ 64 →
        policy.imagePhys.toNat + policy.imageSize.toNat < 2 ^ 64 →
        ((vm.build policy).value = .ok () ↔
            policy.nodes + mem.pool.allocatedCount ≤ mem.pool.capacity) ∧
          (mem.pool.capacity < policy.nodes + mem.pool.allocatedCount →
            ∃ part level,
              (vm.build policy).value =
                  .error (.stage part (.map (.outOfMemory level))) ∧
                (part = .identity ↔
                  mem.pool.capacity <
                    policy.identityNodes + mem.pool.allocatedCount))) := by
  have hempty : vm.demand = ∅ := by
    apply Set.eq_empty_of_forall_notMem
    rintro ⟨a, size⟩ ⟨target, hlookup, -⟩
    rw [lookup_create hpool.valid hmade] at hlookup
    cases hlookup
  have hover : vm.MadeOver mem.pool := .create hmade
  have hcapacity := FramePool.freeCount_add_allocatedCount hpool.valid
  obtain ⟨hok, herror⟩ := build_budget hpool hlow hover hvalid hempty
  have hmono : policy.identityNodes ≤ policy.nodes := by
    rw [← Policy.nodes_identityDemand, ← Policy.nodes_demand]
    exact Demand.nodes_mono Set.subset_union_left
  rw [Policy.nodes_demand] at hok
  rw [Policy.nodes_identityDemand] at herror
  constructor
  · intro part source hsource
    rcases herror _ hsource with
      ⟨_, hstage, hhindered⟩ | ⟨_, hstage, -, hhindered⟩
    · cases hstage
      exact hhindered.not_refused
    · cases hstage
      exact hhindered.not_refused
  · intro hidentity hhalf hvirt hphys
    have hstarved : ∀ e, (vm.build policy).value = .error e →
        mem.pool.freeCount < policy.nodes ∧
          ∃ part level, e = .stage part (.map (.outOfMemory level)) ∧
            (part = .identity ↔ mem.pool.freeCount < policy.identityNodes) := by
      intro e he
      rcases herror e he with
        ⟨source, rfl, hhindered⟩ | ⟨source, rfl, hfits, hhindered⟩
      · obtain ⟨hshort, level, rfl⟩ := hhindered.outOfMemory
          (by change 0 + _ < _; omega) (by change 0 + _ < _; omega) fun a =>
            isCanonical_of_mem_window (Or.inl (by change 0 + _ ≤ _; omega))
        rw [Policy.nodes_identityDemand] at hshort
        exact ⟨by omega, .identity, level, rfl, iff_of_true rfl hshort⟩
      · obtain ⟨hshort, level, rfl⟩ := hhindered.outOfMemory hvirt hphys
          fun a => isCanonical_of_mem_window hhalf
        rw [Policy.nodes_demand] at hshort
        exact ⟨hshort, .kernelImage, level, rfl,
          iff_of_false (by simp) (by omega)⟩
    cases hbuilt : (vm.build policy).value with
    | ok _ =>
        have hle := hok hbuilt
        exact ⟨iff_of_true rfl (by omega), fun hshort => by omega⟩
    | error e =>
        obtain ⟨hshort, part, level, rfl, hpart⟩ := hstarved e hbuilt
        refine ⟨iff_of_false (by simp) (by omega),
          fun _ => ⟨part, level, rfl, ?_⟩⟩
        rw [hpart]
        omega

/-- A placement whose image has a page on either side of a boundary of the
topmost spans. -/
def straddling : Placement :=
  { physLoad := ⟨0x100000⟩
    virtBase := ⟨0xFFFFFF7FFFFFF000⟩
    imageSize := 0x2000
    identityBytes := 0x200000 }

/-- Eight frames suffice for the one placement, and are one too few for the
other. -/
theorem build_outcome_small :
    ((small.build (.ofPlacement onePage)).value = .ok () ∧
        (Policy.ofPlacement onePage).nodes ≤ 8) ∧
      (small.build (.ofPlacement straddling)).value =
          .error (.stage .kernelImage (.map (.outOfMemory .pt))) ∧
        8 < (Policy.ofPlacement straddling).nodes ∧
        (Policy.ofPlacement straddling).identityNodes ≤ 8 := by
  have hpool := FramePool.reachable_of_ofRegion FramePool.ofRegion_small
  have hone : (small.build (.ofPlacement onePage)).value = .ok () := by
    decide +kernel
  have htwo : (small.build (.ofPlacement straddling)).value =
      .error (.stage .kernelImage (.map (.outOfMemory .pt))) := by
    decide +kernel
  have hvalid : (Policy.ofPlacement onePage).validate = .ok () := by decide
  have hvalid' : (Policy.ofPlacement straddling).validate = .ok () := by decide
  obtain ⟨-, hfirst⟩ :=
    build_outcome hpool FramePool.below_small create_small hvalid
  obtain ⟨hfits, -⟩ := hfirst (by decide) (by decide) (by decide) (by decide)
  obtain ⟨-, hsecond⟩ :=
    build_outcome hpool FramePool.below_small create_small hvalid'
  obtain ⟨hnot, hstarved⟩ :=
    hsecond (by decide) (by decide) (by decide) (by decide)
  have hfit : (Policy.ofPlacement onePage).nodes ≤ 8 := hfits.1 hone
  have hshort : 8 < (Policy.ofPlacement straddling).nodes := by
    by_contra hle
    cases htwo.symm.trans (hnot.2 (Nat.le_of_not_lt hle))
  obtain ⟨part, level, hstage, hpart⟩ := hstarved hshort
  cases htwo.symm.trans hstage
  have hidentity : (Policy.ofPlacement straddling).identityNodes ≤ 8 := by
    by_contra hlt
    cases hpart.2 (Nat.lt_of_not_le hlt)
  exact ⟨⟨hone, hfit⟩, htwo, hshort, hidentity⟩

end Manager

end FourLevelPaging
