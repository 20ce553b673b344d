/-
The first tree of the kernel.  If it is built, low memory is mapped to itself
and the image to where the placement says it was loaded, and nothing else is
mapped: the one comparison of the policy keeps the two windows apart.
-/
import FourLevelPaging.Proofs.Manager.Range

namespace FourLevelPaging

/-- What it takes for a policy to be accepted. -/
theorem Policy.validate_eq_ok_iff {policy : Policy} :
    policy.validate = .ok () ↔
      PageSize.twoM.isAligned policy.identityBytes = true ∧
        (policy.imagePhys.isAligned .fourK = true ∧
          policy.imageVirt.isAligned .fourK = true) ∧
        PageSize.fourK.isAligned policy.imageSize = true ∧
        policy.imageVirt.isCanonical = true ∧
        policy.identityBytes.toNat ≤ policy.imageVirt.toNat := by
  have hfault : policy.validate = .ok () ↔ policy.fault? = none := by
    unfold validate
    split
    · next hfault => simp [hfault]
    · next hfault => simp [hfault]
  rw [hfault, fault?]
  constructor
  · intro hnone
    split_ifs at hnone with hidentity hbase hsize hcanonical hoverlaps
    exact ⟨by simpa using hidentity, by simpa using hbase, by simpa using hsize,
      by simpa using hcanonical, Nat.le_of_not_lt hoverlaps⟩
  · rintro ⟨hidentity, ⟨hphys, hvirt⟩, hsize, hcanonical, hle⟩
    simp [hidentity, hphys, hvirt, hsize, hcanonical, Nat.not_lt.2 hle]

/-- A policy that is accepted keeps the image above the identity window. -/
theorem Policy.identityBytes_le_of_validate {policy : Policy}
    (hvalid : policy.validate = .ok ()) :
    policy.identityBytes.toNat ≤ policy.imageVirt.toNat :=
  (validate_eq_ok_iff.1 hvalid).2.2.2.2

namespace Placement

variable {place : Placement} {va : VirtAddr}

theorem containsVirt_iff :
    place.containsVirt va = true ↔
      va ∈ place.virtBase.window place.imageSize.toNat := by
  simp only [containsVirt, Bool.and_eq_true, decide_eq_true_eq]
  change _ ↔ place.virtBase.toNat ≤ va.toNat ∧
    va.toNat < place.virtBase.toNat + place.imageSize.toNat
  omega

/-- The image is mapped to where the placement says that it lies, if it was
loaded below `2 ^ 52`. -/
theorem lookup_image {before after : VirtAddr → Option Target}
    (himage : InstallsRange before after place.virtBase place.physLoad
      place.imageSize.toNat .fourK Policy.imageFlags)
    (hplace : place.physLoad.toNat + place.imageSize.toNat ≤ 2 ^ 52)
    (hcontains : place.containsVirt va = true) :
    ∃ pa, place.imagePhys va = .ok (some pa) ∧
      after va = some ⟨pa, .fourK, .kernelRW⟩ := by
  have hinside := containsVirt_iff.1 hcontains
  have hge := hinside.1
  have hlt := hinside.2
  have hphys : place.imagePhys va =
      .ok (some (.ofNat (place.physLoad.toNat +
        (va.toNat - place.virtBase.toNat)))) := by
    rw [imagePhys, if_pos hcontains, if_pos (by omega)]
  refine ⟨_, hphys, ?_⟩
  rw [himage.inside va hinside, Nat.mod_eq_of_lt (by omega)]
  exact congrArg some ((Target.mk.injEq ..).mpr ⟨rfl, rfl, by decide⟩)

end Placement

namespace Manager

variable {vm : Manager} {policy : Policy} {pool : FramePool}
  {held : Finset Frame}

/-- A stage is a range, and is mapped if the range is. -/
theorem mapStage_eq (vm : Manager) (stage : Stage) :
    (vm.mapStage stage).state =
        (vm.mapRange stage.va stage.pa stage.bytes stage.size
          stage.flags).state ∧
      ((vm.mapStage stage).value = .ok () → ∃ pages,
        (vm.mapRange stage.va stage.pa stage.bytes stage.size
          stage.flags).value = .ok pages) := by
  simp only [mapStage]
  split
  · next pages hpages => exact ⟨rfl, fun _ => ⟨pages, hpages⟩⟩
  · exact ⟨rfl, fun h => by cases h⟩

theorem tended_mapStage (htended : vm.Tended pool held) (stage : Stage) :
    (vm.mapStage stage).state.Tended pool held := by
  rw [(vm.mapStage_eq stage).1]
  exact tended_mapRange htended _ _ _ _ _

theorem installsRange_mapStage (htended : vm.Tended pool held) {stage : Stage}
    (hok : (vm.mapStage stage).value = .ok ()) :
    InstallsRange vm.lookup (vm.mapStage stage).state.lookup stage.va stage.pa
      stage.bytes.toNat stage.size stage.flags := by
  obtain ⟨hstate, hpages⟩ := vm.mapStage_eq stage
  obtain ⟨pages, hpages⟩ := hpages hok
  obtain ⟨done, -, hinstalls, hall⟩ := installsRange_mapRange htended stage.va
    stage.pa stage.bytes stage.size stage.flags
  rw [hall pages hpages] at hinstalls
  rw [hstate]
  exact hinstalls

/-- How far the first tree gets: not at all if the policy is not accepted, and
else to the end of the identity window or to that of the image. -/
theorem build_cases (vm : Manager) (policy : Policy) :
    ((vm.build policy).state = vm ∧ ∃ e, (vm.build policy).value = .error e) ∨
      policy.identityBytes.toNat ≤ policy.imageVirt.toNat ∧
        (((vm.build policy).state = (vm.mapIdentity policy).state ∧
            ∃ e, (vm.build policy).value = .error e) ∨
          (vm.build policy).state =
              ((vm.mapIdentity policy).state.mapImage policy).state ∧
            (vm.mapIdentity policy).value = .ok () ∧
            (vm.build policy).value =
              ((vm.mapIdentity policy).state.mapImage policy).value) := by
  simp only [build]
  split
  · next e _ => exact Or.inl ⟨rfl, e, rfl⟩
  · next hvalid =>
      refine Or.inr ⟨Policy.identityBytes_le_of_validate hvalid, ?_⟩
      split
      · next e _ => exact Or.inl ⟨rfl, e, rfl⟩
      · next hidentity => exact Or.inr ⟨rfl, hidentity, rfl⟩

theorem tended_build (htended : vm.Tended pool held) (policy : Policy) :
    (vm.build policy).state.Tended pool held := by
  have hstate : (vm.call (.build policy)).state = (vm.build policy).state := by
    simp only [Manager.call]
    split <;> rfl
  rw [← hstate]
  exact tended_call htended (.build policy)

/-- What is mapped once the first tree is built. -/
theorem installsRange_build (htended : vm.Tended pool held)
    (hbuilt : (vm.build policy).value = .ok ()) :
    policy.identityBytes.toNat ≤ policy.imageVirt.toNat ∧ ∃ mid : Manager,
      InstallsRange vm.lookup mid.lookup ⟨0⟩ ⟨0⟩ policy.identityBytes.toNat
          .twoM Policy.identityFlags ∧
        InstallsRange mid.lookup (vm.build policy).state.lookup policy.imageVirt
          policy.imagePhys policy.imageSize.toNat .fourK Policy.imageFlags := by
  rcases vm.build_cases policy with
    ⟨-, e, herror⟩ | ⟨hapart, ⟨-, e, herror⟩ | ⟨hstate, hidentity, himage⟩⟩
  · rw [hbuilt] at herror
    cases herror
  · rw [hbuilt] at herror
    cases herror
  · rw [hstate]
    exact ⟨hapart, _, installsRange_mapStage htended hidentity,
      installsRange_mapStage (tended_mapStage htended _)
        (himage.symm.trans hbuilt)⟩

/-- Only canonical addresses are mapped, so an identity window that is mapped
ends below the hole in the address range. -/
theorem identityBytes_le {before : VirtAddr → Option Target} {bytes : Nat}
    {size : PageSize} {flags : Flags}
    (hidentity : InstallsRange before vm.lookup ⟨0⟩ ⟨0⟩ bytes size flags) :
    bytes ≤ 2 ^ 47 := by
  by_contra hlt
  have hinside := hidentity.inside ⟨0x800000000000⟩
    (VirtAddr.mem_window_zero.2 (Nat.lt_of_not_le hlt))
  rw [lookup, AddressSpace.lookup_of_not_canonical (by decide)] at hinside
  cases hinside

/-- Low memory is mapped to itself. -/
theorem lookup_identity {before : VirtAddr → Option Target} {bytes : Nat}
    (hidentity : InstallsRange before vm.lookup ⟨0⟩ ⟨0⟩ bytes .twoM
      Policy.identityFlags)
    {va : VirtAddr} (hlt : va.toNat < bytes) :
    vm.lookup va = some ⟨⟨va.bits⟩, .twoM, .kernelRWHuge⟩ := by
  have hbytes := identityBytes_le hidentity
  have hself : (.ofNat ((0 + (va.toNat - 0)) % 2 ^ 52) : PhysAddr) =
      ⟨va.bits⟩ := by
    apply Address.toNat_inj.1
    rw [Nat.zero_add, Nat.sub_zero, Nat.mod_eq_of_lt (by omega)]
    exact Address.toNat_ofNat_of_lt va.toNat_lt
  rw [hidentity.inside va (VirtAddr.mem_window_zero.2 hlt)]
  exact congrArg some ((Target.mk.injEq ..).mpr ⟨hself, rfl, by decide⟩)

/-- A new manager that has built the tree of a placement maps low memory to
itself, the image to where the placement says that it lies, and nothing else. -/
theorem lookup_build {mem : Memory} {vm : Manager} (hpool : mem.pool.Reachable)
    (hlow : mem.pool.Below (2 ^ 52))
    (hmade : (Manager.create mem).value = .ok vm) {place : Placement}
    (hplace : place.physLoad.toNat + place.imageSize.toNat ≤ 2 ^ 52)
    (hbuilt : (vm.build (.ofPlacement place)).value = .ok ()) (va : VirtAddr) :
    (va.toNat < place.identityBytes.toNat →
        (vm.build (.ofPlacement place)).state.lookup va =
          some ⟨⟨va.bits⟩, .twoM, .kernelRWHuge⟩) ∧
      (place.identityBytes.toNat ≤ va.toNat → place.containsVirt va = true →
        ∃ pa, place.imagePhys va = .ok (some pa) ∧
          (vm.build (.ofPlacement place)).state.lookup va =
            some ⟨pa, .fourK, .kernelRW⟩) ∧
      (place.identityBytes.toNat ≤ va.toNat → place.containsVirt va = false →
        (vm.build (.ofPlacement place)).state.lookup va = none) := by
  obtain ⟨pool, held, htended⟩ := (Reachable.create hpool hlow hmade).tended
  obtain ⟨hapart, mid, hidentity, himage⟩ := installsRange_build htended hbuilt
  change place.identityBytes.toNat ≤ place.virtBase.toNat at hapart
  refine ⟨?_, fun _ hcontains => Placement.lookup_image himage hplace hcontains,
    ?_⟩
  · intro hlt
    have hbelow : va ∉ place.virtBase.window place.imageSize.toNat :=
      fun ha => by
      have hge := ha.1
      omega
    rw [himage.outside va hbelow]
    exact lookup_identity hidentity hlt
  · intro hge hcontains
    have hnot : va ∉ place.virtBase.window place.imageSize.toNat := by
      rw [← Placement.containsVirt_iff, hcontains]
      decide
    have hnot' : va ∉ VirtAddr.window ⟨0⟩ place.identityBytes.toNat := by
      rw [VirtAddr.mem_window_zero]
      omega
    rw [himage.outside va hnot]
    exact (hidentity.outside va hnot').trans
      (lookup_create hpool.valid hmade va)

/-- A placement of one huge page and an image of one page. -/
def onePage : Placement :=
  { physLoad := ⟨0x100000⟩
    virtBase := ⟨0xFFFFFFFF80000000⟩
    imageSize := 0x1000
    identityBytes := 0x200000 }

/-- The first tree of a small kernel, over eight frames. -/
theorem lookup_build_onePage :
    (small.build (.ofPlacement onePage)).value = .ok () ∧
      (small.build (.ofPlacement onePage)).state.lookup ⟨0x1234⟩ =
        some ⟨⟨0x1234⟩, .twoM, .kernelRWHuge⟩ ∧
      (small.build (.ofPlacement onePage)).state.lookup ⟨0xFFFFFFFF80000234⟩ =
        some ⟨⟨0x100234⟩, .fourK, .kernelRW⟩ ∧
      (small.build (.ofPlacement onePage)).state.lookup ⟨0x200000⟩ = none := by
  have hbuilt : (small.build (.ofPlacement onePage)).value = .ok () := by
    decide +kernel
  have hlookup :=
    lookup_build (FramePool.reachable_of_ofRegion FramePool.ofRegion_small)
      FramePool.below_small create_small (by decide) hbuilt
  obtain ⟨pa, himage, hmapped⟩ :=
    (hlookup ⟨0xFFFFFFFF80000234⟩).2.1 (by decide) (by decide)
  obtain rfl : pa = ⟨0x100234⟩ := by
    have hphys : onePage.imagePhys ⟨0xFFFFFFFF80000234⟩ =
        .ok (some ⟨0x100234⟩) := by decide
    rw [himage] at hphys
    exact Option.some.inj (Except.ok.inj hphys)
  exact ⟨hbuilt, (hlookup ⟨0x1234⟩).1 (by decide), hmapped,
    (hlookup ⟨0x200000⟩).2.2 (by decide) (by decide)⟩

end Manager

end FourLevelPaging
