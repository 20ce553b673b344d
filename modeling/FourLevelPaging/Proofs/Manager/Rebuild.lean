/-
Building the kernel's first tree where it is built already.  Each page replaces
itself, since the two windows that a policy asks for lie apart, so memory stays
as it is; what the processor is told of is every page, once.
-/
import FourLevelPaging.Proofs.AddressSpace.InPlace
import FourLevelPaging.Proofs.Manager.RangeOutcome
import FourLevelPaging.Proofs.Manager.Refusal

namespace FourLevelPaging

/-- The bases of a number of pages in a row. -/
def VirtAddr.pages (va : VirtAddr) (size : PageSize) (count : Nat) :
    List VirtAddr :=
  (List.range count).map (va.nthPage size)

namespace VirtAddr

variable {va : VirtAddr} {size : PageSize} {count : Nat}

theorem pages_succ (va : VirtAddr) (size : PageSize) (count : Nat) :
    va.pages size (count + 1) =
      va :: pages (va.wrappingAdd (BitVec.ofNat 64 size.bytes)) size count := by
  rw [pages, List.range_succ_eq_map, List.map_cons, List.map_map,
    Address.nthPage_zero, pages]
  congr 1
  exact List.map_congr_left fun k _ => Address.nthPage_succ va size k

theorem mem_window_of_mem_pages (hend : va.toNat + count * size.bytes ≤ 2 ^ 64)
    {a : VirtAddr} (ha : a ∈ va.pages size count) :
    a ∈ va.window (count * size.bytes) := by
  obtain ⟨k, hk, rfl⟩ := List.mem_map.1 ha
  have hlt : (k + 1) * size.bytes ≤ count * size.bytes :=
    Nat.mul_le_mul_right _ (List.mem_range.1 hk)
  have hbytes := size.bytes_pos
  rw [Nat.succ_mul] at hlt
  have hbase : (va.nthPage size k).toNat = va.toNat + k * size.bytes :=
    Address.toNat_ofNat_of_lt (by omega)
  exact ⟨by omega, by omega⟩

/-- Pages in a row that do not wrap around come in increasing order. -/
theorem pairwise_pages (hend : va.toNat + count * size.bytes ≤ 2 ^ 64) :
    (va.pages size count).Pairwise fun a b => a.toNat < b.toNat := by
  refine List.pairwise_map.2
    (List.pairwise_lt_range.imp_of_mem fun {j k} hj hk hlt => ?_)
  have hle : (j + 1) * size.bytes ≤ k * size.bytes := Nat.mul_le_mul_right _ hlt
  have hle' : (k + 1) * size.bytes ≤ count * size.bytes :=
    Nat.mul_le_mul_right _ (List.mem_range.1 hk)
  have hbytes := size.bytes_pos
  rw [Nat.succ_mul] at hle hle'
  have hfirst : (va.nthPage size j).toNat = va.toNat + j * size.bytes :=
    Address.toNat_ofNat_of_lt (by omega)
  have hsecond : (va.nthPage size k).toNat = va.toNat + k * size.bytes :=
    Address.toNat_ofNat_of_lt (by omega)
  omega

end VirtAddr

/-- The bases of all the pages of a policy, those of the identity window
first. -/
def Policy.pages (policy : Policy) : List VirtAddr :=
  VirtAddr.pages ⟨0⟩ .twoM (policy.identityBytes.toNat / PageSize.twoM.bytes) ++
    policy.imageVirt.pages .fourK
      (policy.imageSize.toNat / PageSize.fourK.bytes)

namespace Manager

/-- From `vm` to `after` nothing in memory changed, and the processor was told
to drop the given pages, in order, if the space is active. -/
structure Refreshed (vm after : Manager) (pages : List VirtAddr) : Prop where
  space_eq : after.space = vm.space
  memory : vm.memory.Alike after.memory
  active_eq : after.active = vm.active
  invalidated_eq : after.mmu.invalidated =
    vm.mmu.invalidated ++ if vm.active then pages.toArray else #[]

variable {vm mid after : Manager} {pool : FramePool} {held : Finset Frame}
  {va : VirtAddr} {pa : PhysAddr} {bytes : Word} {size : PageSize}
  {flags : Flags} {count : Nat}

namespace Refreshed

theorem nothing (vm : Manager) : vm.Refreshed vm [] := by
  refine ⟨rfl, .refl _, rfl, ?_⟩
  split <;> exact Array.append_empty.symm

theorem trans {pages pages' : List VirtAddr} (h : vm.Refreshed mid pages)
    (h' : mid.Refreshed after pages') :
    vm.Refreshed after (pages ++ pages') := by
  refine ⟨h'.space_eq.trans h.space_eq, h.memory.trans h'.memory,
    h'.active_eq.trans h.active_eq, ?_⟩
  rw [h'.invalidated_eq, h.invalidated_eq, h.active_eq, Array.append_assoc]
  split
  · rw [List.append_toArray pages pages']
  · rw [Array.append_empty]

/-- The nodes and all of their entries are the same, and so is what is
mapped. -/
theorem keptBut {pages : List VirtAddr} (h : vm.Refreshed after pages)
    (htended : vm.Tended pool held) :
    vm.KeptBut [] after ∧ after.lookup = vm.lookup :=
  keptBut_of_restored htended.forest h.space_eq
    (h.memory.restored htended.forest.valid) fun _ hmem => nomatch hmem

end Refreshed

/-- A page of the kernel that is mapped as it is mapped already is refreshed. -/
theorem mapSized_in_place (htended : vm.Tended pool held)
    (huser : flags.has .user = false) (hva : va.isAligned size = true)
    (hpa : pa.isAligned size = true) (hlookup : vm.lookup va = some
      { phys := .ofNat (pa.toNat % 2 ^ 52)
        size
        flags := (flags.sanitized.put .present true).put .huge size.isHuge }) :
    (vm.mapSized va pa size flags).value =
        .ok ⟨size, some (size.leaf pa flags)⟩ ∧
      vm.Refreshed (vm.mapSized va pa size flags).state [va] := by
  obtain ⟨hcanonical, node, hleaf⟩ :=
    AddressSpace.leafAt_of_lookup htended.forest
      (List.mem_singleton_self _) hva hpa hlookup
  obtain ⟨hvalue, halike⟩ :=
    AddressSpace.mapSized_in_place hcanonical hva hpa huser hleaf
  have hok : (vm.mapSized va pa size flags).value =
      .ok ⟨size, some (size.leaf pa flags)⟩ :=
    afterMap_eq_ok_iff.2 hvalue
  have htold := vm.told_mapSized va pa size flags
  rw [hok] at htold
  refine ⟨hok, (vm.afterMap_state va _).1, ?_, htold.active_eq, ?_⟩
  · rw [memory_mapSized]
    exact halike
  · rw [htold.invalidated_eq]
    rfl

/-- Pages in a row that are mapped already. -/
theorem mapPages_in_place (htended : vm.Tended pool held)
    (huser : flags.has .user = false) (hva : va.isAligned size = true)
    (hpa : pa.isAligned size = true)
    (hvaEnd : va.toNat + count * size.bytes < 2 ^ 64)
    (hpaEnd : pa.toNat + count * size.bytes < 2 ^ 64)
    (hmapped : InstallsRange vm.lookup vm.lookup va pa (count * size.bytes)
      size flags) (events : Array Event) :
    (mapPages size flags count va pa vm events).value = .ok () ∧
      vm.Refreshed (mapPages size flags count va pa vm events).state
        (va.pages size count) := by
  induction count generalizing vm va pa events with
  | zero => exact ⟨rfl, .nothing vm⟩
  | succ count ih =>
      have hbytes := size.bytes_pos
      rw [Nat.succ_mul] at hvaEnd hpaEnd hmapped
      have hfirst := hmapped.inside va ⟨Nat.le_refl _, by omega⟩
      rw [Nat.sub_self, Nat.add_zero] at hfirst
      obtain ⟨hok, hpage⟩ := mapSized_in_place htended huser hva hpa hfirst
      have hva' : (va.wrappingAdd (BitVec.ofNat 64 size.bytes)).toNat =
          va.toNat + size.bytes := Address.toNat_wrappingAdd_bytes (by omega)
      have hpa' : (pa.wrappingAdd (BitVec.ofNat 64 size.bytes)).toNat =
          pa.toNat + size.bytes := Address.toNat_wrappingAdd_bytes (by omega)
      have hrest : InstallsRange (vm.mapSized va pa size flags).state.lookup
          (vm.mapSized va pa size flags).state.lookup
          (va.wrappingAdd (BitVec.ofNat 64 size.bytes))
          (pa.wrappingAdd (BitVec.ofNat 64 size.bytes)) (count * size.bytes)
          size flags := by
        rw [(hpage.keptBut htended).2]
        refine ⟨fun a ha => ?_, fun _ _ => rfl⟩
        have hge := ha.1
        have hlt := ha.2
        have hsum : (pa.wrappingAdd (BitVec.ofNat 64 size.bytes)).toNat +
            (a.toNat - (va.wrappingAdd (BitVec.ofNat 64 size.bytes)).toNat) =
              pa.toNat + (a.toNat - va.toNat) := by omega
        rw [hmapped.inside a ⟨by omega, by omega⟩, hsum]
      obtain ⟨hdone, hpages⟩ := ih (tended_mapSized htended va pa size flags)
        (Address.isAligned_wrappingAdd_bytes hva (by omega))
        (Address.isAligned_wrappingAdd_bytes hpa (by omega)) (by omega)
        (by omega) hrest (events ++ (vm.mapSized va pa size flags).events)
      simp only [Manager.mapPages, hok]
      refine ⟨hdone, ?_⟩
      rw [VirtAddr.pages_succ]
      exact hpage.trans hpages

/-- The range consists of whole pages, and neither of its ends wraps around. -/
structure Fits (va : VirtAddr) (pa : PhysAddr) (bytes : Word)
    (size : PageSize) : Prop where
  whole : bytes.toNat / size.bytes * size.bytes = bytes.toNat
  virt : va.toNat + bytes.toNat < 2 ^ 64
  phys : pa.toNat + bytes.toNat < 2 ^ 64

/-- Only such a range is mapped. -/
theorem fits_of_mapRange
    (hok : (vm.mapRange va pa bytes size flags).value = .ok count) :
    Fits va pa bytes size := by
  rcases vm.mapRange_cases va pa bytes size flags with
    ⟨⟨h, -⟩ | ⟨h, -⟩, -⟩ | ⟨pages, hbytes, hva, hpa, -, -⟩
  · cases hok.symm.trans h
  · cases hok.symm.trans h
  · refine ⟨?_, hva, hpa⟩
    rw [hbytes, Nat.mul_div_cancel _ size.bytes_pos]

theorem fits_of_mapStage {stage : Stage}
    (hok : (vm.mapStage stage).value = .ok ()) :
    Fits stage.va stage.pa stage.bytes stage.size := by
  obtain ⟨pages, hpages⟩ := (vm.mapStage_eq stage).2 hok
  exact fits_of_mapRange hpages

/-- A range that is mapped already. -/
theorem mapRange_in_place (htended : vm.Tended pool held)
    (huser : flags.has .user = false) (hva : va.isAligned size = true)
    (hpa : pa.isAligned size = true) (hfits : Fits va pa bytes size)
    (hmapped : InstallsRange vm.lookup vm.lookup va pa bytes.toNat size flags) :
    (vm.mapRange va pa bytes size flags).value =
        .ok (bytes.toNat / size.bytes) ∧
      vm.Refreshed (vm.mapRange va pa bytes size flags).state
        (va.pages size (bytes.toNat / size.bytes)) := by
  have hvaEnd := hfits.virt
  have hpaEnd := hfits.phys
  have hword :
      BitVec.ofNat 64 (bytes.toNat / size.bytes * size.bytes) = bytes := by
    rw [hfits.whole, BitVec.ofNat_toNat, BitVec.setWidth_eq]
  rw [← hfits.whole] at hvaEnd hpaEnd hmapped
  obtain ⟨hdone, hrefreshed⟩ :=
    mapPages_in_place htended huser hva hpa hvaEnd hpaEnd hmapped #[]
  obtain ⟨hstate, hvalue⟩ := vm.mapRange_of_fits flags hvaEnd hpaEnd
  rw [hword] at hstate hvalue
  rw [hstate, hvalue, hdone]
  exact ⟨rfl, hrefreshed⟩

/-- A stage whose range is mapped already. -/
theorem mapStage_in_place (htended : vm.Tended pool held) (stage : Stage)
    (huser : stage.flags.has .user = false)
    (hva : stage.va.isAligned stage.size = true)
    (hpa : stage.pa.isAligned stage.size = true)
    (hfits : Fits stage.va stage.pa stage.bytes stage.size)
    (hmapped : InstallsRange vm.lookup vm.lookup stage.va stage.pa
      stage.bytes.toNat stage.size stage.flags) :
    (vm.mapStage stage).value = .ok () ∧
      vm.Refreshed (vm.mapStage stage).state
        (stage.va.pages stage.size
          (stage.bytes.toNat / stage.size.bytes)) := by
  obtain ⟨hok, hrefreshed⟩ :=
    mapRange_in_place htended huser hva hpa hfits hmapped
  refine ⟨?_, ?_⟩
  · simp only [mapStage, hok]
  · rw [(vm.mapStage_eq stage).1]
    exact hrefreshed

section Build

variable {policy : Policy}

/-- All that an accepted policy asks for is mapped, as the policy asks for
it. -/
structure Holds (vm : Manager) (policy : Policy) : Prop where
  valid : policy.validate = .ok ()
  identity_fits : Fits ⟨0⟩ ⟨0⟩ policy.identityBytes .twoM
  image_fits : Fits policy.imageVirt policy.imagePhys policy.imageSize .fourK
  identity : InstallsRange vm.lookup vm.lookup ⟨0⟩ ⟨0⟩
    policy.identityBytes.toNat .twoM Policy.identityFlags
  image : InstallsRange vm.lookup vm.lookup policy.imageVirt policy.imagePhys
    policy.imageSize.toNat .fourK Policy.imageFlags

theorem validate_of_build (hbuilt : (vm.build policy).value = .ok ()) :
    policy.validate = .ok () := by
  cases hvalid : policy.validate with
  | ok _ => rfl
  | error e => simp [build, hvalid, Outcome.quiet] at hbuilt

theorem holds_of_build (htended : vm.Tended pool held)
    (hbuilt : (vm.build policy).value = .ok ()) :
    (vm.build policy).state.Holds policy := by
  obtain ⟨hapart, mid, hidentity, himage⟩ := installsRange_build htended hbuilt
  rcases vm.build_cases policy with
    ⟨-, e, h⟩ | ⟨-, ⟨-, e, h⟩ | ⟨-, hfirst, hsecond⟩⟩
  · cases hbuilt.symm.trans h
  · cases hbuilt.symm.trans h
  · have hlow : Fits ⟨0⟩ ⟨0⟩ policy.identityBytes .twoM :=
      fits_of_mapStage hfirst
    have hhigh :
        Fits policy.imageVirt policy.imagePhys policy.imageSize .fourK :=
      fits_of_mapStage (hsecond.symm.trans hbuilt)
    refine ⟨validate_of_build hbuilt, hlow, hhigh,
      ⟨fun a ha => ?_, fun _ _ => rfl⟩, himage.inside, fun _ _ => rfl⟩
    have hbelow : a ∉ policy.imageVirt.window policy.imageSize.toNat :=
      fun h => by
      have hlt := VirtAddr.mem_window_zero.1 ha
      have hge := h.1
      omega
    rw [himage.outside a hbelow]
    exact hidentity.inside a ha

namespace Holds

variable (hholds : vm.Holds policy)

include hholds

/-- Where all of it is mapped, the tree is built by mapping each page as it is
mapped. -/
theorem build (htended : vm.Tended pool held) :
    (vm.build policy).value = .ok () ∧
      vm.Refreshed (vm.build policy).state policy.pages := by
  obtain ⟨-, ⟨hphys, hvirt⟩, -⟩ := Policy.validate_eq_ok_iff.1 hholds.valid
  have hkernel : Policy.identityFlags.has .user = false := by decide
  have hkernel' : Policy.imageFlags.has .user = false := by decide
  have hva : Address.isAligned .twoM (⟨0⟩ : VirtAddr) = true := by decide
  have hpa : Address.isAligned .twoM (⟨0⟩ : PhysAddr) = true := by decide
  obtain ⟨hfirst, hlow⟩ := mapStage_in_place htended policy.identityStage
    hkernel hva hpa hholds.identity_fits hholds.identity
  have hmapped := hholds.image
  rw [← (hlow.keptBut htended).2] at hmapped
  obtain ⟨hsecond, hhigh⟩ := mapStage_in_place
    (tended_mapStage htended policy.identityStage) policy.imageStage
    hkernel' hvirt hphys hholds.image_fits hmapped
  have hbuild : (vm.build policy).value = .ok () ∧
      (vm.build policy).state =
        ((vm.mapIdentity policy).state.mapImage policy).state := by
    simp only [Manager.build, mapIdentity, mapImage, hholds.valid, hfirst,
      hsecond, and_self]
  refine ⟨hbuild.1, ?_⟩
  rw [hbuild.2]
  exact hlow.trans hhigh

theorem pairwise_pages :
    policy.pages.Pairwise fun a b => a.toNat < b.toNat := by
  obtain ⟨-, -, -, -, hapart⟩ := Policy.validate_eq_ok_iff.1 hholds.valid
  have hlow := hholds.identity_fits
  have hhigh := hholds.image_fits
  have hlowEnd := hlow.virt
  have hhighEnd := hhigh.virt
  rw [← hlow.whole] at hlowEnd
  rw [← hhigh.whole] at hhighEnd
  refine List.pairwise_append.2 ⟨VirtAddr.pairwise_pages (Nat.le_of_lt hlowEnd),
    VirtAddr.pairwise_pages (Nat.le_of_lt hhighEnd), fun a ha b hb => ?_⟩
  have hinside := VirtAddr.mem_window_of_mem_pages (Nat.le_of_lt hlowEnd) ha
  rw [hlow.whole, VirtAddr.mem_window_zero] at hinside
  have hge := (VirtAddr.mem_window_of_mem_pages (Nat.le_of_lt hhighEnd) hb).1
  omega

end Holds

/-- Building the first tree a second time is carried out as well and changes
nothing in memory: the pool stays as it is, and so do the nodes and every entry
of them.  If the space is active, the processor is told of each page of the two
windows, from the lowest to the highest. -/
theorem build_idempotent (hreachable : vm.Reachable)
    (hbuilt : (vm.build policy).value = .ok ()) :
    ((vm.build policy).state.build policy).value = .ok () ∧
      (vm.build policy).state.Refreshed
        ((vm.build policy).state.build policy).state policy.pages ∧
      (vm.build policy).state.KeptBut []
        ((vm.build policy).state.build policy).state ∧
      policy.pages.Pairwise fun a b => a.toNat < b.toNat := by
  obtain ⟨pool, held, htended⟩ := hreachable.tended
  have hholds := holds_of_build htended hbuilt
  have htended' := tended_build htended policy
  obtain ⟨hok, hrefreshed⟩ := hholds.build htended'
  exact ⟨hok, hrefreshed, (hrefreshed.keptBut htended').1,
    hholds.pairwise_pages⟩

end Build

/-- The first tree of a small kernel, built while the processor translates
through the space. -/
def builtLive : Manager :=
  ((small.call .activate).state.build (.ofPlacement onePage)).state

/-- Built again, it is as it was, and each of its two pages is told of. -/
theorem build_idempotent_builtLive :
    ((small.call .activate).state.build (.ofPlacement onePage)).value = .ok () ∧
      (builtLive.build (.ofPlacement onePage)).value = .ok () ∧
      builtLive.mmu.invalidated = #[] ∧
      (builtLive.build (.ofPlacement onePage)).state.mmu.invalidated =
        #[⟨0⟩, ⟨0xFFFFFFFF80000000⟩] ∧
      (builtLive.build (.ofPlacement onePage)).state.memory.pool =
        builtLive.memory.pool ∧
      builtLive.KeptBut [] (builtLive.build (.ofPlacement onePage)).state := by
  have hbuilt :
      ((small.call .activate).state.build (.ofPlacement onePage)).value =
        .ok () := by
    decide +kernel
  have hactive : builtLive.active = true := by decide +kernel
  have hquiet : builtLive.mmu.invalidated = #[] := by decide +kernel
  have hpages : (Policy.ofPlacement onePage).pages =
      [⟨0⟩, ⟨0xFFFFFFFF80000000⟩] := by decide
  obtain ⟨hok, hrefreshed, hkept, -⟩ :=
    build_idempotent (reachable_small.call .activate) hbuilt
  rw [← builtLive] at hok hrefreshed hkept
  have hissued := hrefreshed.invalidated_eq
  rw [hquiet, hactive, hpages, if_pos rfl, Array.empty_append] at hissued
  exact ⟨hbuilt, hok, hquiet, hissued, hrefreshed.memory.pool_eq, hkept⟩

end Manager

end FourLevelPaging
