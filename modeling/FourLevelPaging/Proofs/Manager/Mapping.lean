/-
What a mapping request that is carried out means for translation: it moves the
addresses of one page and no others.  They go where they were asked to go unless
the physical address has bits that an entry has no room for.
-/
import FourLevelPaging.Proofs.Manager.Reachable

namespace FourLevelPaging

namespace Manager

variable {vm : Manager} {va : VirtAddr} {pa : PhysAddr} {size : PageSize}
  {flags : Flags} {mapped : Mapped}

/-- A request for a page of no given size is one for a page of the size
selected, but for what it reports. -/
theorem map_eq (vm : Manager) (va : VirtAddr) (pa : PhysAddr) (flags : Flags) :
    (vm.map va pa flags).value =
        (vm.mapSized va pa (.select va pa (flags.has .huge)) flags).value ∧
      (vm.map va pa flags).state =
        (vm.mapSized va pa (.select va pa (flags.has .huge)) flags).state := by
  obtain ⟨hvalue, hstate⟩ := vm.space.map_eq vm.memory va pa flags
  simp only [map, mapSized, afterMap, hvalue, hstate]
  constructor
  · split <;> rfl
  · split <;> rfl

theorem installs_of_forest {held : Finset Frame}
    (hforest : Forest vm.memory [vm.space.root] held)
    (hok : (vm.mapSized va pa size flags).value = .ok mapped) :
    Installs vm.lookup (vm.mapSized va pa size flags).state.lookup va pa size
      flags mapped := by
  rw [mapSized, vm.afterMap_lookup va]
  exact AddressSpace.installs_of_mapSized hforest (List.mem_singleton_self _)
    (afterMap_eq_ok_iff.1 hok)

theorem installs_of_mapSized (hreachable : vm.Reachable)
    (hok : (vm.mapSized va pa size flags).value = .ok mapped) :
    (va.isAligned size = true ∧ pa.isAligned size = true) ∧
      Installs vm.lookup (vm.mapSized va pa size flags).state.lookup va pa size
        flags mapped := by
  obtain ⟨held, hforest⟩ := hreachable.forest
  exact ⟨(AddressSpace.walk_of_mapSized (afterMap_eq_ok_iff.1 hok)).1.2,
    installs_of_forest hforest hok⟩

theorem installs_of_map (hreachable : vm.Reachable)
    (hok : (vm.map va pa flags).value = .ok mapped) :
    mapped.size.Chosen va pa flags ∧
      (va.isAligned mapped.size = true ∧ pa.isAligned mapped.size = true) ∧
      Installs vm.lookup (vm.map va pa flags).state.lookup va pa mapped.size
        flags mapped := by
  obtain ⟨hvalue, hstate⟩ := vm.map_eq va pa flags
  rw [hvalue] at hok
  obtain ⟨⟨hva, hpa⟩, hinstalls⟩ := installs_of_mapSized hreachable hok
  rw [hstate, hinstalls.size_eq]
  exact ⟨PageSize.chosen_select hva hpa, ⟨hva, hpa⟩, hinstalls⟩

/-- A page that is mapped is mapped as a whole, and all other addresses stay as
they were. -/
theorem map_moves_one_page (hreachable : vm.Reachable) (va : VirtAddr)
    (pa : PhysAddr) (flags : Flags) :
    (∀ size mapped, (vm.mapSized va pa size flags).value = .ok mapped →
        Installs vm.lookup (vm.mapSized va pa size flags).state.lookup va pa
          size flags mapped) ∧
      ∀ mapped, (vm.map va pa flags).value = .ok mapped →
        mapped.size.Chosen va pa flags ∧
          Installs vm.lookup (vm.map va pa flags).state.lookup va pa mapped.size
            flags mapped := by
  constructor
  · intro size mapped hok
    exact (installs_of_mapSized hreachable hok).2
  · intro mapped hok
    obtain ⟨hchosen, -, hinstalls⟩ := installs_of_map hreachable hok
    exact ⟨hchosen, hinstalls⟩

/-- A 4 KiB page and a huge page mapped by an empty manager. -/
theorem map_moves_one_page_small :
    (small.mapSized ⟨0x1000⟩ ⟨0x5000⟩ .fourK .kernelRW).value =
        .ok ⟨.fourK, none⟩ ∧
      Installs small.lookup
        (small.mapSized ⟨0x1000⟩ ⟨0x5000⟩ .fourK .kernelRW).state.lookup
        ⟨0x1000⟩ ⟨0x5000⟩ .fourK .kernelRW ⟨.fourK, none⟩ ∧
      (small.map ⟨0x200000⟩ ⟨0x400000⟩ .kernelRWHuge).value =
        .ok ⟨.twoM, none⟩ ∧
      PageSize.twoM.Chosen ⟨0x200000⟩ ⟨0x400000⟩ .kernelRWHuge ∧
      Installs small.lookup
        (small.map ⟨0x200000⟩ ⟨0x400000⟩ .kernelRWHuge).state.lookup ⟨0x200000⟩
        ⟨0x400000⟩ .twoM .kernelRWHuge ⟨.twoM, none⟩ := by
  have hsized : (small.mapSized ⟨0x1000⟩ ⟨0x5000⟩ .fourK .kernelRW).value =
      .ok ⟨.fourK, none⟩ := by
    decide +kernel
  have hhuge : (small.map ⟨0x200000⟩ ⟨0x400000⟩ .kernelRWHuge).value =
      .ok ⟨.twoM, none⟩ := by
    decide +kernel
  have hpage :=
    (map_moves_one_page reachable_small ⟨0x1000⟩ ⟨0x5000⟩ .kernelRW).1
      _ _ hsized
  obtain ⟨hchosen, hhugePage⟩ :=
    (map_moves_one_page reachable_small ⟨0x200000⟩ ⟨0x400000⟩ .kernelRWHuge).2 _
      hhuge
  exact ⟨hsized, hpage, hhuge, hchosen, hhugePage⟩

/-- The page of the given size at `va` is translated to the memory from `pa`
on. -/
def Translates (vm : Manager) (va : VirtAddr) (pa : PhysAddr)
    (size : PageSize) : Prop :=
  ∀ k < size.bytes, vm.translate (.ofNat (va.toNat + k)) =
    some (.ofNat (pa.toNat + k))

/-- What is left of a physical address in an entry. -/
def entryAddress (pa : PhysAddr) : PhysAddr := .ofNat (pa.toNat % 2 ^ 52)

theorem toNat_entryAddress (pa : PhysAddr) :
    (entryAddress pa).toNat = pa.toNat % 2 ^ 52 :=
  Address.toNat_ofNat_of_lt (by omega)

theorem isAligned_entryAddress (pa : PhysAddr) (size : PageSize) :
    (entryAddress pa).isAligned size = pa.isAligned size := by
  have hdvd : size.bytes ∣ 2 ^ 52 := by cases size <;> decide
  rw [Bool.eq_iff_iff, Address.isAligned_iff, Address.isAligned_iff,
    toNat_entryAddress, Nat.mod_mod_of_dvd _ hdvd]

theorem translates_of_installs {vm' : Manager}
    (hinstalls : Installs vm.lookup vm'.lookup va pa size flags mapped)
    (haligned : va.isAligned size = true) :
    vm'.Translates va (entryAddress pa) size := by
  intro k hk
  have hend := PageSize.end_le haligned
  have ha : (Address.ofNat (va.toNat + k) : VirtAddr).toNat = va.toNat + k :=
    Address.toNat_ofNat_of_lt (by omega)
  have hlookup := hinstalls.inside (.ofNat (va.toNat + k)) (by omega) (by omega)
  have htranslate : vm'.translate (.ofNat (va.toNat + k)) =
      (vm'.lookup (.ofNat (va.toNat + k))).map Target.phys := rfl
  rw [htranslate, hlookup, Option.map_some, toNat_entryAddress, ha,
    Nat.add_sub_cancel_left]

/-- A page is translated to the memory that was asked for exactly if an entry
has room for its address. -/
theorem translates_iff (htranslates : vm.Translates va (entryAddress pa) size) :
    vm.Translates va pa size ↔ pa.toNat < 2 ^ 52 := by
  constructor
  · intro h
    have hbase := h 0 size.bytes_pos
    rw [htranslates 0 size.bytes_pos, Option.some.injEq, Nat.add_zero,
      Nat.add_zero, Address.ofNat_toNat, Address.ofNat_toNat] at hbase
    rw [← hbase, toNat_entryAddress]
    exact Nat.mod_lt _ (by decide)
  · intro hlow
    have hself : entryAddress pa = pa := by
      rw [entryAddress, Nat.mod_eq_of_lt hlow, Address.ofNat_toNat]
    rwa [hself] at htranslates

/-- Of the physical address only what is left of it in an entry decides whether
a page is mapped. -/
theorem mapSized_entryAddress (vm : Manager) (va : VirtAddr) (pa : PhysAddr)
    (size : PageSize) (flags : Flags) (mapped : Mapped) :
    (vm.mapSized va (entryAddress pa) size flags).value = .ok mapped ↔
      (vm.mapSized va pa size flags).value = .ok mapped := by
  rw [mapSized, mapSized, afterMap_eq_ok_iff, afterMap_eq_ok_iff]
  constructor
  · intro hok
    have hpa := (AddressSpace.walk_of_mapSized hok).1.2.2
    rw [isAligned_entryAddress] at hpa
    exact AddressSpace.mapSized_ok_congr hpa hok
  · intro hok
    have hpa := (AddressSpace.walk_of_mapSized hok).1.2.2
    rw [← isAligned_entryAddress] at hpa
    exact AddressSpace.mapSized_ok_congr hpa hok

theorem map_entryAddress (vm : Manager) (va : VirtAddr) (pa : PhysAddr)
    (flags : Flags) (mapped : Mapped) :
    (vm.map va (entryAddress pa) flags).value = .ok mapped ↔
      (vm.map va pa flags).value = .ok mapped := by
  have hselect : PageSize.select va (entryAddress pa) (flags.has .huge) =
      .select va pa (flags.has .huge) := by
    simp only [PageSize.select, isAligned_entryAddress]
  rw [(vm.map_eq va (entryAddress pa) flags).1, (vm.map_eq va pa flags).1,
    hselect, mapSized_entryAddress]

/-- A page that is mapped is translated to what is left of the physical address
in an entry, which is the address that was asked for exactly if it lies below
`2 ^ 52`.  No address is refused because it does not. -/
theorem map_translates_to_entryAddress (hreachable : vm.Reachable)
    (va : VirtAddr) (pa : PhysAddr) (flags : Flags) :
    (∀ size mapped, (vm.mapSized va pa size flags).value = .ok mapped →
        (vm.mapSized va pa size flags).state.Translates va
            (entryAddress pa) size ∧
          ((vm.mapSized va pa size flags).state.Translates va pa size ↔
            pa.toNat < 2 ^ 52)) ∧
      (∀ mapped, (vm.map va pa flags).value = .ok mapped →
        (vm.map va pa flags).state.Translates va (entryAddress pa) mapped.size ∧
          ((vm.map va pa flags).state.Translates va pa mapped.size ↔
            pa.toNat < 2 ^ 52)) ∧
      (∀ size mapped,
        (vm.mapSized va (entryAddress pa) size flags).value = .ok mapped ↔
          (vm.mapSized va pa size flags).value = .ok mapped) ∧
      ∀ mapped, (vm.map va (entryAddress pa) flags).value = .ok mapped ↔
        (vm.map va pa flags).value = .ok mapped := by
  refine ⟨?_, ?_, fun size => vm.mapSized_entryAddress va pa size flags,
    vm.map_entryAddress va pa flags⟩
  · intro size mapped hok
    obtain ⟨⟨hva, -⟩, hinstalls⟩ := installs_of_mapSized hreachable hok
    have htranslates := translates_of_installs hinstalls hva
    exact ⟨htranslates, translates_iff htranslates⟩
  · intro mapped hok
    obtain ⟨-, ⟨hva, -⟩, hinstalls⟩ := installs_of_map hreachable hok
    have htranslates := translates_of_installs hinstalls hva
    exact ⟨htranslates, translates_iff htranslates⟩

/-- Mapping a page to `2 ^ 52 + 0x5000` is carried out, and maps it to
`0x5000`. -/
theorem map_translates_to_entryAddress_small :
    (small.mapSized ⟨0x1000⟩ ⟨0x10000000005000⟩ .fourK .kernelRW).value =
        .ok ⟨.fourK, none⟩ ∧
      (small.mapSized ⟨0x1000⟩ ⟨0x10000000005000⟩ .fourK
          .kernelRW).state.Translates
        ⟨0x1000⟩ (entryAddress ⟨0x10000000005000⟩) .fourK ∧
      (small.map ⟨0x1000⟩ ⟨0x10000000005000⟩ .kernelRW).value =
        .ok ⟨.fourK, none⟩ ∧
      (small.map ⟨0x1000⟩ ⟨0x10000000005000⟩ .kernelRW).state.Translates
        ⟨0x1000⟩ (entryAddress ⟨0x10000000005000⟩) .fourK := by
  have hsized :
      (small.mapSized ⟨0x1000⟩ ⟨0x10000000005000⟩ .fourK .kernelRW).value =
        .ok ⟨.fourK, none⟩ := by
    decide +kernel
  have hmap : (small.map ⟨0x1000⟩ ⟨0x10000000005000⟩ .kernelRW).value =
      .ok ⟨.fourK, none⟩ := by
    decide +kernel
  obtain ⟨hbySize, hby, -⟩ := map_translates_to_entryAddress reachable_small
    ⟨0x1000⟩ ⟨0x10000000005000⟩ .kernelRW
  exact ⟨hsized, (hbySize _ _ hsized).1, hmap, (hby _ hmap).1⟩

/-- It is not true that a page is always translated to the address that was
asked for. -/
theorem not_map_translates :
    ¬∀ vm : Manager, vm.Reachable → ∀ va pa size flags mapped,
      (vm.mapSized va pa size flags).value = .ok mapped →
        (vm.mapSized va pa size flags).state.Translates va pa size := by
  intro h
  have hok :
      (small.mapSized ⟨0x1000⟩ ⟨0x10000000005000⟩ .fourK .kernelRW).value =
        .ok ⟨.fourK, none⟩ := by
    decide +kernel
  have hright := h small reachable_small ⟨0x1000⟩ ⟨0x10000000005000⟩ .fourK
    .kernelRW ⟨.fourK, none⟩ hok 0 (by decide)
  exact absurd hright (by decide +kernel)

end Manager

end FourLevelPaging
