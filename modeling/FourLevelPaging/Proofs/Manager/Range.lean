/-
What a request for a range of pages means for translation.  The pages are mapped
one after the other, each beside those before it, so what a request that stops
midway leaves is a shorter range.
-/
import FourLevelPaging.Proofs.Manager.Outcome
import Mathlib.Data.Set.Basic

namespace FourLevelPaging

/-- The addresses of `bytes` from `va` on. -/
def VirtAddr.window (va : VirtAddr) (bytes : Nat) : Set VirtAddr :=
  { a | va.toNat ≤ a.toNat ∧ a.toNat < va.toNat + bytes }

theorem VirtAddr.mem_window_zero {a : VirtAddr} {bytes : Nat} :
    a ∈ window ⟨0⟩ bytes ↔ a.toNat < bytes := by
  change 0 ≤ a.toNat ∧ a.toNat < 0 + bytes ↔ _
  omega

/-- `after` takes the window of `bytes` at `va` to the memory from `pa` on, less
the address bits that an entry has no room for, by pages of the given size, and
every other address to where `before` takes it. -/
structure InstallsRange (before after : VirtAddr → Option Target)
    (va : VirtAddr) (pa : PhysAddr) (bytes : Nat) (size : PageSize)
    (flags : Flags) : Prop where
  inside : ∀ a ∈ va.window bytes, after a = some
    { phys := .ofNat ((pa.toNat + (a.toNat - va.toNat)) % 2 ^ 52)
      size
      flags := (flags.sanitized.put .present true).put .huge size.isHuge }
  outside : ∀ a ∉ va.window bytes, after a = before a

/-- The address of the next page. -/
theorem Address.toNat_wrappingAdd_bytes {space : Space} {a : Address space}
    {size : PageSize} (hlt : a.toNat + size.bytes < 2 ^ 64) :
    (a.wrappingAdd (BitVec.ofNat 64 size.bytes)).toNat =
      a.toNat + size.bytes := by
  have hbytes := size.bytes_le_oneG
  have hword : (BitVec.ofNat 64 size.bytes).toNat = size.bytes := by
    rw [BitVec.toNat_ofNat]
    exact Nat.mod_eq_of_lt (by omega)
  rw [Address.toNat_wrappingAdd, hword, Nat.mod_eq_of_lt hlt]

theorem Address.isAligned_wrappingAdd_bytes {space : Space} {a : Address space}
    {size : PageSize} (haligned : a.isAligned size = true)
    (hlt : a.toNat + size.bytes < 2 ^ 64) :
    (a.wrappingAdd (BitVec.ofNat 64 size.bytes)).isAligned size = true := by
  rw [isAligned_iff] at haligned ⊢
  rw [toNat_wrappingAdd_bytes hlt, Nat.add_mod_right, haligned]

theorem Address.isNone_checkedAdd {space : Space} {a : Address space}
    {bytes : Word} :
    (a.checkedAdd bytes).isNone = true ↔ 2 ^ 64 ≤ a.toNat + bytes.toNat := by
  unfold checkedAdd
  split
  · next hlt =>
      simp only [Option.isNone_some, Bool.false_eq_true, false_iff, not_le, hlt]
  · next hle => simp only [Option.isNone_none, Nat.le_of_not_lt hle]

/-- Inside a page the bits that an entry has no room for do not change. -/
theorem Address.mod_add_of_isAligned {space : Space} {a : Address space}
    {size : PageSize} (haligned : a.isAligned size = true) {k : Nat}
    (hk : k < size.bytes) :
    a.toNat % 2 ^ 52 + k = (a.toNat + k) % 2 ^ 52 := by
  rw [Address.isAligned_iff] at haligned
  cases size
  · rw [show PageSize.fourK.bytes = 4096 from rfl] at haligned hk
    omega
  · rw [show PageSize.twoM.bytes = 2097152 from rfl] at haligned hk
    omega
  · rw [show PageSize.oneG.bytes = 1073741824 from rfl] at haligned hk
    omega

namespace InstallsRange

variable {before mid after : VirtAddr → Option Target} {va va' : VirtAddr}
  {pa pa' : PhysAddr} {bytes : Nat} {size : PageSize} {flags : Flags}

theorem nothing (before : VirtAddr → Option Target) (va : VirtAddr)
    (pa : PhysAddr) (size : PageSize) (flags : Flags) :
    InstallsRange before before va pa 0 size flags := by
  refine ⟨fun a ha => ?_, fun _ _ => rfl⟩
  rcases ha with ⟨hle, hlt⟩
  omega

/-- A page and the range after it. -/
theorem cons {mapped : Mapped}
    (hpage : Installs before mid va pa size flags mapped)
    (haligned : pa.isAligned size = true)
    (hrest : InstallsRange mid after va' pa' bytes size flags)
    (hva : va'.toNat = va.toNat + size.bytes)
    (hpa : pa'.toNat = pa.toNat + size.bytes) :
    InstallsRange before after va pa (size.bytes + bytes) size flags := by
  constructor
  · rintro a ⟨hle, hlt⟩
    by_cases hfirst : a.toNat < va.toNat + size.bytes
    · have hbefore : a ∉ va'.window bytes := fun ha => by
        have hge := ha.1
        omega
      rw [hrest.outside a hbefore, hpage.inside a hle hfirst,
        Address.mod_add_of_isAligned haligned (by omega)]
    · have hsum : pa'.toNat + (a.toNat - va'.toNat) =
          pa.toNat + (a.toNat - va.toNat) := by
        omega
      rw [hrest.inside a ⟨by omega, by omega⟩, hsum]
  · intro a ha
    have hnot :
        ¬(va.toNat ≤ a.toNat ∧ a.toNat < va.toNat + (size.bytes + bytes)) := ha
    rw [hrest.outside a fun h =>
        hnot ⟨by have hge := h.1; omega, by have hlt := h.2; omega⟩,
      hpage.outside a fun h => hnot ⟨h.1, by omega⟩]

end InstallsRange

namespace Manager

variable {vm : Manager} {pool : FramePool} {held : Finset Frame} {va : VirtAddr}
  {pa : PhysAddr} {size : PageSize} {flags : Flags}

/-- What is mapped by a request for a number of pages in a row: the first of
them, and all of them if none is refused. -/
theorem installsRange_mapPages (htended : vm.Tended pool held) {count : Nat}
    (hva : va.toNat + count * size.bytes < 2 ^ 64)
    (hpa : pa.toNat + count * size.bytes < 2 ^ 64) (events : Array Event) :
    ∃ done ≤ count,
      InstallsRange vm.lookup
          (mapPages size flags count va pa vm events).state.lookup va pa
          (done * size.bytes) size flags ∧
        ((mapPages size flags count va pa vm events).value = .ok () →
          done = count) := by
  induction count generalizing vm va pa events with
  | zero =>
      refine ⟨0, Nat.le_refl _, ?_, fun _ => rfl⟩
      rw [Nat.zero_mul]
      exact .nothing vm.lookup va pa size flags
  | succ count ih =>
      rw [Nat.succ_mul] at hva hpa
      simp only [Manager.mapPages]
      cases hanswer : (vm.mapSized va pa size flags).value with
      | error reason =>
          have hkept := (unchanged_of_refused htended hanswer).lookup_eq
          refine ⟨0, Nat.zero_le _, ?_, fun h => by cases h⟩
          simp only [hkept, Nat.zero_mul]
          exact .nothing vm.lookup va pa size flags
      | ok mapped =>
          have hinstalls := installs_of_forest htended.forest hanswer
          have haligned :=
            (AddressSpace.walk_of_mapSized (afterMap_eq_ok_iff.1 hanswer)).1.2.2
          have hva' : (va.wrappingAdd (BitVec.ofNat 64 size.bytes)).toNat =
              va.toNat + size.bytes :=
            Address.toNat_wrappingAdd_bytes (by omega)
          have hpa' : (pa.wrappingAdd (BitVec.ofNat 64 size.bytes)).toNat =
              pa.toNat + size.bytes :=
            Address.toNat_wrappingAdd_bytes (by omega)
          have hend : (va.wrappingAdd (BitVec.ofNat 64 size.bytes)).toNat +
              count * size.bytes < 2 ^ 64 := by omega
          have hend' : (pa.wrappingAdd (BitVec.ofNat 64 size.bytes)).toNat +
              count * size.bytes < 2 ^ 64 := by omega
          obtain ⟨done, hle, hrange, hall⟩ :=
            ih (tended_mapSized htended va pa size flags) hend hend'
              (events ++ (vm.mapSized va pa size flags).events)
          refine ⟨done + 1, by omega, ?_,
            fun hok => congrArg (· + 1) (hall hok)⟩
          rw [Nat.succ_mul, Nat.add_comm]
          exact .cons hinstalls haligned hrange hva' hpa'

/-- A request for a range is refused as a whole, and changes nothing, or its
pages are mapped one after the other, and neither of its ends wraps around. -/
theorem mapRange_cases (vm : Manager) (va : VirtAddr) (pa : PhysAddr)
    (bytes : Word) (size : PageSize) (flags : Flags) :
    (((vm.mapRange va pa bytes size flags).value =
            .error (.rangeLength bytes size) ∧
          size.isAligned bytes = false ∨
        (vm.mapRange va pa bytes size flags).value =
            .error (.rangeOverflow va bytes) ∧
          (2 ^ 64 ≤ va.toNat + bytes.toNat ∨ 2 ^ 64 ≤ pa.toNat + bytes.toNat)) ∧
      (vm.mapRange va pa bytes size flags).state = vm) ∨ ∃ count, bytes.toNat =
        count * size.bytes ∧ va.toNat + bytes.toNat < 2 ^ 64 ∧
      pa.toNat + bytes.toNat < 2 ^ 64 ∧
      (vm.mapRange va pa bytes size flags).state =
        (mapPages size flags count va pa vm #[]).state ∧
      (vm.mapRange va pa bytes size flags).value =
        (mapPages size flags count va pa vm #[]).value.map fun _ => count := by
  unfold mapRange
  split
  · next haligned =>
      rw [Bool.not_eq_true'] at haligned
      exact Or.inl ⟨Or.inl ⟨rfl, haligned⟩, rfl⟩
  · next haligned =>
      split
      · next hends =>
          rw [Bool.or_eq_true, Address.isNone_checkedAdd,
            Address.isNone_checkedAdd] at hends
          exact Or.inl ⟨Or.inr ⟨rfl, hends⟩, rfl⟩
      · next hfits =>
          rw [Bool.or_eq_true, not_or, Address.isNone_checkedAdd,
            Address.isNone_checkedAdd] at hfits
          rw [Bool.not_eq_true', Bool.not_eq_false, PageSize.isAligned_iff]
            at haligned
          refine Or.inr ⟨bytes.toNat / size.bytes,
            (Nat.div_mul_cancel (Nat.dvd_of_mod_eq_zero haligned)).symm,
            by omega, by omega, ?_⟩
          cases hdone : (mapPages size flags (bytes.toNat / size.bytes) va pa vm
            #[]).value with
          | ok _ => simp only [hdone, Except.map, and_self]
          | error reason => simp only [hdone, Except.map, and_self]

/-- A request for a range that is carried out maps all of it; any other maps a
range of whole pages at its beginning, or nothing. -/
theorem installsRange_mapRange (htended : vm.Tended pool held) (va : VirtAddr)
    (pa : PhysAddr) (bytes : Word) (size : PageSize) (flags : Flags) :
    ∃ done ≤ bytes.toNat,
      InstallsRange vm.lookup (vm.mapRange va pa bytes size flags).state.lookup
          va pa done size flags ∧
        ∀ count, (vm.mapRange va pa bytes size flags).value = .ok count →
          done = bytes.toNat := by
  rcases vm.mapRange_cases va pa bytes size flags with
    ⟨hrefused, hstate⟩ | ⟨count, hbytes, hva, hpa, hstate, hvalue⟩
  · refine ⟨0, Nat.zero_le _, ?_, fun count hok => ?_⟩
    · rw [hstate]
      exact .nothing vm.lookup va pa size flags
    · rw [hok] at hrefused
      rcases hrefused with ⟨h, -⟩ | ⟨h, -⟩ <;> cases h
  · rw [hbytes] at hva hpa
    obtain ⟨done, hle, hrange, hall⟩ :=
      installsRange_mapPages htended hva hpa #[]
    rw [hstate, hvalue, hbytes]
    refine ⟨done * size.bytes, Nat.mul_le_mul_right _ hle, hrange,
      fun _ hok => ?_⟩
    cases hdone : (mapPages size flags count va pa vm #[]).value with
    | ok _ => rw [hall hdone]
    | error reason =>
        rw [hdone] at hok
        cases hok

theorem call_mapRange_state (vm : Manager) (va : VirtAddr) (pa : PhysAddr)
    (bytes : Word) (size : PageSize) (flags : Flags) :
    (vm.call (.mapRange va pa bytes size flags)).state =
      (vm.mapRange va pa bytes size flags).state := by
  simp only [Manager.call]
  split <;> rfl

theorem tended_mapRange (htended : vm.Tended pool held) (va : VirtAddr)
    (pa : PhysAddr) (bytes : Word) (size : PageSize) (flags : Flags) :
    (vm.mapRange va pa bytes size flags).state.Tended pool held := by
  rw [← call_mapRange_state]
  exact tended_call htended (.mapRange va pa bytes size flags)

end Manager

end FourLevelPaging
