/-
Addresses and their coordinates.  Of the addresses with the same low 48 bits
one is canonical, and those bits are the indices and the offset: so canonical
addresses and coordinates are in bijection, and the pages are told apart by
the indices alone.
-/
import FourLevelPaging.Coordinates
import FourLevelPaging.Proofs.Tree.Path
import Mathlib.Data.Set.Function

namespace FourLevelPaging

namespace VirtAddr

theorem toNat_canonicalize (va : VirtAddr) :
    va.canonicalize.toNat = va.toNat % 2 ^ 48 +
      if 2 ^ 47 ≤ va.toNat % 2 ^ 48 then 2 ^ 64 - 2 ^ 48 else 0 := by
  have hlow : (va.bits.setWidth 48).toNat = va.toNat % 2 ^ 48 :=
    BitVec.toNat_setWidth 48 va.bits
  have hlt : va.toNat % 2 ^ 48 < 2 ^ 64 := by omega
  rw [canonicalize, Address.toNat, BitVec.toNat_signExtend,
    BitVec.toNat_setWidth, hlow, Nat.mod_eq_of_lt hlt, BitVec.msb_eq_decide,
    hlow]
  simp only [decide_eq_true_eq]

theorem low_canonicalize (va : VirtAddr) :
    va.canonicalize.toNat % 2 ^ 48 = va.toNat % 2 ^ 48 := by
  rw [toNat_canonicalize]
  split <;> omega

theorem isCanonical_canonicalize (va : VirtAddr) :
    va.canonicalize.isCanonical = true := by
  rw [isCanonical_iff, toNat_canonicalize]
  split <;> omega

/-- Among the addresses with the same low bits there is no other canonical
one. -/
theorem eq_canonicalize_of_low {a va : VirtAddr} (ha : a.isCanonical = true)
    (hlow : a.toNat % 2 ^ 48 = va.toNat % 2 ^ 48) : a = va.canonicalize := by
  apply Address.toNat_inj.1
  have hlt := a.toNat_lt
  rw [isCanonical_iff] at ha
  rw [toNat_canonicalize, ← hlow]
  split <;> omega

theorem isCanonical_iff_canonicalize {va : VirtAddr} :
    va.isCanonical = true ↔ va.canonicalize = va :=
  ⟨fun hva => (eq_canonicalize_of_low hva rfl).symm,
    fun h => h ▸ va.isCanonical_canonicalize⟩

end VirtAddr

namespace Level

theorem shift_of_next {level below : Level} (hnext : level.next = some below) :
    level.shift = below.shift + 9 := by
  have hheight := height_of_next hnext
  simp only [shift]
  omega

/-- Addresses with the same indices down to a level go the same way to it. -/
theorem pathTo_congr {level : Level} {a b : VirtAddr} (hindex : ∀ upper : Level,
      level.height ≤ upper.height → upper.index a = upper.index b) :
    level.pathTo a = level.pathTo b := by
  cases level with
  | pml4 => rfl
  | pdpt => rw [pathTo, pathTo, hindex pml4 (by decide)]
  | pd => rw [pathTo, pathTo, hindex pdpt (by decide), hindex pml4 (by decide)]
  | pt =>
      rw [pathTo, pathTo, hindex pd (by decide), hindex pdpt (by decide),
        hindex pml4 (by decide)]

end Level

namespace PageSize

variable {size : PageSize}

theorem passes_root (size : PageSize) : size.Passes .pml4 := by
  cases size <;> decide

theorem Passes.of_next {upper level : Level} (hpasses : size.Passes level)
    (hnext : upper.next = some level) : size.Passes upper := by
  have hheight := Level.height_of_next hnext
  simp only [Passes] at hpasses ⊢
  omega

/-- A level that the walk passes is the last one, or the walk passes the next
one too. -/
theorem Passes.last_or_next {level : Level} (hpasses : size.Passes level) :
    level = size.level ∨
      ∃ below, level.next = some below ∧ size.Passes below := by
  revert hpasses
  cases level <;> cases size <;> simp [Passes, level, Level.height, Level.next]

end PageSize

namespace Coordinates

variable {size : PageSize} (c : Coordinates size)

/-- What the levels below a level and the offset make up. -/
def under (level : Level) : Nat :=
  (level.down.tail.map c.term).sum + c.offset.val

theorem term_of_passes {level : Level} (hpasses : size.Passes level) :
    c.term level = (c.index level hpasses).val * 2 ^ level.shift := by
  rw [term, dif_pos hpasses, Nat.shiftLeft_eq]

theorem number_eq : c.number = c.term .pml4 + c.under .pml4 := by
  simp only [number, under, Level.all, Level.down, List.map_cons, List.sum_cons,
    List.tail_cons, Nat.add_assoc]

theorem under_of_next {level below : Level} (hnext : level.next = some below) :
    c.under level = c.term below + c.under below := by
  have hbelow : below.down = below :: below.down.tail := by cases below <;> rfl
  rw [under, Level.down_of_next hnext, List.tail_cons, hbelow, List.map_cons,
    List.sum_cons, Nat.add_assoc]
  rfl

theorem under_level : c.under size.level = c.offset.val := by
  have hnone : ∀ level, ¬size.Passes level → c.term level = 0 :=
    fun _ h => dif_neg h
  cases size with
  | fourK => simp [under, PageSize.level, Level.down]
  | twoM => simp [under, PageSize.level, Level.down, hnone .pt (by decide)]
  | oneG =>
      simp [under, PageSize.level, Level.down, hnone .pd (by decide),
        hnone .pt (by decide)]

theorem under_lt {level : Level} (hpasses : size.Passes level) :
    c.under level < 2 ^ level.shift := by
  induction level using Level.induction_down with
  | step level ih =>
      rcases hpasses.last_or_next with rfl | ⟨below, hnext, hbelow⟩
      · rw [under_level, PageSize.two_pow_shift_level]
        exact c.offset.isLt
      · have hunder := ih below hnext hbelow
        have hindex := (c.index below hbelow).isLt
        rw [under_of_next c hnext, term_of_passes c hbelow,
          Level.shift_of_next hnext, Nat.pow_add]
        calc (c.index below hbelow).val * 2 ^ below.shift + c.under below
          _ < (c.index below hbelow).val * 2 ^ below.shift +
              2 ^ below.shift := by omega
          _ = ((c.index below hbelow).val + 1) * 2 ^ below.shift :=
            (Nat.succ_mul _ _).symm
          _ ≤ 2 ^ 9 * 2 ^ below.shift := Nat.mul_le_mul_right _ hindex
          _ = 2 ^ below.shift * 2 ^ 9 := Nat.mul_comm _ _

/-- Without the nine bits of a level's index only what is under the level is
left. -/
theorem mod_shift {n : Nat} {level : Level} (hpasses : size.Passes level)
    (hn : n % 2 ^ (level.shift + 9) = c.term level + c.under level) :
    n % 2 ^ level.shift = c.under level := by
  rw [← Nat.mod_mod_of_dvd n (Nat.pow_dvd_pow 2 (Nat.le_add_right _ 9)), hn,
    term_of_passes c hpasses, Nat.mul_add_mod_self_right,
    Nat.mod_eq_of_lt (c.under_lt hpasses)]

theorem mod_next {n : Nat} {level below : Level}
    (hnext : level.next = some below) (hbelow : size.Passes below)
    (hn : n % 2 ^ (level.shift + 9) = c.term level + c.under level) :
    n % 2 ^ (below.shift + 9) = c.term below + c.under below := by
  rw [← Level.shift_of_next hnext, c.mod_shift (hbelow.of_next hnext) hn,
    under_of_next c hnext]

/-- From the root down, every level takes its nine bits of a number with these
low bits. -/
theorem mod_of_number {n : Nat} (hn : n % 2 ^ 48 = c.number) {level : Level}
    (hpasses : size.Passes level) :
    n % 2 ^ (level.shift + 9) = c.term level + c.under level := by
  have hroot : n % 2 ^ (Level.pml4.shift + 9) = c.term .pml4 + c.under .pml4 :=
    hn.trans c.number_eq
  cases level with
  | pml4 => exact hroot
  | pdpt => exact c.mod_next rfl hpasses hroot
  | pd =>
      have hpdpt := c.mod_next rfl (hpasses.of_next rfl) hroot
      exact c.mod_next rfl hpasses hpdpt
  | pt =>
      have hpd : size.Passes .pd := hpasses.of_next rfl
      have hpdpt := c.mod_next rfl (hpd.of_next rfl) hroot
      exact c.mod_next rfl hpasses (c.mod_next rfl hpd hpdpt)

theorem number_lt : c.number < 2 ^ 48 := by
  have hpasses := size.passes_root
  have hunder := c.under_lt hpasses
  have hindex := (c.index .pml4 hpasses).isLt
  have hshift : Level.pml4.shift = 39 := rfl
  rw [hshift] at hunder
  rw [number_eq, term_of_passes c hpasses, hshift]
  omega

/-- Any address whose low bits are the number has these coordinates. -/
theorem coordinates_of_low {va : VirtAddr}
    (hlow : va.toNat % 2 ^ 48 = c.number) :
    va.coordinates size = c := by
  apply Coordinates.ext
  · funext level hpasses
    apply Fin.ext
    have hmod := c.mod_of_number hlow hpasses
    rw [term_of_passes c hpasses, Nat.pow_add] at hmod
    have hdiv : va.toNat % (2 ^ level.shift * 2 ^ 9) / 2 ^ level.shift =
        (c.index level hpasses).val := by
      rw [hmod, Nat.mul_comm, Nat.mul_add_div (Nat.two_pow_pos _),
        Nat.div_eq_of_lt (c.under_lt hpasses), Nat.add_zero]
    rw [← hdiv, Nat.mod_mul_right_div_self]
    rfl
  · apply Fin.ext
    have hpasses : size.Passes size.level := Nat.le_refl _
    have hunder := c.mod_shift hpasses (c.mod_of_number hlow hpasses)
    rw [PageSize.two_pow_shift_level, under_level] at hunder
    exact hunder

theorem low_address : c.address.toNat % 2 ^ 48 = c.number := by
  have hlt := c.number_lt
  rw [address, VirtAddr.low_canonicalize, Address.toNat_ofNat_of_lt (by omega),
    Nat.mod_eq_of_lt hlt]

theorem isCanonical_address : c.address.isCanonical = true :=
  VirtAddr.isCanonical_canonicalize _

theorem coordinates_address : c.address.coordinates size = c :=
  c.coordinates_of_low c.low_address

end Coordinates

namespace VirtAddr

variable {size : PageSize}

/-- An index and the bits below it are the bits below the index above. -/
theorem term_add_mod (va : VirtAddr) {level : Level}
    (hpasses : size.Passes level) :
    (va.coordinates size).term level + va.toNat % 2 ^ level.shift =
      va.toNat % 2 ^ (level.shift + 9) := by
  rw [Coordinates.term_of_passes _ hpasses, Nat.pow_add, Nat.mod_mul,
    Nat.mul_comm, Nat.add_comm]
  rfl

theorem under_coordinates (va : VirtAddr) {level : Level}
    (hpasses : size.Passes level) :
    (va.coordinates size).under level = va.toNat % 2 ^ level.shift := by
  induction level using Level.induction_down with
  | step level ih =>
      rcases hpasses.last_or_next with rfl | ⟨below, hnext, hbelow⟩
      · rw [Coordinates.under_level, PageSize.two_pow_shift_level]
        rfl
      · rw [Coordinates.under_of_next _ hnext, ih below hnext hbelow,
          va.term_add_mod hbelow, Level.shift_of_next hnext]

theorem number_coordinates (va : VirtAddr) :
    (va.coordinates size).number = va.toNat % 2 ^ 48 := by
  rw [Coordinates.number_eq, va.under_coordinates size.passes_root]
  exact va.term_add_mod size.passes_root

/-- A canonical address is the one with its coordinates. -/
theorem address_coordinates {va : VirtAddr} (hva : va.isCanonical = true) :
    (va.coordinates size).address = va := by
  apply Eq.symm
  apply eq_canonicalize_of_low hva
  rw [number_coordinates, Address.toNat_ofNat]
  omega

/-- The addresses of a page have the same indices. -/
theorem index_of_page_eq {a b : VirtAddr} (hpage : a.page size = b.page size) :
    (a.coordinates size).index = (b.coordinates size).index := by
  funext level hpasses
  apply Fin.ext
  have hshift :
      level.shift = size.level.shift + (level.shift - size.level.shift) := by
    simp only [PageSize.Passes] at hpasses
    simp only [Level.shift]
    omega
  have hdiv : a.toNat / 2 ^ level.shift = b.toNat / 2 ^ level.shift := by
    rw [hshift, Nat.pow_add, ← Nat.div_div_eq_div_mul, ← Nat.div_div_eq_div_mul,
      PageSize.two_pow_shift_level, Address.page_eq_iff.1 hpage]
  change a.toNat / 2 ^ level.shift % 512 = b.toNat / 2 ^ level.shift % 512
  rw [hdiv]

/-- The indices tell the pages of canonical addresses apart. -/
theorem index_eq_iff_page_eq {a b : VirtAddr} (ha : a.isCanonical = true)
    (hb : b.isCanonical = true) :
    (a.coordinates size).index = (b.coordinates size).index ↔
      a.page size = b.page size := by
  refine ⟨fun hindex => ?_, index_of_page_eq⟩
  have hlevel : ∀ level, size.Passes level → level.index a = level.index b :=
    fun level hpasses => congrFun (congrFun hindex level) hpasses
  rw [Address.page_eq_iff, ← PageSize.two_pow_shift_level,
    ← Level.index_pathTo_eq_iff ha hb]
  exact ⟨hlevel _ (Nat.le_refl _), Level.pathTo_congr hlevel⟩

/-- A step inside the page of an aligned address leads to the same page. -/
theorem exists_checkedAdd {va : VirtAddr} {bytes : Word}
    (haligned : va.isAligned size = true) (hbytes : bytes.toNat < size.bytes) :
    ∃ a, va.checkedAdd bytes = some a ∧ a.toNat = va.toNat + bytes.toNat ∧
      a.page size = va.page size := by
  have hend := PageSize.end_le haligned
  have hlt : va.toNat + bytes.toNat < 2 ^ 64 := by omega
  have hsum : (va.wrappingAdd bytes).toNat = va.toNat + bytes.toNat := by
    rw [Address.toNat_wrappingAdd, Nat.mod_eq_of_lt hlt]
  refine ⟨va.wrappingAdd bytes, if_pos hlt, hsum, ?_⟩
  rw [Address.page_eq_iff]
  exact (PageSize.mem_page_iff haligned _).1 (by omega)

theorem isCanonical_eq_of_page_eq {a b : VirtAddr}
    (hpage : a.page size = b.page size) :
    a.isCanonical = b.isCanonical := by
  rw [Bool.eq_iff_iff]
  exact ⟨isCanonical_of_page_eq hpage.symm, isCanonical_of_page_eq hpage⟩

/-- Canonical addresses are the indices down to a leaf and the offset inside it,
each of them once, and are put together from these.  The indices alone are the
page: addresses with the same ones lie in the same page, and no step inside a
page changes them or leaves its half of the range.  Of the addresses with the
same low 48 bits one is canonical, the one that they are made canonical to. -/
theorem coordinates_faithful (size : PageSize) :
    Set.BijOn (coordinates size) {va | va.isCanonical = true} Set.univ ∧
      Set.InvOn Coordinates.address (coordinates size)
        {va | va.isCanonical = true} Set.univ ∧
      (∀ a b : VirtAddr, a.isCanonical = true → b.isCanonical = true →
        ((a.coordinates size).index = (b.coordinates size).index ↔
          a.page size = b.page size)) ∧
      (∀ (va : VirtAddr) (bytes : Word), va.isAligned size = true →
        bytes.toNat < size.bytes →
        ∃ a : VirtAddr, va.checkedAdd bytes = some a ∧
          a.toNat = va.toNat + bytes.toNat ∧
          a.isCanonical = va.isCanonical ∧
          (a.coordinates size).index = (va.coordinates size).index) ∧
      ∀ va : VirtAddr, (va.isCanonical = true ↔ va.canonicalize = va) ∧
        va.canonicalize.canonicalize = va.canonicalize ∧
        ∀ a : VirtAddr,
          a.isCanonical = true ∧ a.toNat % 2 ^ 48 = va.toNat % 2 ^ 48 ↔
            a = va.canonicalize := by
  have hinverse : Set.InvOn Coordinates.address (coordinates size)
      {va | va.isCanonical = true} Set.univ :=
    ⟨fun _ hva => address_coordinates hva, fun c _ => c.coordinates_address⟩
  refine ⟨hinverse.bijOn (Set.mapsTo_univ _ _) fun c _ => c.isCanonical_address,
    hinverse, fun a b ha hb => index_eq_iff_page_eq ha hb,
    fun va bytes haligned hbytes => ?_,
    fun va => ⟨isCanonical_iff_canonicalize, ?_, fun a => ?_⟩⟩
  · obtain ⟨a, hadd, hsum, hpage⟩ := exists_checkedAdd haligned hbytes
    exact ⟨a, hadd, hsum, isCanonical_eq_of_page_eq hpage,
      index_of_page_eq hpage⟩
  · exact isCanonical_iff_canonicalize.1 va.isCanonical_canonicalize
  · constructor
    · rintro ⟨ha, hlow⟩
      exact eq_canonicalize_of_low ha hlow
    · rintro rfl
      exact ⟨va.isCanonical_canonicalize, va.low_canonicalize⟩

/-- The last page of the lower half holds canonical addresses only, and the
first one after it none; made canonical, that is the first page of the upper
half, and has other indices. -/
theorem coordinates_faithful_halves :
    (∃ a : VirtAddr, Address.checkedAdd ⟨0x00007FFFFFE00000⟩ 0x1FFFFF = some a ∧
        a.isCanonical = true ∧
        (a.coordinates .twoM).index =
          (coordinates .twoM ⟨0x00007FFFFFE00000⟩).index) ∧
      (∃ a : VirtAddr,
        Address.checkedAdd ⟨0x0000800000000000⟩ 0x1FFFFF = some a ∧
          a.isCanonical = false) ∧
      canonicalize ⟨0x0000800000000000⟩ = ⟨0xFFFF800000000000⟩ ∧
      (coordinates .twoM ⟨0xFFFF800000000000⟩).index ≠
        (coordinates .twoM ⟨0x00007FFFFFE00000⟩).index := by
  obtain ⟨-, -, hpages, hinside, hlow⟩ := coordinates_faithful .twoM
  obtain ⟨a, hadd, -, hcanonical, hindex⟩ :=
    hinside ⟨0x00007FFFFFE00000⟩ 0x1FFFFF (by decide) (by decide)
  obtain ⟨b, hbadd, -, hbcanonical, -⟩ :=
    hinside ⟨0x0000800000000000⟩ 0x1FFFFF (by decide) (by decide)
  refine ⟨⟨a, hadd, hcanonical.trans (by decide), hindex⟩,
    ⟨b, hbadd, hbcanonical.trans (by decide)⟩, ?_, fun h => ?_⟩
  · exact ((hlow ⟨0x0000800000000000⟩).2.2 ⟨0xFFFF800000000000⟩).1
      ⟨by decide, by decide⟩ |>.symm
  · exact absurd ((hpages _ _ (by decide) (by decide)).1 h) (by decide)

end VirtAddr

end FourLevelPaging
