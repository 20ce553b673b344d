/-
The way of an address through the tree.  Two canonical addresses take the same
way down to a level exactly if they lie in the same span of that level, and the
span of a level that holds leaves is a page.  Every way is that of some
canonical address.
-/
import FourLevelPaging.Level
import Mathlib.Data.List.Basic

namespace FourLevelPaging

namespace Level

/-- The indices of `va` at the levels above, the deepest first. -/
def pathTo : Level → VirtAddr → List Index
  | pml4, _ => []
  | pdpt, va => [pml4.index va]
  | pd, va => [pdpt.index va, pml4.index va]
  | pt, va => [pd.index va, pdpt.index va, pml4.index va]

/-- The level and those below it, in the order in which a walk meets them. -/
def down : Level → List Level
  | pml4 => [pml4, pdpt, pd, pt]
  | pdpt => [pdpt, pd, pt]
  | pd => [pd, pt]
  | pt => [pt]

/-- What holds of a level whenever it holds of the level below it holds of
every level. -/
theorem induction_down {motive : Level → Prop}
    (step : ∀ level, (∀ below, level.next = some below → motive below) →
      motive level) (level : Level) : motive level := by
  have hpt : motive pt := step pt fun below h => by simp [next] at h
  have hpd : motive pd := step pd fun below h => by
    obtain rfl : pt = below := by simpa [next] using h
    exact hpt
  have hpdpt : motive pdpt := step pdpt fun below h => by
    obtain rfl : pd = below := by simpa [next] using h
    exact hpd
  have hpml4 : motive pml4 := step pml4 fun below h => by
    obtain rfl : pdpt = below := by simpa [next] using h
    exact hpdpt
  cases level
  · exact hpml4
  · exact hpdpt
  · exact hpd
  · exact hpt

theorem down_of_next {level below : Level} (hnext : level.next = some below) :
    level.down = level :: below.down := by
  cases level <;> simp only [next, Option.some.injEq, reduceCtorEq] at hnext <;>
    subst hnext <;> rfl

theorem pathTo_of_next {level below : Level} (hnext : level.next = some below)
    (va : VirtAddr) : below.pathTo va = level.index va :: level.pathTo va := by
  cases level <;> simp only [next, Option.some.injEq, reduceCtorEq] at hnext <;>
    subst hnext <;> rfl

theorem height_of_next {level below : Level} (hnext : level.next = some below) :
    level.height = below.height + 1 := by
  cases level <;> simp only [next, Option.some.injEq, reduceCtorEq] at hnext <;>
    subst hnext <;> rfl

theorem height_inj {a b : Level} (h : a.height = b.height) : a = b := by
  revert h
  cases a <;> cases b <;> decide

theorem level_of_leafSize {level : Level} {size : PageSize}
    (h : level.leafSize = some size) : size.level = level := by
  cases level <;> simp only [leafSize, Option.some.injEq, reduceCtorEq] at h <;>
    subst h <;> rfl

theorem index_eq_iff {level : Level} {a b : VirtAddr} :
    level.index a = level.index b ↔
      a.toNat / 2 ^ level.shift % 512 = b.toNat / 2 ^ level.shift % 512 := by
  simp [index, Index.ofBits]

/-- The indices down to a level tell the spans of the level apart. -/
theorem index_pathTo_eq_iff {a b : VirtAddr}
    (ha : VirtAddr.isCanonical a = true) (hb : VirtAddr.isCanonical b = true)
    (level : Level) :
    level.index a = level.index b ∧ level.pathTo a = level.pathTo b ↔
      a.toNat / 2 ^ level.shift = b.toNat / 2 ^ level.shift := by
  rw [VirtAddr.isCanonical_iff] at ha hb
  have hlta := a.toNat_lt
  have hltb := b.toNat_lt
  cases level <;>
    simp only [pathTo, List.cons.injEq, and_true, index_eq_iff, shift, height,
      Nat.reduceMul, Nat.reduceAdd, Nat.reducePow] at ha hb ⊢ <;>
    omega

theorem length_pathTo (level : Level) (va : VirtAddr) :
    level.height + (level.pathTo va).length = 3 := by
  cases level <;> rfl

/-- The way down to a level begins with the way down to a level above it. -/
theorem pathTo_suffix {upper level : Level} (hle : level.height ≤ upper.height)
    (va : VirtAddr) : upper.pathTo va <:+ level.pathTo va := by
  cases upper <;> cases level <;>
    simp [height, pathTo, List.suffix_cons_iff] at hle ⊢

theorem cons_pathTo_suffix {upper level : Level}
    (hlt : level.height < upper.height) (va : VirtAddr) :
    upper.index va :: upper.pathTo va <:+ level.pathTo va := by
  cases hnext : upper.next with
  | none => cases upper <;> simp [next, height] at hnext hlt
  | some below =>
      have hheight := height_of_next hnext
      rw [← pathTo_of_next hnext]
      exact pathTo_suffix (by omega) va

/-- Addresses that go the same way down to a level go the same way above it. -/
theorem index_pathTo_of_le {upper level : Level}
    (hle : level.height ≤ upper.height) {a b : VirtAddr}
    (hindex : level.index a = level.index b)
    (hpath : level.pathTo a = level.pathTo b) :
    upper.index a = upper.index b ∧ upper.pathTo a = upper.pathTo b := by
  rcases Nat.eq_or_lt_of_le hle with heq | hlt
  · obtain rfl := height_inj heq
    exact ⟨hindex, hpath⟩
  · have ha := cons_pathTo_suffix hlt a
    have hb := cons_pathTo_suffix hlt b
    have hlength := upper.length_pathTo a
    have hlength' := upper.length_pathTo b
    have heq : (upper.index a :: upper.pathTo a).length =
        (upper.index b :: upper.pathTo b).length := by
      simp only [List.length_cons]
      omega
    rw [hpath] at ha
    have hsuffix := List.suffix_of_suffix_length_le ha hb (Nat.le_of_eq heq)
    exact List.cons.inj (hsuffix.eq_of_length heq)

/-- Two canonical addresses take the same way to a level exactly if they lie in
the same span of the level above. -/
theorem pathTo_eq_iff {upper level : Level} (hnext : upper.next = some level)
    {a b : VirtAddr} (ha : VirtAddr.isCanonical a = true)
    (hb : VirtAddr.isCanonical b = true) :
    level.pathTo a = level.pathTo b ↔
      a.toNat / 2 ^ upper.shift = b.toNat / 2 ^ upper.shift := by
  rw [pathTo_of_next hnext, pathTo_of_next hnext, List.cons.injEq,
    index_pathTo_eq_iff ha hb]

/-- Any four indices are those of a canonical address. -/
theorem exists_address (i j k l : Index) :
    ∃ va : VirtAddr, va.isCanonical = true ∧ pml4.index va = i ∧
      pdpt.index va = j ∧
      pd.index va = k ∧ pt.index va = l := by
  have hi := i.isLt
  have hj := j.isLt
  have hk := k.isLt
  have hl := l.isLt
  have hsigned : ∃ high,
      (high = 0 ∧ i.val < 256 ∨ high = 2 ^ 64 - 2 ^ 48 ∧ 256 ≤ i.val) := by
    by_cases hhalf : i.val < 256
    · exact ⟨0, Or.inl ⟨rfl, hhalf⟩⟩
    · exact ⟨_, Or.inr ⟨rfl, Nat.le_of_not_lt hhalf⟩⟩
  obtain ⟨high, hhigh⟩ := hsigned
  refine ⟨.ofNat (high + i.val * 2 ^ 39 + j.val * 2 ^ 30 + k.val * 2 ^ 21 +
      l.val * 2 ^ 12),
    ?_⟩
  simp only [VirtAddr.isCanonical_iff, index, Index.ofBits, Fin.ext_iff, shift,
    height]
  rw [Address.toNat_ofNat_of_lt (by omega)]
  refine ⟨?_, ?_, ?_, ?_, ?_⟩ <;> omega

/-- Any indices lead down the way of some canonical address. -/
theorem exists_pathTo {level : Level} {path : List Index}
    (hlength : level.height + path.length = 3) (i : Index) :
    ∃ va : VirtAddr, va.isCanonical = true ∧ level.index va = i ∧
      level.pathTo va = path := by
  cases level with
  | pml4 =>
      obtain rfl : path = [] := by simpa [height] using hlength
      obtain ⟨va, hva, hi, -⟩ := exists_address i 0 0 0
      exact ⟨va, hva, hi, rfl⟩
  | pdpt =>
      obtain ⟨a, rfl⟩ : ∃ a, path = [a] := by
        rw [← List.length_eq_one_iff]
        simp only [height] at hlength
        omega
      obtain ⟨va, hva, ha, hi, -⟩ := exists_address a i 0 0
      exact ⟨va, hva, hi, by simp [pathTo, ha]⟩
  | pd =>
      obtain ⟨b, a, rfl⟩ : ∃ b a, path = [b, a] := by
        rw [← List.length_eq_two]
        simp only [height] at hlength
        omega
      obtain ⟨va, hva, ha, hb, hi, -⟩ := exists_address a b i 0
      exact ⟨va, hva, hi, by simp [pathTo, ha, hb]⟩
  | pt =>
      obtain ⟨c, b, a, rfl⟩ : ∃ c b a, path = [c, b, a] := by
        rw [← List.length_eq_three]
        simp only [height] at hlength
        omega
      obtain ⟨va, hva, ha, hb, hc, hi⟩ := exists_address a b c i
      exact ⟨va, hva, hi, by simp [pathTo, ha, hb, hc]⟩

end Level

/-- A page lies on one side of the gap between the halves. -/
theorem VirtAddr.isCanonical_of_page_eq {size : PageSize} {a b : VirtAddr}
    (hpage : b.page size = a.page size) (ha : VirtAddr.isCanonical a = true) :
    VirtAddr.isCanonical b = true := by
  rw [Address.page_eq_iff] at hpage
  rw [isCanonical_iff] at ha ⊢
  have hlt := b.toNat_lt
  cases size
  · rw [show PageSize.fourK.bytes = 4096 from rfl] at hpage
    omega
  · rw [show PageSize.twoM.bytes = 2097152 from rfl] at hpage
    omega
  · rw [show PageSize.oneG.bytes = 1073741824 from rfl] at hpage
    omega

namespace PageSize

/-- The page of an aligned address ends inside the address range. -/
theorem end_le {size : PageSize} {space : Space} {a : Address space}
    (haligned : a.isAligned size = true) : a.toNat + size.bytes ≤ 2 ^ 64 := by
  have hlt := a.toNat_lt
  rw [Address.isAligned_iff] at haligned
  cases size
  · rw [show fourK.bytes = 4096 from rfl] at haligned ⊢
    omega
  · rw [show twoM.bytes = 2097152 from rfl] at haligned ⊢
    omega
  · rw [show oneG.bytes = 1073741824 from rfl] at haligned ⊢
    omega

/-- The page of an aligned address holds the addresses with the same page
number. -/
theorem mem_page_iff {size : PageSize} {va : VirtAddr}
    (haligned : va.isAligned size = true) (a : VirtAddr) :
    va.toNat ≤ a.toNat ∧ a.toNat < va.toNat + size.bytes ↔
      a.toNat / size.bytes = va.toNat / size.bytes := by
  have hpos := size.bytes_pos
  have hva := Nat.div_add_mod va.toNat size.bytes
  rw [Address.isAligned_iff.1 haligned, Nat.add_zero] at hva
  rw [Nat.div_eq_iff hpos]
  have hcomm := Nat.mul_comm (va.toNat / size.bytes) size.bytes
  omega

theorem isCanonical_of_mem_page {size : PageSize} {va a : VirtAddr}
    (haligned : va.isAligned size = true) (hva : VirtAddr.isCanonical va = true)
    (hle : va.toNat ≤ a.toNat) (hlt : a.toNat < va.toNat + size.bytes) :
    VirtAddr.isCanonical a = true := by
  have hpage := (mem_page_iff haligned a).1 ⟨hle, hlt⟩
  exact VirtAddr.isCanonical_of_page_eq (Address.page_eq_iff.2 hpage) hva

/-- Inside the page of an aligned address, and there only, the way down to the
level of the page is that of the address. -/
theorem mem_page_iff_pathTo {size : PageSize} {va a : VirtAddr}
    (haligned : va.isAligned size = true) (hva : VirtAddr.isCanonical va = true)
    (ha : VirtAddr.isCanonical a = true) :
    va.toNat ≤ a.toNat ∧ a.toNat < va.toNat + size.bytes ↔
      size.level.index a = size.level.index va ∧
        size.level.pathTo a = size.level.pathTo va := by
  rw [mem_page_iff haligned, Level.index_pathTo_eq_iff ha hva,
    two_pow_shift_level]

/-- The addresses of a page go the same way down to the level of the page. -/
theorem way_of_mem_page {size : PageSize} {va a : VirtAddr}
    (haligned : va.isAligned size = true) (hva : VirtAddr.isCanonical va = true)
    (hle : va.toNat ≤ a.toNat) (hlt : a.toNat < va.toNat + size.bytes)
    {level : Level} (hlevel : size.level.height ≤ level.height) :
    VirtAddr.isCanonical a = true ∧ level.index a = level.index va ∧
      level.pathTo a = level.pathTo va := by
  have ha := isCanonical_of_mem_page haligned hva hle hlt
  obtain ⟨hindex, hpath⟩ := (mem_page_iff_pathTo haligned hva ha).1 ⟨hle, hlt⟩
  exact ⟨ha, Level.index_pathTo_of_le hlevel hindex hpath⟩

end PageSize

end FourLevelPaging
