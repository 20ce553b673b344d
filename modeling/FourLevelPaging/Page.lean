/-
Pages of either space and the offsets inside them.  Splitting an address into
page and offset loses nothing: joining the two gives the address back.
-/
import FourLevelPaging.Address

namespace FourLevelPaging

/-- An offset inside a page of the given size. -/
abbrev PageOffset (size : PageSize) := Fin size.bytes

namespace PageOffset

/-- The offset bits of `raw`; higher bits are dropped. -/
def ofWord (size : PageSize) (raw : Word) : PageOffset size :=
  ⟨raw.toNat % size.bytes, Nat.mod_lt _ size.bytes_pos⟩

/-- The offset in diagnostics. -/
def diagnostic {size : PageSize} (offset : PageOffset size) : String :=
  "Offset<" ++ size.label ++ ">(0x" ++ Hex.upper offset.val ++ ")"

end PageOffset

/-- A page, named by its base, which is a multiple of the page size. -/
structure Page (space : Space) (size : PageSize) where
  base : Address space
  aligned : base.isAligned size = true
deriving DecidableEq

/-- A 4 KiB page of physical memory, the unit in which memory is handed out. -/
abbrev Frame := Page .physical .fourK

namespace Page

variable {space : Space} {size : PageSize}

theorem ext {p q : Page space size} (h : p.base = q.base) : p = q := by
  cases p
  cases q
  cases h
  rfl

/-- The page that holds `a`. -/
def containing (a : Address space) : Page space size :=
  ⟨a.alignDown size, size.isAligned_alignDown a.bits⟩

theorem toNat_base_containing (a : Address space) :
    (containing a : Page space size).base.toNat =
      a.toNat / size.bytes * size.bytes :=
  a.toNat_alignDown size

/-- The page that starts exactly at `a`, if one does. -/
def ofBase? (a : Address space) : Option (Page space size) :=
  if h : a.isAligned size = true then some ⟨a, h⟩ else none

/-- The position of the page among the pages of its size. -/
def number (p : Page space size) : Nat := p.base.toNat / size.bytes

theorem number_mul_bytes (p : Page space size) :
    p.number * size.bytes = p.base.toNat :=
  Nat.div_mul_cancel
    (Nat.dvd_of_mod_eq_zero (Address.isAligned_iff.1 p.aligned))

theorem number_inj {p q : Page space size} : p.number = q.number ↔ p = q := by
  constructor
  · intro h
    apply ext
    apply Address.toNat_inj.1
    rw [← p.number_mul_bytes, ← q.number_mul_bytes, h]
  · rintro rfl
    rfl

theorem number_containing (a : Address space) :
    (containing a : Page space size).number = a.toNat / size.bytes := by
  rw [number, toNat_base_containing, Nat.mul_div_cancel _ size.bytes_pos]

theorem containing_base (p : Page space size) : containing p.base = p := by
  apply number_inj.1
  rw [number_containing, number]

instance : Ord (Page space size) := ⟨fun p q => compare p.base q.base⟩

/-- The address at `offset` inside the page. -/
def join (p : Page space size) (offset : PageOffset size) : Address space :=
  .ofNat (p.base.toNat + offset.val)

/-- The page in messages. -/
def text (p : Page space size) : String := p.base.text ++ "/" ++ size.label

/-- The page in diagnostics, with its space. -/
def diagnostic (p : Page space size) : String :=
  space.label ++ "Page<" ++ size.label ++ ">(" ++ p.base.text ++ ")"

end Page

namespace Address

variable {space : Space}

/-- The page that holds the address. -/
def page (size : PageSize) (a : Address space) : Page space size :=
  .containing a

/-- Where the address lies inside its page. -/
def offset (size : PageSize) (a : Address space) : PageOffset size :=
  .ofWord size a.bits

/-- The page that holds the address, and where the address lies in it. -/
def split (size : PageSize) (a : Address space) :
    Page space size × PageOffset size :=
  (a.page size, a.offset size)

theorem page_eq_iff {size : PageSize} {a b : Address space} :
    a.page size = b.page size ↔
      a.toNat / size.bytes = b.toNat / size.bytes := by
  rw [← Page.number_inj, page, page, Page.number_containing,
    Page.number_containing]

theorem toNat_base_page {size : PageSize} {a : Address space}
    (haligned : a.isAligned size = true) :
    (a.page size).base.toNat = a.toNat := by
  rw [page, Page.toNat_base_containing]
  exact Nat.div_mul_cancel (Nat.dvd_of_mod_eq_zero (isAligned_iff.1 haligned))

theorem join_page_offset (size : PageSize) (a : Address space) :
    (a.page size).join (a.offset size) = a := by
  apply toNat_inj.1
  have hsum :
      a.toNat / size.bytes * size.bytes + a.toNat % size.bytes = a.toNat := by
    rw [Nat.mul_comm]
    exact Nat.div_add_mod a.toNat size.bytes
  have hjoin : (a.page size).base.toNat + (a.offset size).val = a.toNat := by
    rw [page, Page.toNat_base_containing]
    exact hsum
  rw [Page.join, hjoin, toNat_ofNat_of_lt a.toNat_lt]

end Address

example :
    ((Address.page .twoM (⟨0x412345678⟩ : VirtAddr)).base) = ⟨0x412200000⟩ := by
  decide

end FourLevelPaging
