/-
The three page sizes of four-level paging.  Alignment is stated on the value of
a word, so `isAligned` says that the size divides it.
-/
import FourLevelPaging.Word

namespace FourLevelPaging

/-- How much memory one leaf maps. -/
inductive PageSize where
  | fourK
  | twoM
  | oneG
deriving DecidableEq

namespace PageSize

/-- The number of low address bits that form the offset inside a page. -/
def shift : PageSize → Nat
  | fourK => 12
  | twoM => 21
  | oneG => 30

def bytes (size : PageSize) : Nat := 2 ^ size.shift

/-- The word whose set bits are the offset bits. -/
def offsetMask (size : PageSize) : Word := BitVec.ofNat 64 (size.bytes - 1)

/-- The short name, as it is written in messages. -/
def label : PageSize → String
  | fourK => "4K"
  | twoM => "2M"
  | oneG => "1G"

theorem bytes_pos (size : PageSize) : 0 < size.bytes :=
  Nat.two_pow_pos _

theorem bytes_le_oneG (size : PageSize) : size.bytes ≤ 2 ^ 30 := by
  cases size <;> decide

/-- Every page size is a whole number of frames. -/
theorem fourK_dvd_bytes (size : PageSize) : fourK.bytes ∣ size.bytes := by
  cases size <;> decide

/-- The value of `word` is a multiple of the page size. -/
def isAligned (size : PageSize) (word : Word) : Bool :=
  word.toNat % size.bytes == 0

theorem isAligned_iff {size : PageSize} {word : Word} :
    size.isAligned word = true ↔ word.toNat % size.bytes = 0 := by
  simp [isAligned]

/-- The largest multiple of the page size that is at most `word`. -/
def alignDown (size : PageSize) (word : Word) : Word :=
  BitVec.ofNat 64 (word.toNat / size.bytes * size.bytes)

theorem toNat_alignDown (size : PageSize) (word : Word) :
    (size.alignDown word).toNat = word.toNat / size.bytes * size.bytes := by
  have hle := Nat.div_mul_le_self word.toNat size.bytes
  simp only [alignDown, BitVec.toNat_ofNat]
  exact Nat.mod_eq_of_lt (Nat.lt_of_le_of_lt hle word.isLt)

theorem isAligned_alignDown (size : PageSize) (word : Word) :
    size.isAligned (size.alignDown word) = true := by
  rw [isAligned_iff, toNat_alignDown, Nat.mul_mod_left]

end PageSize

end FourLevelPaging
