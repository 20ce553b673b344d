/-
Hexadecimal text of numbers, as it appears in addresses and messages.
-/

namespace FourLevelPaging.Hex

/-- Lower-case digits, without leading zeros. -/
def lower (n : Nat) : String :=
  String.ofList (Nat.toDigits 16 n)

/-- Upper-case digits, without leading zeros. -/
def upper (n : Nat) : String :=
  String.ofList ((Nat.toDigits 16 n).map Char.toUpper)

/-- Fills `digits` up with zeros on the left to at least `width` characters. -/
def padTo (width : Nat) (digits : String) : String :=
  "".pushn '0' (width - digits.length) ++ digits

/-- Lower-case digits behind `0x`, the way sizes are written. -/
def literal (n : Nat) : String :=
  "0x" ++ lower n

/-- Sixteen upper-case digits behind `0x`, the way addresses are written. -/
def address (n : Nat) : String :=
  "0x" ++ padTo 16 (upper n)

example : literal 0x40000000 = "0x40000000" := by decide +kernel
example : address 0xFFFFFFFF80000000 = "0xFFFFFFFF80000000" := by decide +kernel
example : address 0x1F = "0x000000000000001F" := by decide +kernel

end FourLevelPaging.Hex
