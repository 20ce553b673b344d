/-
The named fields of a table entry and where they lie in its word.  The fields
and the address bits are pairwise apart, so each can be written on its own.
-/
import FourLevelPaging.Fault
import FourLevelPaging.Word

namespace FourLevelPaging

/-- The fields of a table entry other than the address. -/
inductive Field where
  | present
  | writable
  /-- Effective only if it is set at every level of the walk. -/
  | user
  | writeThrough
  | cacheDisable
  /-- Set by the processor. -/
  | accessed
  /-- Set by the processor, in leaves only. -/
  | dirty
  /-- Marks a leaf above the last level. -/
  | huge
  | global
  | osLow
  | osHigh
  | protectionKey
  | noExecute
deriving DecidableEq

namespace Field

def slot : Field → Slot
  | present => ⟨0, 1⟩
  | writable => ⟨1, 1⟩
  | user => ⟨2, 1⟩
  | writeThrough => ⟨3, 1⟩
  | cacheDisable => ⟨4, 1⟩
  | accessed => ⟨5, 1⟩
  | dirty => ⟨6, 1⟩
  | huge => ⟨7, 1⟩
  | global => ⟨8, 1⟩
  | osLow => ⟨9, 3⟩
  | osHigh => ⟨52, 7⟩
  | protectionKey => ⟨59, 4⟩
  | noExecute => ⟨63, 1⟩

/-- The bits between the fields, which hold a frame number in an entry. -/
def addressSlot : Slot := ⟨12, 40⟩

/-- The name of a field in messages. -/
def name : Field → String
  | present => "present"
  | writable => "writable"
  | user => "user"
  | writeThrough => "write_through"
  | cacheDisable => "cache_disable"
  | accessed => "accessed"
  | dirty => "dirty"
  | huge => "huge"
  | global => "global"
  | osLow => "os_low"
  | osHigh => "os_high"
  | protectionKey => "protection_key"
  | noExecute => "no_execute"

/-- Every field, lowest bit first. -/
def all : List Field :=
  [present, writable, user, writeThrough, cacheDisable, accessed, dirty, huge,
    global, osLow, osHigh, protectionKey, noExecute]

theorem slot_fits (x : Field) : x.slot.Fits := by
  cases x <;> decide

theorem slot_apart {x y : Field} (hne : x ≠ y) : x.slot.Apart y.slot := by
  revert hne
  cases x <;> cases y <;> decide

theorem slot_apart_addressSlot (x : Field) : x.slot.Apart addressSlot := by
  cases x <;> decide

theorem width_pos (x : Field) : 0 < x.slot.width := by
  cases x <;> decide

/-- Every bit of a word belongs to a field or to the address. -/
theorem covers (i : Nat) (hi : i < 64) :
    (addressSlot.lo ≤ i ∧ i < addressSlot.lo + addressSlot.width) ∨
      ∃ x ∈ all, x.slot.lo ≤ i ∧ i < x.slot.lo + x.slot.width := by
  revert i
  decide

/-- The field's share of `word`. -/
def read (x : Field) (word : Word) : BitVec x.slot.width :=
  x.slot.read word

/-- Replaces the field's share of `word`. -/
def write (x : Field) (value : BitVec x.slot.width) (word : Word) : Word :=
  x.slot.write value word

/-- Whether the lowest bit of the field is set, which is the whole of a field
of width one. -/
def isSet (x : Field) (word : Word) : Bool := word.getLsbD x.slot.lo

/-- Writes the number of a truth value into the field. -/
def put (x : Field) (on : Bool) (word : Word) : Word :=
  x.write ((BitVec.ofBool on).setWidth x.slot.width) word

theorem read_write_self (x : Field) (value : BitVec x.slot.width)
    (word : Word) :
    x.read (x.write value word) = value :=
  x.slot.read_write_self x.slot_fits value word

theorem read_write_of_ne {x y : Field} (hne : x ≠ y)
    (value : BitVec y.slot.width) (word : Word) :
    x.read (y.write value word) = x.read word :=
  Slot.read_write_of_apart x.slot_fits (slot_apart hne) value word

theorem isSet_eq_getLsbD_read (x : Field) (word : Word) :
    x.isSet word = (x.read word).getLsbD 0 := by
  rw [isSet, read, Slot.getLsbD_read]
  simp [x.width_pos]

theorem isSet_put_self (x : Field) (on : Bool) (word : Word) :
    x.isSet (x.put on word) = on := by
  rw [isSet_eq_getLsbD_read, put, read_write_self]
  simp [x.width_pos]

theorem isSet_put_of_ne {x y : Field} (hne : x ≠ y) (on : Bool) (word : Word) :
    x.isSet (y.put on word) = x.isSet word := by
  rw [isSet_eq_getLsbD_read, isSet_eq_getLsbD_read, put, read_write_of_ne hne]

/-- The largest value the field can hold. -/
def maxValue (x : Field) : Nat := 2 ^ x.slot.width - 1

/-- The contents of the field that stand for `value`, if it is in range. -/
def ofNat? (x : Field) (value : Nat) : Option (BitVec x.slot.width) :=
  if value ≤ x.maxValue then some (BitVec.ofNat _ value) else none

/-- A value that does not fit in a field. -/
structure OutOfRange where
  field : Field
deriving DecidableEq

def OutOfRange.message (e : OutOfRange) : String :=
  e.field.name ++ " out of range"

/-- Writes `value`; a value out of range is a fault. -/
def assign (x : Field) (value : Nat) (word : Word) : Except Fault Word :=
  match x.ofNat? value with
  | some v => .ok (x.write v word)
  | none => .error (.valueOutOfBounds x.maxValue)

/-- Writes `value`; a value out of range is refused. -/
def assignChecked (x : Field) (value : Nat) (word : Word) :
    Except OutOfRange Word :=
  match x.ofNat? value with
  | some v => .ok (x.write v word)
  | none => .error ⟨x⟩

end Field

end FourLevelPaging
