/-
Operations on words and arrays of fixed size that stop when they leave them.  A
sum, a difference or a product that is no word stops the kernel, and so does an
index past the end of an array, and an access to memory that holds no node.
-/
import FourLevelPaging.Page

namespace FourLevelPaging

/-- What stops the kernel in the middle of an operation. -/
inductive Trap where
  | fault (fault : Fault)
  | differenceOverflow
  | productOverflow
  | indexOutOfBounds (length index : Nat)
  | sliceOutOfBounds (length stop : Nat)
  /-- The frame accessed as a node is none. -/
  | strayFrame (frame : Frame)
deriving DecidableEq

/-- What an operation yields unless it stops. -/
abbrev Checked (α : Type) := Except Trap α

namespace Checked

variable {α β : Type}

def sum (a b : Nat) : Checked Nat :=
  if a + b < 2 ^ 64 then .ok (a + b) else .error (.fault .sumOverflow)

def difference (a b : Nat) : Checked Nat :=
  if b ≤ a then .ok (a - b) else .error .differenceOverflow

def product (a b : Nat) : Checked Nat :=
  if a * b < 2 ^ 64 then .ok (a * b) else .error .productOverflow

/-- The element at an index. -/
def item (xs : List α) (i : Nat) : Checked α :=
  match xs[i]? with
  | some x => .ok x
  | none => .error (.indexOutOfBounds xs.length i)

/-- Replaces the element at an index. -/
def setItem {n : Nat} (xs : Vector α n) (i : Nat) (x : α) :
    Checked (Vector α n) :=
  if h : i < n then .ok (xs.set i x h) else .error (.indexOutOfBounds n i)

/-- The elements before an index. -/
def slice (xs : List α) (stop : Nat) : Checked (List α) :=
  if stop ≤ xs.length then .ok (xs.take stop)
  else .error (.sliceOutOfBounds xs.length stop)

@[simp]
theorem ok_bind (a : α) (next : α → Checked β) :
    (.ok a >>= next : Checked β) = next a := rfl

@[simp]
theorem pure_eq_ok (a : α) : (pure a : Checked α) = .ok a := rfl

theorem sum_eq_ok {a b : Nat} (h : a + b < 2 ^ 64) : sum a b = .ok (a + b) :=
  if_pos h

theorem difference_eq_ok {a b : Nat} (h : b ≤ a) :
    difference a b = .ok (a - b) :=
  if_pos h

theorem product_eq_ok {a b : Nat} (h : a * b < 2 ^ 64) :
    product a b = .ok (a * b) :=
  if_pos h

theorem item_eq_ok {xs : List α} {i : Nat} {x : α} (h : xs[i]? = some x) :
    item xs i = .ok x := by
  simp only [item, h]

theorem setItem_eq_ok {n : Nat} (xs : Vector α n) {i : Nat} (x : α)
    (h : i < n) :
    setItem xs i x = .ok (xs.set i x h) :=
  dif_pos h

theorem slice_eq_ok {xs : List α} {stop : Nat} (h : stop ≤ xs.length) :
    slice xs stop = .ok (xs.take stop) :=
  if_pos h

end Checked

end FourLevelPaging
