/-
A lock around a value.  Whoever takes the lock gets the value with it; giving
the lock up keeps the value as it was left.
-/

namespace FourLevelPaging

/-- A value and whether somebody holds it. -/
structure SpinLock (α : Type) where
  locked : Bool
  value : α

namespace SpinLock

variable {α : Type}

/-- A free lock around a value. -/
def free (value : α) : SpinLock α := ⟨false, value⟩

/-- One attempt to take the lock, which fails while somebody holds it. -/
def tryAcquire? (lock : SpinLock α) : Option (SpinLock α) :=
  if lock.locked then none else some { lock with locked := true }

def put (lock : SpinLock α) (value : α) : SpinLock α := { lock with value }

/-- Gives the lock up. -/
def release (lock : SpinLock α) : SpinLock α := { lock with locked := false }

theorem tryAcquire?_eq_none {lock : SpinLock α} :
    lock.tryAcquire? = none ↔ lock.locked = true := by
  cases h : lock.locked <;> simp [tryAcquire?, h]

end SpinLock

end FourLevelPaging
