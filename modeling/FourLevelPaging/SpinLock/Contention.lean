/-
Threads that compete for a spin lock, one atomic step at a time.  Each of them
adds one to the shared value a number of times, taking and giving up the lock
around every addition.
-/
import FourLevelPaging.Word

namespace FourLevelPaging

/-- Where a thread is in one round of its work. -/
inductive Point where
  /-- About to compare and exchange the flag. -/
  | trying
  /-- Watching the flag until it is clear. -/
  | watching
  /-- Has the lock and is about to read the value. -/
  | entered
  /-- Has read this value and is about to write its successor. -/
  | computed (seen : Word)
  /-- Has written and is about to clear the flag. -/
  | leaving
deriving DecidableEq

/-- A thread and how many additions it has still to finish. -/
structure Worker where
  point : Point
  left : Nat
deriving DecidableEq

namespace Worker

/-- The thread is between the exchange that took the lock and the store that
frees it. -/
def inside (w : Worker) : Bool :=
  match w.point with
  | .trying => false
  | .watching => false
  | .entered => true
  | .computed _ => true
  | .leaving => true

/-- The thread has nothing left to do. -/
def finished (w : Worker) : Bool := w.left == 0

/-- One atomic step of a thread: the flag and the value it leaves, and where the
thread is afterwards.  A thread that has finished does nothing. -/
def step (w : Worker) (locked : Bool) (value : Word) : Bool × Word × Worker :=
  if w.finished then (locked, value, w)
  else
    match w.point with
    | .trying =>
        if locked then (locked, value, { w with point := .watching })
        else (true, value, { w with point := .entered })
    | .watching =>
        if locked then (locked, value, w)
        else (locked, value, { w with point := .trying })
    | .entered => (locked, value, { w with point := .computed value })
    | .computed seen => (locked, seen + 1, { w with point := .leaving })
    | .leaving => (false, value, { point := .trying, left := w.left - 1 })

end Worker

/-- The lock's flag, its value and the threads that compete for it. -/
structure Contention where
  locked : Bool
  value : Word
  workers : List Worker

namespace Contention

/-- Threads that have not begun, around a free lock. -/
def start (value : Word) (rounds : List Nat) : Contention :=
  { locked := false
    value
    workers := rounds.map fun left => { point := .trying, left } }

/-- The thread of the given number takes its next step, if there is one. -/
def advance (c : Contention) (turn : Nat) : Contention :=
  match c.workers[turn]? with
  | none => c
  | some w =>
      match Worker.step w c.locked c.value with
      | (locked, value, w') =>
          { locked, value, workers := c.workers.set turn w' }

/-- The threads take turns in the given order. -/
def run (c : Contention) (turns : List Nat) : Contention :=
  turns.foldl advance c

def finished (c : Contention) : Bool := c.workers.all Worker.finished

end Contention

example :
    (Contention.run (.start 5 [1, 1])
      [0, 1, 0, 1, 0, 1, 0, 1, 1, 1, 1, 1]).value = 7 := by
  decide

end FourLevelPaging
