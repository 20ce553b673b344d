/-
Guards of a spin lock.  A lock is free again when its guard is dropped; guards
that also mask interrupts drop the lock before the mask.
-/
import FourLevelPaging.Outcome
import FourLevelPaging.SpinLock
import FourLevelPaging.Word

namespace FourLevelPaging

/-- Something that ends when it is dropped. -/
inductive Guard where
  /-- Holds the lock. -/
  | lock
  /-- Holds the lock and keeps interrupts masked. -/
  | maskedLock
  /-- Keeps interrupts masked; remembers whether they were enabled. -/
  | mask (wereEnabled : Bool)
deriving DecidableEq

/-- The guard holds the lock. -/
def Guard.holdsLock : Guard → Bool
  | lock => true
  | maskedLock => true
  | mask _ => false

/-- A lock around a word and the guards that are alive, by the number of the
place each is kept in. -/
structure GuardedWord where
  lock : SpinLock Word
  guards : List (Nat × Guard)

namespace GuardedWord

/-- Whether interrupts are enabled when a guard asks.  Outside the bare machine
they always read as masked. -/
def interruptsEnabled : Bool := false

def start (value : Word) : GuardedWord := ⟨.free value, []⟩

/-- The guard kept in a place. -/
def guard? (w : GuardedWord) (place : Nat) : Option Guard :=
  w.guards.lookup place

/-- The guard kept in a place holds the lock. -/
def holds (w : GuardedWord) (place : Nat) : Bool :=
  match w.guard? place with
  | some guard => guard.holdsLock
  | none => false

/-- Drops the guard kept in a place, if there is one. -/
def drop (w : GuardedWord) (place : Nat) : GuardedWord :=
  { lock := if w.holds place then w.lock.release else w.lock
    guards := w.guards.filter fun kept => kept.1 != place }

/-- Keeps a guard in a place, dropping the one that was there. -/
def keep (w : GuardedWord) (place : Nat) (guard : Guard) : GuardedWord :=
  let dropped := w.drop place
  { dropped with guards := (place, guard) :: dropped.guards }

/-- One attempt to take the lock, keeping the guard in a place. -/
def tryAcquire (w : GuardedWord) (place : Nat) (guard : Guard) :
    Option GuardedWord :=
  match w.lock.tryAcquire? with
  | some held => some ({ w with lock := held }.keep place guard)
  | none => none

/-- A request to the lock or to a guard. -/
inductive Call where
  | tryLock (place : Nat)
  | tryLockMasked (place : Nat)
  | lock (place : Nat)
  | mask (place : Nat)
  /-- Read through the guard of a place. -/
  | read (place : Nat)
  /-- Write through the guard of a place. -/
  | write (place : Nat) (value : Word)
  | drop (place : Nat)
  /-- Add to the value with the lock held; the sum wraps around. -/
  | add (amount : Word)
  /-- Write the value with the lock held, then panic. -/
  | writeAndPanic (value : Word) (message : String)
  /-- So many threads add one so many times each. -/
  | contend (threads times : Nat)

inductive Reply where
  | acquired (success : Bool)
  | held
  | masked (wereEnabled : Bool)
  | value (value : Option Word)
  | written (success : Bool)
  | dropped (wasKept : Bool)
  | previous (value : Word)
  | panicked (message : String)
  | finished
  /-- The lock is held, so the request would never end. -/
  | wouldSpin
deriving DecidableEq

/-- Runs `change` on the value with the lock held from start to end, unless
somebody holds the lock. -/
def withLock (w : GuardedWord) (answer : Word → Reply) (change : Word → Word) :
    Outcome Empty GuardedWord Reply :=
  match w.lock.tryAcquire? with
  | some held =>
      .quiet (answer held.value)
        { w with lock := (held.put (change held.value)).release }
  | none => .quiet .wouldSpin w

/-- One attempt to take the lock, with the answers for success and failure. -/
def attempt (w : GuardedWord) (place : Nat) (guard : Guard)
    (success failure : Reply) : Outcome Empty GuardedWord Reply :=
  match w.tryAcquire place guard with
  | some w' => .quiet success w'
  | none => .quiet failure w

def call (w : GuardedWord) : Call → Outcome Empty GuardedWord Reply
  | .tryLock place =>
      w.attempt place .lock (.acquired true) (.acquired false)
  | .tryLockMasked place =>
      w.attempt place .maskedLock (.acquired true) (.acquired false)
  | .lock place => w.attempt place .lock .held .wouldSpin
  | .mask place =>
      .quiet (.masked interruptsEnabled)
        (w.keep place (.mask interruptsEnabled))
  | .read place =>
      .quiet (.value (if w.holds place then some w.lock.value else none)) w
  | .write place value =>
      if w.holds place then
        .quiet (.written true) { w with lock := w.lock.put value }
      else .quiet (.written false) w
  | .drop place => .quiet (.dropped (w.guard? place).isSome) (w.drop place)
  | .add amount => w.withLock .previous fun value => value + amount
  | .writeAndPanic value message =>
      w.withLock (fun _ => .panicked message) fun _ => value
  | .contend threads times =>
      w.withLock (fun _ => .finished) fun value =>
        value + BitVec.ofNat 64 (threads * times)

/-- Drops every guard, stores a last value if there is one, and gives up the
lock: whether it was still held, and the value. -/
def finish (w : GuardedWord) (last : Option Word) : Bool × Word :=
  let ended := (w.guards.map Prod.fst).foldl drop w
  (ended.lock.locked, last.getD ended.lock.value)

end GuardedWord

end FourLevelPaging
