/-
What requests to a spin lock and their answers tell: the guards that are alive
and the value that was written last.  After any requests the lock, the flag and
the value are what the answers say, and so is what the next request does.
-/
import FourLevelPaging.Proofs.SpinLock.Contention
import FourLevelPaging.Proofs.SpinLock.Guards

namespace FourLevelPaging

namespace GuardedWord

/-- The guards that are alive, by place, after a request with this reply, if
those in `live` were alive before.  A guard that comes to a place ends the one
that was there. -/
def Call.guards (live : Nat → Option Guard) :
    Call → Reply → Nat → Option Guard
  | .tryLock place, .acquired true => Function.update live place (some .lock)
  | .tryLockMasked place, .acquired true =>
      Function.update live place (some .maskedLock)
  | .lock place, .held => Function.update live place (some .lock)
  | .mask place, .masked wereEnabled =>
      Function.update live place (some (.mask wereEnabled))
  | .drop place, .dropped true => Function.update live place none
  | _, _ => live

/-- What the value is after a request with this reply, if it was `last` before:
what the request has written, or `last` if it has written nothing. -/
def Call.written (last : Word) : Call → Reply → Word
  | .write _ value, .written true => value
  | .add amount, .previous value => value + amount
  | .writeAndPanic value _, .panicked _ => value
  | .contend threads times, .finished =>
      last + BitVec.ofNat 64 (threads * times)
  | _, _ => last

/-- What is known of a lock. -/
structure Known where
  /-- The guards that are alive, by place. -/
  live : Nat → Option Guard
  /-- The value that was written last. -/
  last : Word

namespace Known

/-- Nothing has been asked yet. -/
def start (value : Word) : Known := ⟨fun _ => none, value⟩

/-- What is known after a request with this reply. -/
def next (known : Known) (c : Call) (reply : Reply) : Known :=
  ⟨c.guards known.live reply, c.written known.last reply⟩

/-- What is known after requests with these replies. -/
def after : Known → List Call → List Reply → Known
  | known, c :: calls, reply :: replies =>
      after (known.next c reply) calls replies
  | known, _, _ => known

end Known

/-- What is known to someone who sees the lock and its guards. -/
def known (w : GuardedWord) : Known := ⟨w.guard?, w.lock.value⟩

variable {w : GuardedWord} {known : Known}

theorem known_drop (w : GuardedWord) (place : Nat) :
    (w.drop place).known =
      ⟨Function.update w.guard? place none, w.lock.value⟩ := by
  have hvalue : (w.drop place).lock.value = w.lock.value := by
    simp only [drop]
    split <;> rfl
  rw [GuardedWord.known, guard?_drop, hvalue]

theorem known_keep (w : GuardedWord) (place : Nat) (guard : Guard) :
    (w.keep place guard).known =
      ⟨Function.update w.guard? place (some guard), w.lock.value⟩ := by
  have hvalue : (w.keep place guard).lock.value = w.lock.value :=
    congrArg Known.last (w.known_drop place)
  rw [GuardedWord.known, guard?_keep, hvalue]

/-- An attempt fails and changes nothing, or its guard comes to the place. -/
theorem known_of_attempt {c : Call} {place : Nat} {guard : Guard}
    {success failure : Reply}
    (hcall : w.call c = w.attempt place guard success failure)
    (hsuccess : w.known.next c success =
      ⟨Function.update w.guard? place (some guard), w.lock.value⟩)
    (hfailure : w.known.next c failure = w.known) :
    (w.call c).state.known = w.known.next c (w.call c).value := by
  rw [hcall, attempt, tryAcquire, SpinLock.tryAcquire?]
  cases w.lock.locked with
  | true => exact hfailure.symm
  | false => exact (known_keep _ place guard).trans hsuccess.symm

/-- A closure is not run, or its answer is given and its value is written. -/
theorem known_of_withLock {c : Call} (answer : Word → Reply)
    (change : Word → Word) (hcall : w.call c = w.withLock answer change)
    (hanswer : w.known.next c (answer w.lock.value) =
      ⟨w.guard?, change w.lock.value⟩)
    (hspin : w.known.next c .wouldSpin = w.known) :
    (w.call c).state.known = w.known.next c (w.call c).value := by
  rw [hcall, withLock, SpinLock.tryAcquire?]
  cases w.lock.locked with
  | true => exact hspin.symm
  | false => exact hanswer.symm

/-- What is known of a lock after a request is what the reply tells. -/
theorem known_call (w : GuardedWord) (c : Call) :
    (w.call c).state.known = w.known.next c (w.call c).value := by
  cases c with
  | tryLock place => exact known_of_attempt rfl rfl rfl
  | tryLockMasked place => exact known_of_attempt rfl rfl rfl
  | lock place => exact known_of_attempt rfl rfl rfl
  | mask place => exact w.known_keep place _
  | read place => rfl
  | write place value =>
      simp only [call]
      split <;> rfl
  | drop place =>
      refine (w.known_drop place).trans ?_
      simp only [call, Outcome.quiet]
      cases hplace : w.guard? place with
      | some guard => rfl
      | none =>
          rw [Function.update_eq_self_iff.2 hplace.symm]
          rfl
  | add amount =>
      exact known_of_withLock .previous (fun value => value + amount)
        rfl rfl rfl
  | writeAndPanic value message =>
      exact known_of_withLock (fun _ => .panicked message) (fun _ => value) rfl
        rfl rfl
  | contend threads times =>
      exact known_of_withLock (fun _ => .finished)
        (fun value => value + BitVec.ofNat 64 (threads * times)) rfl rfl rfl

theorem known_after (w : GuardedWord) (calls : List Call) :
    (Outcome.after call w calls).known =
      w.known.after calls
        ((Outcome.history call w calls).map Outcome.value) := by
  induction calls generalizing w with
  | nil => rfl
  | cons c rest ih =>
      rw [Outcome.after, ih, known_call]
      rfl

/-- The lock and its guards are as they are known, and at most one of the guards
holds the lock. -/
structure Shows (w : GuardedWord) (known : Known) : Prop where
  guard?_eq : w.guard? = known.live
  places_nodup : (w.guards.map Prod.fst).Nodup
  holders_le : w.holders ≤ 1
  place_unique : ∀ place other,
    (known.live place).any Guard.holdsLock = true →
      (known.live other).any Guard.holdsLock = true → place = other
  locked_iff : w.lock.locked = true ↔ Guard.Taken known.live
  value_eq : w.lock.value = known.last

/-- What requests do while no guard holds the lock. -/
structure Free (w : GuardedWord) (known : Known) : Prop where
  tryLock : ∀ place, (w.call (.tryLock place)).value = .acquired true
  tryLockMasked : ∀ place,
    (w.call (.tryLockMasked place)).value = .acquired true
  lock : ∀ place, (w.call (.lock place)).value = .held
  withLock : ∀ answer change, w.withLock answer change =
    .quiet (answer known.last)
      { w with lock := ⟨false, change known.last⟩ }
  add : ∀ amount, w.call (.add amount) =
    .quiet (.previous known.last)
      { w with lock := ⟨false, known.last + amount⟩ }
  writeAndPanic : ∀ value message, w.call (.writeAndPanic value message) =
    .quiet (.panicked message) { w with lock := ⟨false, value⟩ }
  /-- The threads can come to the end of their work, and leave the lock the same
  whatever the order of their steps. -/
  contend : ∀ threads times,
    let start := Contention.start known.last (.replicate threads times)
    (∃ turns, (start.run turns).finished = true) ∧
      ∀ turns, (start.run turns).finished = true →
        w.call (.contend threads times) = .quiet .finished
          { w with lock := ⟨(start.run turns).locked,
            (start.run turns).value⟩ }

/-- What requests do while a guard holds the lock: they fail or would never end,
and change nothing. -/
structure Held (w : GuardedWord) : Prop where
  tryLock : ∀ place, w.call (.tryLock place) = .quiet (.acquired false) w
  tryLockMasked : ∀ place,
    w.call (.tryLockMasked place) = .quiet (.acquired false) w
  lock : ∀ place, w.call (.lock place) = .quiet .wouldSpin w
  withLock : ∀ answer change,
    w.withLock answer change = .quiet .wouldSpin w

/-- What requests to the guards do, and to interrupts. -/
structure Guarded (w : GuardedWord) (known : Known) : Prop where
  read : ∀ place, w.call (.read place) =
    .quiet (.value (if (known.live place).any Guard.holdsLock then
      some known.last else none)) w
  write : ∀ place value, w.call (.write place value) =
    if (known.live place).any Guard.holdsLock then
      .quiet (.written true) { w with lock := ⟨true, value⟩ }
    else .quiet (.written false) w
  drop : ∀ place, (w.call (.drop place)).value =
    .dropped (known.live place).isSome
  mask : ∀ place, (w.call (.mask place)).value = .masked interruptsEnabled

theorem Disciplined.shows (h : w.Disciplined) : w.Shows w.known where
  guard?_eq := rfl
  places_nodup := h.nodup
  holders_le := h.holders_le
  place_unique place other hplace hother := by
    simp only [GuardedWord.known, ← holds_eq_any] at hplace hother
    exact h.place_unique hplace hother
  locked_iff := h.locked_iff_taken
  value_eq := rfl

theorem Disciplined.free (h : w.Disciplined)
    (hfree : ¬Guard.Taken w.guard?) : w.Free w.known where
  tryLock place :=
    congrArg Outcome.value (attempt_of_free h _ _ hfree place .lock)
  tryLockMasked place :=
    congrArg Outcome.value (attempt_of_free h _ _ hfree place .maskedLock)
  lock place :=
    congrArg Outcome.value (attempt_of_free h _ _ hfree place .lock)
  withLock := withLock_of_free h hfree
  add amount := withLock_of_free h hfree .previous fun value => value + amount
  writeAndPanic value message :=
    withLock_of_free h hfree (fun _ => .panicked message) fun _ => value
  contend threads times := by
    refine ⟨Contention.exists_finished _ _, fun turns hfinished => ?_⟩
    obtain ⟨hlocked, hvalue⟩ :=
      Contention.run_replicate_of_finished _ threads times hfinished
    rw [hlocked, hvalue]
    exact withLock_of_free h hfree (fun _ => .finished) fun value =>
      value + BitVec.ofNat 64 (threads * times)

theorem Disciplined.held_of_taken (h : w.Disciplined)
    (htaken : Guard.Taken w.guard?) : w.Held where
  tryLock place := attempt_of_taken h _ _ htaken place .lock
  tryLockMasked place := attempt_of_taken h _ _ htaken place .maskedLock
  lock place := attempt_of_taken h _ _ htaken place .lock
  withLock := withLock_of_taken h htaken

theorem Disciplined.guarded (h : w.Disciplined) : w.Guarded w.known where
  read place := by
    rw [GuardedWord.call, holds_eq_any]
    rfl
  write place value := by
    simp only [GuardedWord.call, holds_eq_any]
    refine ite_congr rfl (fun hholds => ?_) fun _ => rfl
    rw [SpinLock.put, h.locked_iff_taken.2 ⟨place, hholds⟩]
  drop _ := rfl
  mask _ := rfl

/-- Whatever was asked before, at most one guard that holds the lock is alive,
and the flag tells whether one is.  As long as none is, attempts succeed and
closures run under the lock, which is free again when they end or panic, with
what they wrote; as long as one is, attempts fail and change nothing.  A guard
is alive until it is dropped or another one comes to its place, and every value
read is the one that was written last. -/
theorem guard_discipline (value : Word) (calls : List Call) :
    let w := Outcome.after call (start value) calls
    let known := (Known.start value).after calls
      ((Outcome.history call (start value) calls).map Outcome.value)
    w.Shows known ∧
      (∀ c, (w.call c).state.Shows (known.next c (w.call c).value)) ∧
      (¬Guard.Taken known.live → w.Free known) ∧
      (Guard.Taken known.live → w.Held) ∧ w.Guarded known := by
  intro w known
  have h : w.Disciplined := (disciplined_start value).after calls
  have hknown : w.known = known := known_after (start value) calls
  rw [← hknown]
  refine ⟨h.shows, fun c => ?_, h.free, h.held_of_taken, h.guarded⟩
  rw [← known_call]
  exact (h.call c).shows

/-- A held lock refuses a second guard.  A mask put into the guard's place frees
it, and so does dropping the guard. -/
theorem guard_discipline_overwritten :
    let held := Outcome.after call (start 5) [.lock 0, .write 0 7]
    let freed := Outcome.after call (start 5) [.lock 0, .write 0 7, .mask 0]
    held.call (.tryLockMasked 1) = .quiet (.acquired false) held ∧
      (held.call (.drop 0)).state.lock = ⟨false, 7⟩ ∧
      (freed.call (.lock 1)).value = .held ∧
      (freed.call (.lock 1)).state.lock = ⟨true, 7⟩ ∧
      freed.call (.add 2) =
        .quiet (.previous 7) { freed with lock := ⟨false, 9⟩ } ∧
      freed.call (.writeAndPanic 9 "boom") =
        .quiet (.panicked "boom") { freed with lock := ⟨false, 9⟩ } := by
  intro held freed
  obtain ⟨-, -, -, hheld, -⟩ := guard_discipline 5 [.lock 0, .write 0 7]
  obtain ⟨hshows, -, hfree, -⟩ :=
    guard_discipline 5 [.lock 0, .write 0 7, .mask 0]
  have hopen := hfree fun htaken =>
    absurd (hshows.locked_iff.2 htaken) (by decide)
  exact ⟨(hheld ⟨0, by decide⟩).tryLockMasked 1, rfl, hopen.lock 1, rfl,
    hopen.add 2, hopen.writeAndPanic 9 "boom"⟩

end GuardedWord

end FourLevelPaging
