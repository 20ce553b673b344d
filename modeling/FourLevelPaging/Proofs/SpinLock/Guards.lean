/-
The discipline of a spin lock's guards.  Whatever was asked before, the lock is
held exactly while one guard that holds it is alive, and then one only.
-/
import FourLevelPaging.SpinLock.Guards
import Mathlib.Logic.Function.Basic
import Mathlib.Tactic.ByContra

namespace FourLevelPaging

/-- One of the guards that are alive, by place, holds the lock. -/
def Guard.Taken (live : Nat → Option Guard) : Prop :=
  ∃ place, (live place).any Guard.holdsLock = true

namespace GuardedWord

variable {w w' : GuardedWord} {place other : Nat} {guard : Guard}

/-- How many of the guards that are alive hold the lock. -/
def holders (w : GuardedWord) : Nat :=
  w.guards.countP fun kept => kept.2.holdsLock

/-- A place keeps one guard, and the lock is held exactly while one of the
guards holds it. -/
structure Disciplined (w : GuardedWord) : Prop where
  nodup : (w.guards.map Prod.fst).Nodup
  held : w.holders = if w.lock.locked then 1 else 0

theorem disciplined_start (value : Word) : (start value).Disciplined :=
  ⟨List.nodup_nil, rfl⟩

section Places

variable {guards : List (Nat × Guard)}

theorem nodup_filter (hnodup : (guards.map Prod.fst).Nodup) (place : Nat) :
    ((guards.filter fun kept => kept.1 != place).map Prod.fst).Nodup :=
  hnodup.sublist (List.filter_sublist.map Prod.fst)

theorem not_mem_places_filter :
    place ∉ (guards.filter fun kept => kept.1 != place).map Prod.fst := by
  simp

theorem lookup_of_mem (hnodup : (guards.map Prod.fst).Nodup)
    (hmem : (place, guard) ∈ guards) : guards.lookup place = some guard := by
  obtain ⟨before, after, rfl⟩ := List.append_of_mem hmem
  rw [List.map_append, List.map_cons, List.nodup_append] at hnodup
  refine List.lookup_eq_some_iff.2 ⟨before, after, rfl, fun kept hkept => ?_⟩
  have hne := hnodup.2.2 _ (List.mem_map_of_mem hkept) _ List.mem_cons_self
  exact bne_iff_ne.2 hne.symm

/-- Dropping the guard of a place takes away that guard only. -/
theorem lookup_filter (guards : List (Nat × Guard)) (place other : Nat) :
    (guards.filter fun kept => kept.1 != place).lookup other =
      if other = place then none else guards.lookup other := by
  induction guards with
  | nil => simp
  | cons kept rest ih =>
      obtain ⟨here, guard⟩ := kept
      by_cases hplace : here = place
      · rw [List.filter_cons_of_neg (by simp [hplace]), ih, List.lookup_cons]
        by_cases hother : other = place
        · rw [if_pos hother, if_pos hother]
        · have hne : (other == here) = false := by simp [hplace, hother]
          rw [if_neg hother, if_neg hother, hne]
      · rw [List.filter_cons_of_pos (by simp [hplace]), List.lookup_cons,
          List.lookup_cons, ih]
        by_cases hother : other = here
        · have hne : ¬other = place := hother ▸ hplace
          simp only [hother, BEq.rfl, hplace, if_false]
        · have hne : (other == here) = false := beq_false_of_ne hother
          rw [hne]

/-- The guards that hold the lock are counted with the dropped one. -/
theorem countP_filter_add (p : Guard → Bool)
    (hnodup : (guards.map Prod.fst).Nodup) :
    ((guards.filter fun kept => kept.1 != place).countP fun kept => p kept.2) +
        (if (guards.lookup place).any p then 1 else 0) =
      guards.countP fun kept => p kept.2 := by
  induction guards with
  | nil => rfl
  | cons kept rest ih =>
      obtain ⟨here, guard⟩ := kept
      simp only [List.map_cons, List.nodup_cons] at hnodup
      by_cases hplace : here = place
      · subst hplace
        have hrest : rest.filter (fun kept => kept.1 != here) = rest := by
          refine List.filter_eq_self.2 fun kept hkept => bne_iff_ne.2 ?_
          exact fun hsame => hnodup.1 (hsame ▸ List.mem_map_of_mem hkept)
        simp [hrest, List.countP_cons]
      · have hother : (place == here) = false :=
          beq_false_of_ne (Ne.symm hplace)
        have hkeep : (here != place) = true := bne_iff_ne.2 hplace
        have hrest := ih hnodup.2
        simp only [List.filter_cons, hkeep, ↓reduceIte, List.lookup_cons,
          hother, List.countP_cons]
        omega

end Places

theorem holds_eq_any (w : GuardedWord) (place : Nat) :
    w.holds place = (w.guard? place).any Guard.holdsLock := by
  unfold holds
  split <;> simp [*]

theorem guard?_drop (w : GuardedWord) (place : Nat) :
    (w.drop place).guard? = Function.update w.guard? place none := by
  funext other
  rw [Function.update_apply]
  exact lookup_filter w.guards place other

theorem guard?_keep (w : GuardedWord) (place : Nat) (guard : Guard) :
    (w.keep place guard).guard? =
      Function.update w.guard? place (some guard) := by
  funext other
  rw [Function.update_apply]
  have hdrop := congrFun (w.guard?_drop place) other
  rw [Function.update_apply] at hdrop
  simp only [guard?, keep, List.lookup_cons] at hdrop ⊢
  by_cases hother : other = place
  · rw [if_pos hother, beq_iff_eq.2 hother]
  · rw [if_neg hother, beq_false_of_ne hother, hdrop, if_neg hother]

theorem holders_drop (h : w.Disciplined) (place : Nat) :
    (w.drop place).holders + (if w.holds place = true then 1 else 0) =
      w.holders := by
  rw [holds_eq_any]
  exact countP_filter_add Guard.holdsLock h.nodup

/-- A place that holds the lock is one of the holders. -/
theorem holders_pos (h : w.Disciplined) (hholds : w.holds place = true) :
    0 < w.holders := by
  have hdrop := holders_drop h place
  rw [if_pos hholds] at hdrop
  omega

theorem Disciplined.holders_le (h : w.Disciplined) : w.holders ≤ 1 := by
  rw [h.held]
  split <;> omega

theorem Disciplined.locked_iff_taken (h : w.Disciplined) :
    w.lock.locked = true ↔ Guard.Taken w.guard? := by
  constructor
  · intro hlocked
    have hone := h.held
    rw [if_pos hlocked] at hone
    obtain ⟨⟨place, guard⟩, hmem, hguard⟩ :=
      List.countP_pos_iff.1 (hone ▸ Nat.one_pos : 0 < w.holders)
    refine ⟨place, ?_⟩
    rw [guard?, lookup_of_mem h.nodup hmem]
    exact hguard
  · rintro ⟨place, hholds⟩
    rw [← holds_eq_any] at hholds
    by_contra hfree
    have hpos := holders_pos h hholds
    rw [h.held, if_neg hfree] at hpos
    exact Nat.lt_irrefl 0 hpos

theorem Disciplined.not_taken (h : w.Disciplined)
    (hfree : ¬Guard.Taken w.guard?) : w.lock.locked = false := by
  by_contra hlocked
  exact hfree (h.locked_iff_taken.1 (Bool.not_eq_false _ ▸ hlocked))

theorem Disciplined.drop (h : w.Disciplined) (place : Nat) :
    (w.drop place).Disciplined := by
  refine ⟨nodup_filter h.nodup place, ?_⟩
  have hdrop := holders_drop h place
  have hheld := h.held
  cases hholds : w.holds place with
  | true =>
      have hpos := holders_pos h hholds
      have hlocked :=
        h.locked_iff_taken.2 ⟨place, holds_eq_any w place ▸ hholds⟩
      rw [if_pos hlocked] at hheld
      rw [if_pos hholds] at hdrop
      simp only [GuardedWord.drop, hholds, if_true, SpinLock.release] at hdrop ⊢
      simp only [Bool.false_eq_true, if_false]
      omega
  | false =>
      simp only [GuardedWord.drop, hholds, Bool.false_eq_true, if_false]
        at hdrop ⊢
      omega

/-- A place that does not hold the lock is no second holder beside one that
does. -/
theorem Disciplined.place_unique (h : w.Disciplined)
    (hplace : w.holds place = true) (hother : w.holds other = true) :
    place = other := by
  by_contra hne
  have hdrop := holders_drop h place
  have hle := h.holders_le
  rw [if_pos hplace] at hdrop
  have hkept : (w.drop place).holds other = true := by
    rw [holds_eq_any, guard?_drop, Function.update_of_ne (Ne.symm hne),
      ← holds_eq_any]
    exact hother
  have hpos := holders_pos (h.drop place) hkept
  omega

/-- Keeping a guard that does not hold the lock drops at most one that does. -/
theorem Disciplined.keep_mask (h : w.Disciplined) (place : Nat)
    (hguard : guard.holdsLock = false) : (w.keep place guard).Disciplined := by
  obtain ⟨hnodup, hheld⟩ := h.drop place
  refine ⟨?_, ?_⟩
  · exact List.nodup_cons.2 ⟨not_mem_places_filter, hnodup⟩
  · exact (List.countP_cons_of_neg (by simp [hguard])).trans hheld

section Attempt

variable (h : w.Disciplined)

include h

/-- An attempt on a free lock keeps the new guard, and drops none that holds the
lock. -/
theorem tryAcquire_of_free (hfree : ¬Guard.Taken w.guard?) (place : Nat)
    (guard : Guard) :
    w.tryAcquire place guard =
      some { w.keep place guard with lock := ⟨true, w.lock.value⟩ } := by
  have hlocked := h.not_taken hfree
  have hholds : w.holds place = false := by
    by_contra hheld
    rw [Bool.not_eq_false, holds_eq_any] at hheld
    exact hfree ⟨place, hheld⟩
  have hholds' : holds ⟨⟨true, w.lock.value⟩, w.guards⟩ place = false := hholds
  simp [tryAcquire, SpinLock.tryAcquire?, hlocked, keep, GuardedWord.drop,
    hholds']

theorem tryAcquire_of_taken (htaken : Guard.Taken w.guard?) (place : Nat)
    (guard : Guard) : w.tryAcquire place guard = none := by
  simp [tryAcquire, SpinLock.tryAcquire?, h.locked_iff_taken.2 htaken]

variable (success failure : Reply)

theorem attempt_of_free (hfree : ¬Guard.Taken w.guard?) (place : Nat)
    (guard : Guard) :
    w.attempt place guard success failure =
      .quiet success
        { w.keep place guard with lock := ⟨true, w.lock.value⟩ } := by
  rw [attempt, tryAcquire_of_free h hfree]

theorem attempt_of_taken (htaken : Guard.Taken w.guard?) (place : Nat)
    (guard : Guard) :
    w.attempt place guard success failure = .quiet failure w := by
  rw [attempt, tryAcquire_of_taken h htaken]

theorem Disciplined.attempt (hguard : guard.holdsLock = true) (place : Nat) :
    (w.attempt place guard success failure).state.Disciplined := by
  by_cases htaken : Guard.Taken w.guard?
  · rw [attempt_of_taken h success failure htaken]
    exact h
  · rw [attempt_of_free h success failure htaken]
    refine ⟨List.nodup_cons.2
      ⟨not_mem_places_filter, nodup_filter h.nodup place⟩, ?_⟩
    have hnone := h.held
    have hdrop := holders_drop h place
    simp only [h.not_taken htaken, Bool.false_eq_true, if_false] at hnone
    have hrest : (w.drop place).holders = 0 := by omega
    exact (List.countP_cons_of_pos
      (p := fun kept : Nat × Guard => kept.2.holdsLock)
      (a := (place, guard)) hguard).trans (congrArg (· + 1) hrest)

/-- Running a closure with the lock held gives its answer and its value, and a
free lock. -/
theorem withLock_of_free (hfree : ¬Guard.Taken w.guard?)
    (answer : Word → Reply) (change : Word → Word) :
    w.withLock answer change =
      .quiet (answer w.lock.value)
        { w with lock := ⟨false, change w.lock.value⟩ } := by
  simp [withLock, SpinLock.tryAcquire?, h.not_taken hfree, SpinLock.put,
    SpinLock.release]

theorem withLock_of_taken (htaken : Guard.Taken w.guard?)
    (answer : Word → Reply) (change : Word → Word) :
    w.withLock answer change = .quiet .wouldSpin w := by
  simp [withLock, SpinLock.tryAcquire?, h.locked_iff_taken.2 htaken]

theorem Disciplined.withLock (answer : Word → Reply) (change : Word → Word) :
    (w.withLock answer change).state.Disciplined := by
  by_cases htaken : Guard.Taken w.guard?
  · rw [withLock_of_taken h htaken]
    exact h
  · rw [withLock_of_free h htaken]
    refine ⟨h.nodup, ?_⟩
    have hnone := h.held
    rw [h.not_taken htaken] at hnone
    exact hnone

theorem Disciplined.call (c : Call) : (w.call c).state.Disciplined := by
  cases c with
  | tryLock place => exact h.attempt _ _ rfl place
  | tryLockMasked place => exact h.attempt _ _ rfl place
  | lock place => exact h.attempt _ _ rfl place
  | mask place => exact h.keep_mask place rfl
  | read place => exact h
  | write place value =>
      simp only [GuardedWord.call]
      split
      · exact ⟨h.nodup, h.held⟩
      · exact h
  | drop place => exact h.drop place
  | add amount => exact h.withLock _ _
  | writeAndPanic value message => exact h.withLock _ _
  | contend threads times => exact h.withLock _ _

end Attempt

theorem Disciplined.after (h : w.Disciplined) (calls : List Call) :
    (Outcome.after GuardedWord.call w calls).Disciplined := by
  induction calls generalizing w with
  | nil => exact h
  | cons c rest ih => exact ih (h.call c)

end GuardedWord

end FourLevelPaging
