/-
Competing threads lose no addition.  Whatever the order of their steps, the flag
is set exactly while one thread is inside, that thread alone has read the value,
and the value lacks exactly the additions that are still to be written.
-/
import FourLevelPaging.SpinLock.Contention
import Mathlib.Algebra.BigOperators.Group.List.Basic

namespace FourLevelPaging

namespace Worker

variable {w w' : Worker} {locked locked' : Bool} {value value' : Word}

/-- How many additions the thread has still to write.  Before it frees the lock,
the last one is written already. -/
def pending (w : Worker) : Nat :=
  if w.point = .leaving then w.left - 1 else w.left

/-- What a step of a thread can do: wait outside, enter when the flag is clear,
read the value, write its successor, or leave and clear the flag. -/
inductive Acts (w : Worker) (locked : Bool) (value : Word) :
    Bool → Word → Worker → Prop
  | waits {w' : Worker} (hout : w.inside = false) (hout' : w'.inside = false)
      (hpending : w'.pending = w.pending) : Acts w locked value locked value w'
  | enters (hfree : locked = false) (hout : w.inside = false)
      (hbusy : w.left ≠ 0) (hpending : w.pending = w.left) :
      Acts w locked value true value { w with point := .entered }
  | reads (hpoint : w.point = .entered) (hbusy : w.left ≠ 0) :
      Acts w locked value locked value { w with point := .computed value }
  | writes {seen : Word} (hpoint : w.point = .computed seen)
      (hbusy : w.left ≠ 0) :
      Acts w locked value locked (seen + 1) { w with point := .leaving }
  | leaves (hpoint : w.point = .leaving) :
      Acts w locked value false value { point := .trying, left := w.left - 1 }

/-- A thread that is inside has something left to do, so it does not stop
there. -/
theorem acts_step (hbusy : w.inside = true → w.left ≠ 0) (locked : Bool)
    (value : Word) :
    w.Acts locked value (w.step locked value).1 (w.step locked value).2.1
      (w.step locked value).2.2 := by
  rcases w with ⟨point, left⟩
  by_cases hleft : left = 0
  · have hstep : step ⟨point, left⟩ locked value =
        (locked, value, ⟨point, left⟩) := by
      simp [step, finished, hleft]
    have hout : inside ⟨point, left⟩ = false := by
      by_contra hin
      exact hbusy (Bool.not_eq_false _ ▸ hin) hleft
    rw [hstep]
    exact .waits hout hout rfl
  · have hfinished : finished ⟨point, left⟩ = false := by simp [finished, hleft]
    cases point with
    | trying =>
        cases locked with
        | true =>
            simp only [step, hfinished, Bool.false_eq_true, ↓reduceIte]
            exact .waits rfl rfl rfl
        | false =>
            simp only [step, hfinished, Bool.false_eq_true, ↓reduceIte]
            exact .enters rfl rfl hleft rfl
    | watching =>
        cases locked with
        | true =>
            simp only [step, hfinished, Bool.false_eq_true, ↓reduceIte]
            exact .waits rfl rfl rfl
        | false =>
            simp only [step, hfinished, Bool.false_eq_true, ↓reduceIte]
            exact .waits rfl rfl rfl
    | entered =>
        simp only [step, hfinished, Bool.false_eq_true, ↓reduceIte]
        exact .reads rfl hleft
    | computed seen =>
        simp only [step, hfinished, Bool.false_eq_true, ↓reduceIte]
        exact .writes rfl hleft
    | leaving =>
        simp only [step, hfinished, Bool.false_eq_true, ↓reduceIte]
        exact .leaves rfl

end Worker

namespace Contention

variable {c : Contention} {goal : Word}

/-- The flag is set exactly while a thread is inside, and then one only; what it
has read is the value; and the value becomes `goal` once every pending addition
is written. -/
structure Orderly (goal : Word) (c : Contention) : Prop where
  holders : c.workers.countP Worker.inside = if c.locked then 1 else 0
  busy : ∀ w ∈ c.workers, w.inside = true → w.left ≠ 0
  seen : ∀ w ∈ c.workers, ∀ v, w.point = .computed v → v = c.value
  total : c.value + BitVec.ofNat 64 (c.workers.map Worker.pending).sum = goal

theorem inside_of_computed {w : Worker} {v : Word}
    (hpoint : w.point = .computed v) : w.inside = true := by
  simp [Worker.inside, hpoint]

theorem orderly_start (value : Word) (rounds : List Nat) :
    (start value rounds).Orderly (value + BitVec.ofNat 64 rounds.sum) := by
  have hpending :
      rounds.map (Worker.pending ∘ fun left => ⟨.trying, left⟩) = rounds := by
    simp [Function.comp_def, Worker.pending]
  refine ⟨?_, ?_, ?_, ?_⟩
  · simp [start, List.countP_map, Function.comp_def, Worker.inside]
  · simp [start, Worker.inside]
  · simp [start]
  · rw [start, List.map_map, hpending]

section Turn

variable {locked locked' : Bool} {value value' : Word}
  {before after : List Worker} {w w' : Worker}

/-- While one thread is inside, the flag is set and no other thread has read a
value. -/
theorem Orderly.alone (h : Orderly goal ⟨locked, value, before ++ w :: after⟩)
    (hin : w.inside = true) :
    locked = true ∧
      ∀ other ∈ before ++ after, ∀ v, other.point ≠ .computed v := by
  have hcount := h.holders
  simp only [List.countP_append, List.countP_cons, hin, ↓reduceIte] at hcount
  have hlocked : locked = true := by
    by_contra hfree
    rw [if_neg hfree] at hcount
    omega
  rw [if_pos hlocked] at hcount
  refine ⟨hlocked, fun other hother v hpoint => ?_⟩
  have hnone : (before ++ after).countP Worker.inside = 0 := by
    rw [List.countP_append]
    omega
  exact List.countP_eq_zero.1 hnone other hother (inside_of_computed hpoint)

/-- Order is kept if one thread changes together with the flag and the value. -/
theorem Orderly.replace (h : Orderly goal ⟨locked, value, before ++ w :: after⟩)
    (hcount : (if w'.inside = true then 1 else 0) + (if locked then 1 else 0) =
      (if w.inside = true then 1 else 0) + if locked' then 1 else 0)
    (hbusy : w'.inside = true → w'.left ≠ 0)
    (hself : ∀ v, w'.point = .computed v → v = value')
    (hothers : ∀ other ∈ before ++ after, ∀ v, other.point = .computed v →
      v = value')
    (htotal : value' + BitVec.ofNat 64 w'.pending =
      value + BitVec.ofNat 64 w.pending) :
    Orderly goal ⟨locked', value', before ++ w' :: after⟩ := by
  have hmem : ∀ {other}, other ∈ before ++ w' :: after →
      other = w' ∨ other ∈ before ++ after := by
    intro other hother
    rw [List.mem_append, List.mem_cons] at hother
    rw [List.mem_append]
    tauto
  refine ⟨?_, ?_, ?_, ?_⟩
  · have hold := h.holders
    simp only [List.countP_append, List.countP_cons] at hold ⊢
    omega
  · intro other hother hin
    rcases hmem hother with rfl | hother
    · exact hbusy hin
    · refine h.busy other ?_ hin
      rw [List.mem_append, List.mem_cons]
      rw [List.mem_append] at hother
      tauto
  · intro other hother v hpoint
    rcases hmem hother with rfl | hother
    · exact hself v hpoint
    · exact hothers other hother v hpoint
  · have hold := h.total
    simp only [List.map_append, List.map_cons, List.sum_append, List.sum_cons,
      BitVec.ofNat_add] at hold ⊢
    have hfront :
        ∀ x y p rest : Word, x + (p + (y + rest)) = (x + y) + (p + rest) :=
      fun x y p rest => by ac_rfl
    rw [← hold, hfront, hfront, htotal]

/-- One step of a thread, the others standing still. -/
theorem Orderly.acts (h : Orderly goal ⟨locked, value, before ++ w :: after⟩)
    (hacts : w.Acts locked value locked' value' w') :
    Orderly goal ⟨locked', value', before ++ w' :: after⟩ := by
  have hseen : ∀ other ∈ before ++ after, ∀ v, other.point = .computed v →
      v = value := by
    intro other hother v hpoint
    refine h.seen other ?_ v hpoint
    rw [List.mem_append, List.mem_cons]
    rw [List.mem_append] at hother
    tauto
  cases hacts with
  | waits hout hout' hpending =>
      have hself : ∀ v, w'.point ≠ .computed v := fun v hpoint => by
        rw [inside_of_computed hpoint] at hout'
        cases hout'
      refine h.replace ?_ ?_ (fun v hpoint => absurd hpoint (hself v)) hseen ?_
      · rw [hout, hout']
      · simp [hout']
      · rw [hpending]
  | enters hfree hout hbusy hpending =>
      refine h.replace ?_ (fun _ => hbusy) nofun hseen ?_
      · rw [hout, hfree]
        rfl
      · rw [hpending]
        rfl
  | reads hpoint hbusy =>
      have hin : w.inside = true := by simp [Worker.inside, hpoint]
      refine h.replace ?_ (fun _ => hbusy) ?_ hseen ?_
      · rw [hin]
        rfl
      · rintro v ⟨⟩
        rfl
      · simp [Worker.pending, hpoint]
  | @writes seen hpoint hbusy =>
      obtain ⟨-, halone⟩ := h.alone (inside_of_computed hpoint)
      have hvalue : seen = value := h.seen w (by simp) seen hpoint
      have hleft : w.left = w.left - 1 + 1 := by omega
      refine h.replace ?_ (fun _ => hbusy) nofun (fun other hother v hother' =>
        absurd hother' (halone other hother v)) ?_
      · rw [inside_of_computed hpoint]
        rfl
      · have hbefore : w.pending = w.left := by simp [Worker.pending, hpoint]
        rw [hbefore, hleft, hvalue]
        simp only [Worker.pending, ↓reduceIte, BitVec.ofNat_add,
          Nat.add_sub_cancel]
        rw [BitVec.add_assoc, BitVec.add_comm 1]
        rfl
  | leaves hpoint =>
      have hin : w.inside = true := by simp [Worker.inside, hpoint]
      obtain ⟨hlocked, -⟩ := h.alone hin
      refine h.replace ?_ nofun nofun hseen ?_
      · rw [hin, hlocked]
        rfl
      · simp [Worker.pending, hpoint]

end Turn

theorem Orderly.advance (h : c.Orderly goal) (turn : Nat) :
    (c.advance turn).Orderly goal := by
  unfold Contention.advance
  split
  · exact h
  · next w hturn =>
      obtain ⟨hlt, rfl⟩ := List.getElem?_eq_some_iff.1 hturn
      have hacts :=
        Worker.acts_step (h.busy _ (List.getElem_mem hlt)) c.locked c.value
      obtain ⟨before, after, hworkers, -, hset⟩ :
          ∃ before after, c.workers = before ++ c.workers[turn] :: after ∧
            before.length = turn ∧
            c.workers.set turn (c.workers[turn].step c.locked c.value).2.2 =
              before ++ (c.workers[turn].step c.locked c.value).2.2 :: after :=
        List.exists_of_set hlt
      have hsplit : Orderly goal ⟨c.locked, c.value,
          before ++ c.workers[turn] :: after⟩ := by
        rw [← hworkers]
        exact h
      change Orderly goal ⟨(c.workers[turn].step c.locked c.value).1,
        (c.workers[turn].step c.locked c.value).2.1,
        c.workers.set turn (c.workers[turn].step c.locked c.value).2.2⟩
      rw [hset]
      exact hsplit.acts hacts

theorem Orderly.run (h : c.Orderly goal) (turns : List Nat) :
    (c.run turns).Orderly goal := by
  induction turns generalizing c with
  | nil => exact h
  | cons turn rest ih => exact ih (h.advance turn)

theorem length_workers_run (c : Contention) (turns : List Nat) :
    (c.run turns).workers.length = c.workers.length := by
  induction turns generalizing c with
  | nil => rfl
  | cons turn rest ih =>
      have hadvance : (c.advance turn).workers.length = c.workers.length := by
        unfold advance
        split
        · rfl
        · exact List.length_set
      exact (ih (c.advance turn)).trans hadvance

/-- Once every thread has finished, nobody is inside and nothing is pending. -/
theorem Orderly.finished (h : c.Orderly goal) (hfinished : c.finished = true) :
    c.locked = false ∧ c.value = goal := by
  have hleft : ∀ w ∈ c.workers, w.left = 0 := by
    intro w hw
    simpa [Worker.finished] using List.all_eq_true.1 hfinished w hw
  have hinside : c.workers.countP Worker.inside = 0 := by
    rw [List.countP_eq_zero]
    intro w hw hin
    exact h.busy w hw hin (hleft w hw)
  have hpending : (c.workers.map Worker.pending).sum = 0 := by
    refine List.sum_eq_zero fun n hn => ?_
    obtain ⟨w, hw, rfl⟩ := List.mem_map.1 hn
    simp [Worker.pending, hleft w hw]
  have hcount := h.holders
  have htotal := h.total
  rw [hinside] at hcount
  rw [hpending] at htotal
  constructor
  · by_contra hlocked
    rw [Bool.not_eq_false] at hlocked
    simp [hlocked] at hcount
  · simpa using htotal

section Alone

variable {locked : Bool} {value : Word} {before after : List Worker}

theorem run_append (c : Contention) (first second : List Nat) :
    c.run (first ++ second) = (c.run first).run second :=
  List.foldl_append

theorem advance_append (w : Worker) :
    advance ⟨locked, value, before ++ w :: after⟩ before.length =
      ⟨(w.step locked value).1, (w.step locked value).2.1,
        before ++ (w.step locked value).2.2 :: after⟩ := by
  simp [advance]

/-- A thread that finds the lock free and is not disturbed adds one in four
steps and leaves the lock free. -/
theorem run_round (left : Nat) :
    run ⟨false, value, before ++ ⟨.trying, left + 1⟩ :: after⟩
        (List.replicate 4 before.length) =
      ⟨false, value + 1, before ++ ⟨.trying, left⟩ :: after⟩ := by
  simp only [run, List.replicate, List.foldl_cons, List.foldl_nil,
    advance_append]
  rfl

/-- Undisturbed, a thread comes to the end of its work. -/
theorem exists_run_alone (value : Word) (before after : List Worker)
    (left : Nat) :
    ∃ turns next,
      run ⟨false, value, before ++ ⟨.trying, left⟩ :: after⟩ turns =
        ⟨false, next, before ++ ⟨.trying, 0⟩ :: after⟩ := by
  induction left generalizing value with
  | zero => exact ⟨[], value, rfl⟩
  | succ left ih =>
      obtain ⟨turns, next, hturns⟩ := ih (value + 1)
      refine ⟨List.replicate 4 before.length ++ turns, next, ?_⟩
      rw [run_append, run_round]
      exact hturns

/-- One thread after the other, all of them do. -/
theorem exists_run_finished (value : Word) {before : List Worker}
    (hbefore : before.all Worker.finished = true) (rounds : List Nat) :
    ∃ turns, (run ⟨false, value,
      before ++ rounds.map fun left => ⟨.trying, left⟩⟩ turns).finished =
        true := by
  induction rounds generalizing value before with
  | nil => exact ⟨[], by simpa [run, finished] using hbefore⟩
  | cons left rest ih =>
      obtain ⟨turns, next, hturns⟩ := exists_run_alone value before
        (rest.map fun left => ⟨.trying, left⟩) left
      have hdone :
          (before ++ [Worker.mk .trying 0]).all Worker.finished = true := by
        rw [List.all_append, hbefore]
        rfl
      obtain ⟨others, hothers⟩ := ih next hdone
      refine ⟨turns ++ others, ?_⟩
      rw [List.append_assoc] at hothers
      rw [run_append, List.map_cons, hturns]
      exact hothers

end Alone

theorem exists_finished (value : Word) (rounds : List Nat) :
    ∃ turns, ((start value rounds).run turns).finished = true := by
  have hnone : ([] : List Worker).all Worker.finished = true := rfl
  exact exists_run_finished value hnone rounds

/-- Whatever the order of their steps, threads that have each added one the same
number of times leave the same value and the lock free. -/
theorem run_replicate_of_finished (value : Word) (threads times : Nat)
    {turns : List Nat}
    (hfinished : ((start value (.replicate threads times)).run turns).finished =
      true) :
    ((start value (.replicate threads times)).run turns).locked = false ∧
      ((start value (.replicate threads times)).run turns).value =
        value + BitVec.ofNat 64 (threads * times) := by
  have horderly :=
    (orderly_start value (List.replicate threads times)).run turns
  rw [List.sum_replicate_nat] at horderly
  exact horderly.finished hfinished

/-- However the threads take turns, at most one of them is inside, the flag is
set exactly while one is, and when all have finished the lock is free and the
value has grown by the number of their additions. -/
theorem no_addition_lost (value : Word) (rounds turns : List Nat) :
    ((start value rounds).run turns).workers.length = rounds.length ∧
      ((start value rounds).run turns).workers.countP Worker.inside ≤ 1 ∧
      (((start value rounds).run turns).locked = true ↔
        ∃ w ∈ ((start value rounds).run turns).workers, w.inside = true) ∧
      (((start value rounds).run turns).finished = true →
        ((start value rounds).run turns).locked = false ∧
          (value.toNat + rounds.sum < 2 ^ 64 →
            ((start value rounds).run turns).value.toNat =
              value.toNat + rounds.sum)) := by
  have horderly := (orderly_start value rounds).run turns
  have hcount := horderly.holders
  refine ⟨?_, ?_, ?_, fun hfinished => ?_⟩
  · rw [length_workers_run, start, List.length_map]
  · rw [hcount]
    split <;> omega
  · rw [← List.countP_pos_iff, hcount]
    split <;> simp [*]
  · obtain ⟨hfree, hvalue⟩ := horderly.finished hfinished
    refine ⟨hfree, fun hfits => ?_⟩
    have hrounds : rounds.sum < 2 ^ 64 := by omega
    rw [hvalue, BitVec.toNat_add, BitVec.toNat_ofNat, Nat.mod_eq_of_lt hrounds,
      Nat.mod_eq_of_lt hfits]

/-- Two threads that get in each other's way while each adds one twice. -/
theorem no_addition_lost_two_threads :
    let c := (start 5 [2, 2]).run
      [1, 0, 1, 0, 1, 0, 1, 0, 0, 1, 0, 1, 0, 1, 0, 1, 0, 0, 0, 0, 1, 0, 1, 0,
        1, 0, 0, 1]
    c.finished = true ∧ c.locked = false ∧ c.value.toNat = 9 := by
  intro c
  have hfinished : c.finished = true := by decide
  obtain ⟨-, -, -, hdone⟩ := no_addition_lost 5 [2, 2] [1, 0, 1, 0, 1, 0, 1, 0,
    0, 1, 0, 1, 0, 1, 0, 1, 0, 0, 0, 0, 1, 0, 1, 0, 1, 0, 0, 1]
  obtain ⟨hfree, hvalue⟩ := hdone hfinished
  exact ⟨hfinished, hfree, hvalue (by decide)⟩

end Contention

end FourLevelPaging
