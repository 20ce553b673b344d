/-
What it means that an operation ends without a trap, and as it does without
arrays.  Lists that are noted in arrays are read from them as they were.
-/
import FourLevelPaging.Checked.Trap
import FourLevelPaging.Outcome

namespace FourLevelPaging

open Checked

/-- The outcome with another view of the state that is left. -/
def Outcome.mapState {ε σ τ α : Type} (view : σ → τ) (done : Outcome ε σ α) :
    Outcome ε τ α :=
  { done with state := view done.state }

/-- The outcome with another answer. -/
def Outcome.mapValue {ε σ α β : Type} (f : α → β) (done : Outcome ε σ α) :
    Outcome ε σ β :=
  { done with value := f done.value }

/-- The operation ends without a trap, and its outcome is `done` for the states
that its own states stand for. -/
def Carries {ε σ τ α : Type} (view : σ → τ) (Sound : σ → Prop)
    (run : Checked (Outcome ε σ α)) (done : Outcome ε τ α) : Prop :=
  ∃ out, run = .ok out ∧ Sound out.state ∧ out.mapState view = done

/-- What follows an operation that ends without a trap. -/
theorem Carries.bind {ε σ τ σ' τ' α β : Type} {view : σ → τ} {Sound : σ → Prop}
    {view' : σ' → τ'} {Sound' : σ' → Prop} {run : Checked (Outcome ε σ α)}
    {done : Outcome ε τ α} {next : Outcome ε σ α → Checked (Outcome ε σ' β)}
    {done' : Outcome ε τ' β} (hrun : Carries view Sound run done)
    (hnext : ∀ out, Sound out.state → out.mapState view = done →
      Carries view' Sound' (next out) done') :
    Carries view' Sound' (run >>= next) done' := by
  obtain ⟨out, rfl, hsound, hout⟩ := hrun
  exact hnext out hsound hout

namespace Checked

variable {α : Type} {n : Nat}

/-- The elements of a list in an array, and `rest` in what is left of it. -/
def noted (n : Nat) (rest : α) (xs : List α) : Vector α n :=
  .ofFn fun k => xs[k.val]?.getD rest

theorem noted_nil (rest : α) : noted n rest [] = .replicate n rest := by
  ext i hi
  simp [noted]

theorem setItem_noted (rest x : α) {xs : List α} (hroom : xs.length < n) :
    setItem (noted n rest xs) xs.length x = .ok (noted n rest (xs ++ [x])) := by
  rw [setItem_eq_ok _ _ hroom]
  congr 1
  ext i hi
  simp only [noted, Vector.getElem_set, Vector.getElem_ofFn]
  split
  · next heq => simp [← heq]
  · next hne =>
      rcases Nat.lt_or_gt_of_ne hne with hlt | hgt
      · have hlength : (xs ++ [x]).length ≤ i := by
          rw [List.length_append, List.length_singleton]
          exact hlt
        rw [List.getElem?_eq_none (Nat.le_of_lt hlt),
          List.getElem?_eq_none hlength]
      · simp [List.getElem?_append_left hgt]

theorem take_noted (rest : α) {xs : List α} (hfits : xs.length ≤ n) :
    (noted n rest xs).toList.take xs.length = xs := by
  apply List.ext_getElem?
  intro i
  by_cases hi : i < xs.length
  · have hi' : i < n := by omega
    simp [noted, hi, hi']
  · have hle : xs.length ≤ i := Nat.le_of_not_lt hi
    rw [List.getElem?_eq_none hle, List.getElem?_eq_none]
    exact Nat.le_trans (List.length_take_le _ _) hle

end Checked

end FourLevelPaging
