/-
Outcomes of operations on a state.  An operation that fails still leaves a
state behind, so answer, state and reports are returned side by side.
-/

namespace FourLevelPaging

universe u v w x

/-- What an operation answers, the state it leaves and what it reported on the
way. -/
structure Outcome (ε : Type u) (σ : Type v) (α : Type w) where
  value : α
  state : σ
  events : Array ε

namespace Outcome

variable {ε : Type u} {σ : Type v} {α : Type w} {κ : Type x}

/-- The outcome of an operation that reports nothing. -/
def quiet (value : α) (state : σ) : Outcome ε σ α := ⟨value, state, #[]⟩

/-- The outcomes of a list of calls, each made in the state the one before it
left. -/
def history (call : σ → κ → Outcome ε σ α) : σ → List κ → List (Outcome ε σ α)
  | _, [] => []
  | state, c :: rest =>
      call state c :: history call (call state c).state rest

/-- The state after a list of calls. -/
def after (call : σ → κ → Outcome ε σ α) : σ → List κ → σ
  | state, [] => state
  | state, c :: rest => after call (call state c).state rest

end Outcome

end FourLevelPaging
