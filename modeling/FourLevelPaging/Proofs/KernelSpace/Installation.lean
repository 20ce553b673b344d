/-
A manager is put in place once.  Whether that has happened is kept twice, as
what is in the place and as a flag that can be asked without the lock; the two
agree after every program, and both say whether some request has answered that
it put a manager there.
-/
import FourLevelPaging.Proofs.KernelSpace.Settled

namespace FourLevelPaging.KernelSpace

/-- The answer says that a manager was put in place. -/
def Reply.installs : Reply → Bool
  | .installed => true
  | _ => false

theorem installs_iff (reply : Reply) :
    reply.installs = true ↔ reply = .installed := by
  cases reply with
  | _ => simp [Reply.installs]

/-- How many requests of a program answer that they put a manager in place. -/
def installs (kernel : KernelSpace) (program : List Call) : Nat :=
  ((history kernel program).map (·.value)).countP Reply.installs

theorem installs_cons (kernel : KernelSpace) (request : Call)
    (rest : List Call) :
    installs kernel (request :: rest) =
      installs (call request kernel).state rest +
        if (call request kernel).value.installs = true then 1 else 0 :=
  List.countP_cons

theorem installs_pos_iff (kernel : KernelSpace) (program : List Call) :
    0 < installs kernel program ↔
      .installed ∈ (history kernel program).map (·.value) := by
  rw [installs, List.countP_pos_iff]
  constructor
  · rintro ⟨reply, hreply, hinstalls⟩
    rw [installs_iff] at hinstalls
    exact hinstalls ▸ hreply
  · intro hreply
    exact ⟨.installed, hreply, rfl⟩

/-- A place that is filled stays filled, with a manager of the same space. -/
theorem after_holding (vm : Manager) (program : List Call) :
    (∃ vm', after (holding vm) program = holding vm' ∧ vm'.space = vm.space) ∧
      installs (holding vm) program = 0 := by
  induction program generalizing vm with
  | nil => exact ⟨⟨vm, rfl, rfl⟩, rfl⟩
  | cons request rest ih =>
      have hserved := served_call vm request
      obtain ⟨next, hstate, hspace⟩ := hserved.state_eq
      obtain ⟨⟨last, hlast, hspace'⟩, hcount⟩ := ih next
      constructor
      · refine ⟨last, ?_, hspace'.trans hspace⟩
        rw [← hlast, ← hstate]
        rfl
      · rw [installs_cons, hstate, hcount, if_neg]
        rw [installs_iff]
        exact hserved.ne rfl

/-- A program that starts with the place empty either leaves it so, or exactly
one of its requests fills it. -/
theorem after_empty (program : List Call) :
    (after empty program = empty ∧ installs empty program = 0) ∨
      (∃ vm, after empty program = holding vm) ∧
        installs empty program = 1 := by
  induction program with
  | nil => exact Or.inl ⟨rfl, rfl⟩
  | cons request rest ih =>
      rw [installs_cons]
      rcases call_empty request with ⟨hvalue, vm, hstate⟩ | ⟨hvalue, -, hstate⟩
      · obtain ⟨⟨last, hlast, -⟩, hcount⟩ := after_holding vm rest
        refine Or.inr ⟨⟨last, ?_⟩, ?_⟩
        · rw [← hlast, ← hstate]
          rfl
        · rw [hstate, hcount, hvalue]
          rfl
      · rw [Ne, ← installs_iff] at hvalue
        have hafter : after empty (request :: rest) = after empty rest :=
          congrArg (after · rest) hstate
        rw [hafter, hstate, if_neg hvalue]
        exact ih

theorem answerWithin_ne (request : Call) :
    request.answerWithin ≠ .installed ∧
      request.answerWithin ≠ .refused .notInitialized := by
  cases request with
  | install memory activate =>
      simp only [Call.answerWithin]
      split <;> simp
  | _ => simp [Call.answerWithin]

/-- No manager is in place. -/
structure Vacant (kernel : KernelSpace) : Prop where
  not_initialized : (call .isInitialized kernel).value = .initialized false
  refused : ∀ request, request.needsManager = true →
    call request kernel = .quiet (.refused .notInitialized) kernel

/-- The manager `vm` is in place, for good. -/
structure Occupied (vm : Manager) (kernel : KernelSpace) : Prop where
  initialized : (call .isInitialized kernel).value = .initialized true
  served : ∀ request, (call request kernel).value ≠ .refused .notInitialized
  put : ∀ other, call (.put other) kernel =
    .quiet (.refused .alreadyInitialized) kernel
  install : ∀ memory activate,
    (call (.install memory activate) kernel).value =
        (match (Manager.create memory).value with
        | .ok _ => .refused .alreadyInitialized
        | .error reason => .notBuilt reason) ∧
      (call (.install memory activate) kernel).state = kernel
  /-- The requests made from within one that is running do not put a manager in
  place, and find one there. -/
  within : ∀ held (body : Body), kernel.enter = .ok (vm, held) →
    ∀ step ∈ taken body.steps (vm, held),
      step.before.1.space.root = vm.space.root ∧
        step.outcome.state.1.space.root = vm.space.root ∧
        ∀ request, step.step = .kernel request →
          step.outcome.value = request.answerWithin ∧
            step.outcome.state = step.before ∧
            step.outcome.value ≠ .installed ∧
            step.outcome.value ≠ .refused .notInitialized
  root_eq : ∀ program, ∃ vm', (after kernel program).slot.value = some vm' ∧
    vm'.space.root = vm.space.root

theorem vacant_empty : empty.Vacant where
  not_initialized := rfl
  refused := awaits_empty.refused

theorem occupied_holding (vm : Manager) : Occupied vm (holding vm) where
  initialized := rfl
  served request := (served_call vm request).ne rfl
  put := (serves_holding vm).put
  install := (serves_holding vm).install
  within held body henter step hstep := by
    obtain ⟨-, rfl⟩ := enter_of_settled (.holding vm) henter
    obtain ⟨vm', hspace, hbefore, houtcome⟩ :=
      mem_taken (running_busy vm)
        (motive := fun other => other.space = vm.space)
        (fun other request hother => (other.call_space request).trans hother)
        rfl hstep
    have hrefused := (refused_of_taken (running_busy vm) vm body.steps hstep).2
    refine ⟨by rw [hbefore, hspace], ?_, ?_⟩
    · rw [houtcome]
      cases hkind : step.step with
      | manager request =>
          exact congrArg (·.root) ((vm'.call_space request).trans hspace)
      | kernel request => exact congrArg (·.root) hspace
    · intro request hrequest
      obtain ⟨hvalue, hstate⟩ := hrefused request hrequest
      rw [hvalue]
      exact ⟨rfl, hstate, answerWithin_ne request⟩
  root_eq program := by
    obtain ⟨⟨last, hlast, hspace⟩, -⟩ := after_holding vm program
    exact ⟨last, congrArg (·.slot.value) hlast, congrArg (·.root) hspace⟩

/-- At most one request of a program puts a manager in place.  After every
program the flag says whether there is a manager in place, which is whether some
request has put it there. As long as there is none, all requests for it are
refused and change nothing; from then on none is refused for that reason, no
other manager takes the place, and the root of the space that it manages stays
the same. -/
theorem installed_once (program : List Call) :
    installs empty program ≤ 1 ∧
      (call .isInitialized (after empty program)).value =
        .initialized (after empty program).slot.value.isSome ∧
      ((after empty program).slot.value.isSome = true ↔
        .installed ∈ (history empty program).map (·.value)) ∧
      ((after empty program).slot.value = none → (after empty program).Vacant) ∧
      ∀ vm, (after empty program).slot.value = some vm →
        Occupied vm (after empty program) := by
  rw [← installs_pos_iff]
  rcases after_empty program with ⟨hafter, hcount⟩ | ⟨⟨vm, hafter⟩, hcount⟩
  · rw [hafter, hcount]
    exact ⟨Nat.zero_le 1, rfl, iff_of_false (by decide) (Nat.lt_irrefl 0),
      fun _ => vacant_empty, fun _ hnone => by cases hnone⟩
  · rw [hafter, hcount]
    refine ⟨Nat.le_refl 1, rfl, iff_of_true rfl Nat.zero_lt_one, ?_, ?_⟩
    · intro hnone
      cases hnone
    · intro other hother
      cases hother
      exact occupied_holding vm

/-- The first of two managers stays in place. -/
theorem installed_once_small :
    Vacant (after empty [.translate ⟨0x1000⟩]) ∧
      Occupied .small
        (after empty [.translate ⟨0x1000⟩, .put .small, .put .oneMapped]) ∧
      installs empty [.translate ⟨0x1000⟩, .put .small, .put .oneMapped] =
        1 := by
  obtain ⟨-, -, -, hvacant, -⟩ := installed_once [.translate ⟨0x1000⟩]
  obtain ⟨-, -, -, -, hoccupied⟩ :=
    installed_once [.translate ⟨0x1000⟩, .put .small, .put .oneMapped]
  exact ⟨hvacant rfl, hoccupied .small rfl, rfl⟩

end FourLevelPaging.KernelSpace
