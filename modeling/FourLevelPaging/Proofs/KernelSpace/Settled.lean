/-
The kernel's address space between two requests.  The lock is free, and either
nobody has put a manager in place, or there is one and the space it manages is
the one it came with.
-/
import FourLevelPaging.Proofs.KernelSpace.Body
import FourLevelPaging.Proofs.Manager.Reachable

namespace FourLevelPaging

namespace Manager

/-- A manager manages the same space all its life. -/
theorem call_space (vm : Manager) (request : Call) :
    (vm.call request).state.space = vm.space := by
  have hover : vm.Over vm.space fun _ => True := ⟨rfl, trivial⟩
  exact (hover.call (fun _ _ _ _ _ => trivial)
    (fun _ _ => trivial) request).space_eq

theorem after_space (vm : Manager) (requests : List Call) :
    (Outcome.after Manager.call vm requests).space = vm.space := by
  induction requests generalizing vm with
  | nil => rfl
  | cons request rest ih => exact (ih _).trans (vm.call_space request)

end Manager

namespace KernelSpace

/-- A manager is in place, and no request is running. -/
def holding (vm : Manager) : KernelSpace := ⟨.free (some vm), true⟩

/-- No request is running, and a manager is in place if one was ever put
there. -/
inductive Settled : KernelSpace → Prop
  | empty : Settled empty
  | holding (vm : Manager) : Settled (holding vm)

/-- A request is running with `vm` in hand. -/
def busy (vm : Manager) : KernelSpace := ⟨⟨true, some vm⟩, true⟩

theorem running_busy (vm : Manager) : (busy vm).Running := ⟨rfl, rfl⟩

theorem enter_holding (vm : Manager) :
    (holding vm).enter = .ok (vm, busy vm) := rfl

theorem leave_busy (vm vm' : Manager) : (busy vm).leave vm' = holding vm' := rfl

/-- An operation finds the manager that is in place and the lock free. -/
theorem withManager_holding {α : Type} (vm : Manager)
    (operation : Manager × KernelSpace →
      Reported (Manager × KernelSpace) α) :
    (holding vm).withManager operation =
      let done := operation (vm, busy vm)
      ⟨.ok done.value, done.state.2.leave done.state.1, done.events⟩ :=
  rfl

/-- What every request does that finds the manager `vm` in place and no other
request running. -/
structure Serves (vm : Manager) (kernel : KernelSpace) : Prop where
  map : ∀ va pa flags, call (.map va pa flags) kernel =
    ⟨match (vm.map va pa flags).value with
      | .ok mapped => .mapped mapped
      | .error reason => .refused (.manager reason),
      holding (vm.map va pa flags).state, (vm.map va pa flags).events⟩
  unmap : ∀ va, call (.unmap va) kernel =
    ⟨.unmapped (vm.unmap va).value, holding (vm.unmap va).state,
      (vm.unmap va).events⟩
  translate : ∀ va,
    call (.translate va) kernel = .quiet (.address (vm.translate va)) kernel
  /-- The body runs to its end or to its first panic.  Either way the manager
  is left as the body's own requests to it leave it. -/
  withManager : ∀ body,
    (call (.withManager body) kernel).value =
        (match body.panic? with
        | some message => .panicked message
        | none =>
            .ran ((taken body.steps (vm, busy vm)).map (·.outcome.value))) ∧
      (call (.withManager body) kernel).state =
        holding (Outcome.after Manager.call vm body.requests)
  initialized : call .isInitialized kernel = .quiet (.initialized true) kernel
  put : ∀ other,
    call (.put other) kernel = .quiet (.refused .alreadyInitialized) kernel
  install : ∀ memory activate,
    (call (.install memory activate) kernel).value =
        (match (Manager.create memory).value with
        | .ok _ => .refused .alreadyInitialized
        | .error reason => .notBuilt reason) ∧
      (call (.install memory activate) kernel).state = kernel

theorem call_map_holding (vm : Manager) (va : VirtAddr) (pa : PhysAddr)
    (flags : Flags) :
    call (.map va pa flags) (holding vm) =
      ⟨match (vm.map va pa flags).value with
        | .ok mapped => .mapped mapped
        | .error reason => .refused (.manager reason),
        holding (vm.map va pa flags).state, (vm.map va pa flags).events⟩ := by
  simp only [call, map, withManager_holding, onManager, leave_busy]
  cases (vm.map va pa flags).value <;> rfl

theorem call_withManager_holding (vm : Manager) (body : Body) :
    (call (.withManager body) (holding vm)).value =
        (match body.panic? with
        | some message => .panicked message
        | none =>
            .ran ((taken body.steps (vm, busy vm)).map (·.outcome.value))) ∧
      (call (.withManager body) (holding vm)).state =
        holding (Outcome.after Manager.call vm body.requests) := by
  obtain ⟨hvalue, hstate⟩ := runBody_eq body (vm, busy vm)
  rw [answers_of_running (running_busy vm)] at hvalue
  rw [reached_of_running (running_busy vm)] at hstate
  simp only [call, withManager_holding, hvalue, hstate, Body.panic?]
  refine ⟨?_, leave_busy vm _⟩
  cases Step.panic? body.steps <;> rfl

theorem call_install_holding (vm : Manager) (memory : Memory)
    (activate : Bool) :
    (call (.install memory activate) (holding vm)).value =
        (match (Manager.create memory).value with
        | .ok _ => .refused .alreadyInitialized
        | .error reason => .notBuilt reason) ∧
      (call (.install memory activate) (holding vm)).state = holding vm := by
  simp only [call, installNew]
  cases (Manager.create memory).value with
  | error reason => exact ⟨rfl, rfl⟩
  | ok made => exact ⟨rfl, rfl⟩

theorem serves_holding (vm : Manager) : Serves vm (holding vm) where
  map := call_map_holding vm
  unmap _ := rfl
  translate _ := rfl
  withManager := call_withManager_holding vm
  initialized := rfl
  put _ := rfl
  install := call_install_holding vm

/-- The answer is one that no request to a manager in place gets: it took the
place, found the place empty or found the lock held. -/
def Reply.unserved : Reply → Bool
  | .installed => true
  | .refused .notInitialized => true
  | .refused .reentered => true
  | _ => false

/-- A request to a manager in place leaves a manager of the same space there. -/
structure Served (vm : Manager) (outcome : Reported KernelSpace Reply) :
    Prop where
  state_eq : ∃ vm', outcome.state = holding vm' ∧ vm'.space = vm.space
  served : outcome.value.unserved = false

theorem Served.ne {vm : Manager} {outcome : Reported KernelSpace Reply}
    {reply : Reply} (hserved : Served vm outcome)
    (hunserved : reply.unserved = true) :
    outcome.value ≠ reply := by
  intro heq
  have hvalue := hserved.served
  rw [heq, hunserved] at hvalue
  cases hvalue

theorem served_call (vm : Manager) (request : Call) :
    Served vm (call request (holding vm)) := by
  have hserves := serves_holding vm
  cases request with
  | install memory activate =>
      obtain ⟨hvalue, hstate⟩ := hserves.install memory activate
      refine ⟨⟨vm, hstate, rfl⟩, ?_⟩
      rw [hvalue]
      split <;> rfl
  | put other => exact ⟨⟨vm, rfl, rfl⟩, rfl⟩
  | isInitialized => exact ⟨⟨vm, rfl, rfl⟩, rfl⟩
  | map va pa flags =>
      rw [hserves.map]
      refine ⟨⟨_, rfl, (vm.afterMap_state va _).1⟩, ?_⟩
      cases (vm.map va pa flags).value <;> rfl
  | unmap va => exact ⟨⟨_, rfl, (vm.unmap_state va).1⟩, rfl⟩
  | translate va => exact ⟨⟨vm, rfl, rfl⟩, rfl⟩
  | withManager body =>
      obtain ⟨hvalue, hstate⟩ := hserves.withManager body
      refine ⟨⟨_, hstate, vm.after_space body.requests⟩, ?_⟩
      rw [hvalue]
      split <;> rfl

/-- The request is one for the manager in place. -/
def Call.needsManager : Call → Bool
  | .map _ _ _ => true
  | .unmap _ => true
  | .translate _ => true
  | .withManager _ => true
  | _ => false

/-- What every request does that finds the place empty and no other request
running. -/
structure Awaits (kernel : KernelSpace) : Prop where
  refused : ∀ request, request.needsManager = true →
    call request kernel = .quiet (.refused .notInitialized) kernel
  initialized : call .isInitialized kernel = .quiet (.initialized false) kernel
  put : ∀ vm, call (.put vm) kernel = .quiet .installed (holding vm)
  install_error : ∀ memory activate reason,
    (Manager.create memory).value = .error reason →
      (call (.install memory activate) kernel).value = .notBuilt reason ∧
        (call (.install memory activate) kernel).state = kernel
  install_ok : ∀ memory activate vm,
    (Manager.create memory).value = .ok vm →
      (call (.install memory activate) kernel).value = .installed ∧
        (call (.install memory activate) kernel).state =
          holding (if activate then vm.activate.state else vm)

theorem awaits_empty : Awaits empty where
  refused request hneeds := by
    cases request with
    | map | unmap | translate | withManager => rfl
    | install | put | isInitialized => cases hneeds
  initialized := rfl
  put _ := rfl
  install_error memory activate reason hmade := by
    simp only [call, installNew, hmade, and_self]
  install_ok memory activate vm hmade := by
    simp only [call, installNew, hmade]
    cases activate <;> exact ⟨rfl, rfl⟩

/-- A request to the empty place fills it or changes nothing. -/
theorem call_empty (request : Call) :
    ((call request empty).value = .installed ∧
        ∃ vm, (call request empty).state = holding vm) ∨
      ((call request empty).value ≠ .installed ∧
        (call request empty).value ≠ .refused .reentered ∧
        (call request empty).state = empty) := by
  cases request with
  | install memory activate =>
      cases hmade : (Manager.create memory).value with
      | error reason =>
          obtain ⟨hvalue, hstate⟩ :=
            awaits_empty.install_error memory activate reason hmade
          exact Or.inr ⟨by simp [hvalue], by simp [hvalue], hstate⟩
      | ok vm =>
          obtain ⟨hvalue, hstate⟩ :=
            awaits_empty.install_ok memory activate vm hmade
          exact Or.inl ⟨hvalue, _, hstate⟩
  | put vm => exact Or.inl ⟨rfl, vm, rfl⟩
  | isInitialized =>
      rw [awaits_empty.initialized, Outcome.quiet]
      exact Or.inr ⟨by simp, by simp, rfl⟩
  | map | unmap | translate | withManager =>
      rw [awaits_empty.refused _ rfl, Outcome.quiet]
      exact Or.inr ⟨by simp, by simp, rfl⟩

theorem Settled.call {kernel : KernelSpace} (hsettled : kernel.Settled)
    (request : Call) :
    (call request kernel).state.Settled := by
  cases hsettled with
  | empty =>
      rcases call_empty request with ⟨-, vm, hstate⟩ | ⟨-, -, hstate⟩
      · rw [hstate]
        exact .holding vm
      · rw [hstate]
        exact .empty
  | holding vm =>
      obtain ⟨vm', hstate, -⟩ := (served_call vm request).state_eq
      rw [hstate]
      exact .holding vm'

/-- A request finds the lock free. -/
theorem Settled.not_reentered {kernel : KernelSpace} (hsettled : kernel.Settled)
    (request : Call) :
    (KernelSpace.call request kernel).value ≠ .refused .reentered := by
  cases hsettled with
  | empty =>
      rcases call_empty request with ⟨hvalue, -⟩ | ⟨-, hvalue, -⟩
      · simp [hvalue]
      · exact hvalue
  | holding vm => exact (served_call vm request).ne rfl

theorem Settled.unlocked {kernel : KernelSpace} (hsettled : kernel.Settled) :
    kernel.slot.locked = false := by
  cases hsettled with
  | empty => rfl
  | holding vm => rfl

/-- A body runs only with the manager in hand that is in place. -/
theorem enter_of_settled {kernel held : KernelSpace} {vm : Manager}
    (hsettled : kernel.Settled) (henter : kernel.enter = .ok (vm, held)) :
    kernel = holding vm ∧ held = busy vm := by
  cases hsettled with
  | empty => cases henter
  | holding other =>
      cases henter
      exact ⟨rfl, rfl⟩

theorem Settled.eq_empty {kernel : KernelSpace} (hsettled : kernel.Settled)
    (hnone : kernel.slot.value = none) : kernel = KernelSpace.empty := by
  cases hsettled with
  | empty => rfl
  | holding vm => cases hnone

theorem Settled.eq_holding {kernel : KernelSpace} {vm : Manager}
    (hsettled : kernel.Settled) (hvm : kernel.slot.value = some vm) :
    kernel = KernelSpace.holding vm := by
  cases hsettled with
  | empty => cases hvm
  | holding other =>
      cases hvm
      rfl

/-- The outcomes of a program's requests. -/
def history (kernel : KernelSpace) (program : List Call) :
    List (Reported KernelSpace Reply) :=
  Outcome.history (fun kernel request => call request kernel) kernel program

/-- What a program leaves behind. -/
def after (kernel : KernelSpace) (program : List Call) : KernelSpace :=
  Outcome.after (fun kernel request => call request kernel) kernel program

theorem Settled.after {kernel : KernelSpace} (hsettled : kernel.Settled)
    (program : List Call) : (after kernel program).Settled := by
  induction program generalizing kernel with
  | nil => exact hsettled
  | cons request rest ih => exact ih (hsettled.call request)

end KernelSpace

end FourLevelPaging
