/-
How a body runs.  Its steps are taken in order, up to the first panic.  The lock
is held all the time, so a request to the kernel's address space made from
within is refused and changes nothing, and the manager is left as the body's own
requests to it leave it.
-/
import FourLevelPaging.KernelSpace.Program

namespace FourLevelPaging

/-- The panic that a request to a manager stands for. -/
def Manager.Call.panic? : Manager.Call → Option String
  | .panic message => some message
  | _ => none

/-- The requests up to the first panic, which is the last that is made. -/
def Manager.Call.upToPanic : List Manager.Call → List Manager.Call
  | [] => []
  | request :: rest =>
      match request.panic? with
      | some _ => [request]
      | none => request :: upToPanic rest

namespace KernelSpace

/-- One step of a body. -/
inductive Step where
  /-- A request to the manager. -/
  | manager (request : Manager.Call)
  /-- A request to the kernel's address space. -/
  | kernel (request : Call)

/-- Takes one step with the manager in hand. -/
def Step.run :
    Step → Manager × KernelSpace → Reported (Manager × KernelSpace) Reply
  | .manager request, (vm, held) =>
      let done := vm.call request
      ⟨.manager done.value, (done.state, held), done.events⟩
  | .kernel request, (vm, held) =>
      let done := call request held
      ⟨done.value, (vm, done.state), done.events⟩

namespace Step

/-- The request to the manager that a step is. -/
def request? : Step → Option Manager.Call
  | .manager request => some request
  | .kernel _ => none

/-- The requests that steps make to the manager, up to the first panic. -/
def requests (steps : List Step) : List Manager.Call :=
  Manager.Call.upToPanic (steps.filterMap request?)

/-- The first panic among the requests that steps make to the manager. -/
def panic? (steps : List Step) : Option String :=
  (steps.filterMap request?).findSome? Manager.Call.panic?

section Cons

variable {request : Manager.Call} (rest : List Step)

theorem requests_of_panic {message : String}
    (hpanic : request.panic? = some message) :
    requests (.manager request :: rest) = [request] := by
  simp only [requests, List.filterMap_cons, request?,
    Manager.Call.upToPanic, hpanic]

theorem requests_manager (hpanic : request.panic? = none) :
    requests (.manager request :: rest) = request :: requests rest := by
  simp only [requests, List.filterMap_cons, request?,
    Manager.Call.upToPanic, hpanic]

theorem panic?_of_panic {message : String}
    (hpanic : request.panic? = some message) :
    panic? (.manager request :: rest) = some message := by
  simp only [panic?, List.filterMap_cons, request?, List.findSome?_cons, hpanic]

theorem panic?_manager (hpanic : request.panic? = none) :
    panic? (.manager request :: rest) = panic? rest := by
  simp only [panic?, List.filterMap_cons, request?, List.findSome?_cons, hpanic]

theorem panic?_kernel (request : Call) :
    panic? (.kernel request :: rest) = panic? rest :=
  rfl

end Cons

end Step

namespace Body

@[elab_as_elim, induction_eliminator]
theorem induction {motive : Body → Prop} (done : motive .done)
    (manager : ∀ request rest, motive rest → motive (.manager request rest))
    (kernel : ∀ request rest, motive rest → motive (.kernel request rest)) :
    ∀ body, motive body
  | .done => done
  | .manager request rest =>
      manager request rest (induction done manager kernel rest)
  | .kernel request rest =>
      kernel request rest (induction done manager kernel rest)

def steps : Body → List Step
  | .done => []
  | .manager request rest => .manager request :: rest.steps
  | .kernel request rest => .kernel request :: rest.steps

/-- The requests that a body makes to the manager, up to the first panic. -/
def requests (body : Body) : List Manager.Call :=
  Step.requests body.steps

/-- The first panic of a body. -/
def panic? (body : Body) : Option String :=
  Step.panic? body.steps

end Body

/-- A step that was taken, in what state, and what came of it. -/
structure Taken where
  step : Step
  before : Manager × KernelSpace
  outcome : Reported (Manager × KernelSpace) Reply

/-- The steps of a list that are taken: all, or those up to the first panic. -/
def taken : List Step → Manager × KernelSpace → List Taken
  | [], _ => []
  | step :: rest, state =>
      ⟨step, state, step.run state⟩ ::
        match (step.run state).value.panic? with
        | some _ => []
        | none => taken rest (step.run state).state

/-- The answers of the steps that were taken, unless one of them panicked. -/
def answers : List Taken → Except String (List Reply)
  | [] => .ok []
  | first :: rest =>
      match first.outcome.value.panic? with
      | some message => .error message
      | none => (answers rest).map (first.outcome.value :: ·)

/-- The state that the steps taken lead to. -/
def reached (state : Manager × KernelSpace) : List Taken → Manager × KernelSpace
  | [] => state
  | first :: rest => reached first.outcome.state rest

theorem runBody_eq (body : Body) (state : Manager × KernelSpace) :
    (runBody body state).value = answers (taken body.steps state) ∧
      (runBody body state).state = reached state (taken body.steps state) := by
  induction body generalizing state with
  | done => exact ⟨rfl, rfl⟩
  | manager request rest ih =>
      rcases state with ⟨vm, held⟩
      obtain ⟨hvalue, hstate⟩ := ih ((vm.call request).state, held)
      cases hpanic : (Reply.manager (vm.call request).value).panic? with
      | some message =>
          simp only [runBody, Body.steps, taken, answers, reached, Step.run,
            hpanic, and_self]
      | none =>
          simp only [runBody, Body.steps, taken, answers, reached, Step.run,
            hpanic]
          exact ⟨by rw [hvalue], hstate⟩
  | kernel request rest ih =>
      rcases state with ⟨vm, held⟩
      obtain ⟨hvalue, hstate⟩ := ih (vm, (call request held).state)
      cases hpanic : (call request held).value.panic? with
      | some message =>
          simp only [runBody, Body.steps, taken, answers, reached, Step.run,
            hpanic, and_self]
      | none =>
          simp only [runBody, Body.steps, taken, answers, reached, Step.run,
            hpanic]
          exact ⟨by rw [hvalue], hstate⟩

/-- A request is running with a manager in hand. -/
structure Running (kernel : KernelSpace) : Prop where
  locked : kernel.slot.locked = true
  installed : kernel.installed = true

/-- The answer to a request made from within one that is running. -/
def Call.answerWithin : Call → Reply
  | .install memory _ =>
      match (Manager.create memory).value with
      | .ok _ => .refused .reentered
      | .error reason => .notBuilt reason
  | .isInitialized => .initialized true
  | _ => .refused .reentered

section Running

variable {held : KernelSpace} (hrunning : held.Running)

include hrunning

theorem enter_of_running : held.enter = .error .reentered := by
  simp only [enter, SpinLock.tryAcquire?_eq_none.2 hrunning.locked]

theorem install_of_running (vm : Manager) :
    held.install vm = .error .reentered := by
  simp only [install, SpinLock.tryAcquire?_eq_none.2 hrunning.locked]

theorem withManager_of_running {α : Type}
    (operation : Manager × KernelSpace →
      Reported (Manager × KernelSpace) α) :
    held.withManager operation = .quiet (.error .reentered) held := by
  simp only [withManager, enter_of_running hrunning]

/-- A body given to a request made from within does not run. -/
theorem call_withManager_of_running (body : Body) :
    call (.withManager body) held = .quiet (.refused .reentered) held := by
  rw [call, withManager_of_running hrunning]
  rfl

theorem call_of_running (request : Call) :
    (call request held).value = request.answerWithin ∧
      (call request held).state = held := by
  cases request with
  | install memory activate =>
      simp only [call, installNew, Call.answerWithin]
      cases hmade : (Manager.create memory).value with
      | error reason => exact ⟨rfl, rfl⟩
      | ok vm => constructor <;> simp only [install_of_running hrunning]
  | put vm =>
      simp only [call, install_of_running hrunning]
      exact ⟨rfl, rfl⟩
  | isInitialized => exact ⟨congrArg Reply.initialized hrunning.installed, rfl⟩
  | map va pa flags =>
      simp only [call, map, withManager_of_running hrunning, Outcome.quiet]
      exact ⟨rfl, trivial⟩
  | unmap va =>
      simp only [call, unmap, withManager_of_running hrunning]
      exact ⟨rfl, rfl⟩
  | translate va =>
      simp only [call, translate, withManager_of_running hrunning]
      exact ⟨rfl, rfl⟩
  | withManager body =>
      rw [call_withManager_of_running hrunning]
      exact ⟨rfl, rfl⟩

end Running

/-- A request to a manager panics if the body wants it to. -/
theorem panic?_call (vm : Manager) (request : Manager.Call) :
    (Reply.manager (vm.call request).value).panic? = request.panic? := by
  cases request with
  | map | mapSized | mapRange | build | init =>
      simp only [Manager.call]
      split <;> rfl
  | _ => rfl

theorem panic?_answerWithin (request : Call) :
    request.answerWithin.panic? = none := by
  cases request with
  | install memory activate =>
      simp only [Call.answerWithin]
      split <;> rfl
  | _ => rfl

section Taken

variable {held : KernelSpace} (hrunning : held.Running) (vm : Manager)
  (rest : List Step)

theorem taken_of_panic (held : KernelSpace) {request : Manager.Call}
    {message : String} (hpanic : request.panic? = some message) :
    taken (.manager request :: rest) (vm, held) =
      [⟨.manager request, (vm, held),
        Step.run (.manager request) (vm, held)⟩] := by
  simp only [taken, Step.run, panic?_call, hpanic]

theorem taken_manager (held : KernelSpace) {request : Manager.Call}
    (hpanic : request.panic? = none) :
    taken (.manager request :: rest) (vm, held) =
      ⟨.manager request, (vm, held), Step.run (.manager request) (vm, held)⟩ ::
        taken rest ((vm.call request).state, held) := by
  simp only [taken, Step.run, panic?_call, hpanic]

include hrunning

/-- A request made from within changes nothing. -/
theorem taken_kernel (request : Call) :
    taken (.kernel request :: rest) (vm, held) =
      ⟨.kernel request, (vm, held), Step.run (.kernel request) (vm, held)⟩ ::
        taken rest (vm, held) := by
  obtain ⟨hvalue, hstate⟩ := call_of_running hrunning request
  simp only [taken, Step.run, hvalue, hstate, panic?_answerWithin]

end Taken

/-- While steps are taken, the manager is left as their own requests to it
leave it. -/
theorem reached_of_running {held : KernelSpace} (hrunning : held.Running)
    (vm : Manager) (steps : List Step) :
    reached (vm, held) (taken steps (vm, held)) =
      (Outcome.after Manager.call vm (Step.requests steps), held) := by
  induction steps generalizing vm with
  | nil => rfl
  | cons first rest ih =>
      cases first with
      | manager request =>
          cases hpanic : request.panic? with
          | some message =>
              rw [taken_of_panic _ _ _ hpanic, Step.requests_of_panic _ hpanic]
              rfl
          | none =>
              rw [taken_manager _ _ _ hpanic, Step.requests_manager _ hpanic]
              exact ih (vm.call request).state
      | kernel request =>
          obtain ⟨-, hstate⟩ := call_of_running hrunning request
          rw [taken_kernel hrunning, reached, Step.run, hstate]
          exact ih vm

/-- Steps end with the first panic or with the answers to all of them. -/
theorem answers_of_running {held : KernelSpace} (hrunning : held.Running)
    (vm : Manager) (steps : List Step) :
    answers (taken steps (vm, held)) =
      match Step.panic? steps with
      | some message => .error message
      | none => .ok ((taken steps (vm, held)).map (·.outcome.value)) := by
  induction steps generalizing vm with
  | nil => rfl
  | cons first rest ih =>
      cases first with
      | manager request =>
          cases hpanic : request.panic? with
          | some message =>
              simp only [taken_of_panic _ _ _ hpanic, answers, Step.run,
                panic?_call, hpanic, Step.panic?_of_panic _ hpanic]
          | none =>
              simp only [taken_manager _ _ _ hpanic, answers, Step.run,
                panic?_call, hpanic, Step.panic?_manager _ hpanic, ih]
              cases Step.panic? rest <;> rfl
      | kernel request =>
          obtain ⟨hvalue, -⟩ := call_of_running hrunning request
          simp only [taken_kernel hrunning, answers, Step.run, hvalue,
            panic?_answerWithin, Step.panic?_kernel, ih]
          cases Step.panic? rest with
          | some message => rfl
          | none => simp only [Except.map, List.map_cons]

/-- The steps taken are the first ones, and all of them if none panics. -/
theorem steps_taken {held : KernelSpace} (hrunning : held.Running)
    (vm : Manager) (steps : List Step) :
    (taken steps (vm, held)).map (·.step) <+: steps ∧
      (Step.panic? steps = none →
        (taken steps (vm, held)).map (·.step) = steps) := by
  induction steps generalizing vm with
  | nil => exact ⟨List.prefix_refl _, fun _ => rfl⟩
  | cons first rest ih =>
      cases first with
      | manager request =>
          obtain ⟨hfirst, hall⟩ := ih (vm.call request).state
          cases hpanic : request.panic? with
          | some message =>
              rw [taken_of_panic _ _ _ hpanic, Step.panic?_of_panic _ hpanic]
              exact ⟨List.prefix_append [_] _, fun h => by cases h⟩
          | none =>
              simp only [taken_manager _ _ _ hpanic,
                Step.panic?_manager _ hpanic, List.map_cons,
                List.prefix_cons_inj, List.cons.injEq, true_and]
              exact ⟨hfirst, hall⟩
      | kernel request =>
          simp only [taken_kernel hrunning, Step.panic?_kernel, List.map_cons,
            List.prefix_cons_inj, List.cons.injEq, true_and]
          exact ih vm

/-- Every step is taken under the lock, and finds the manager as requests to it
can leave it. -/
theorem mem_taken {held : KernelSpace} (hrunning : held.Running)
    {motive : Manager → Prop}
    (hcall : ∀ vm request, motive vm → motive (Manager.call vm request).state)
    {vm : Manager} (hvm : motive vm) {steps : List Step} {step : Taken}
    (hstep : step ∈ taken steps (vm, held)) :
    ∃ vm', motive vm' ∧ step.before = (vm', held) ∧
      step.outcome = step.step.run (vm', held) := by
  induction steps generalizing vm with
  | nil => cases hstep
  | cons first rest ih =>
      cases first with
      | manager request =>
          cases hpanic : request.panic? with
          | some message =>
              rw [taken_of_panic _ _ _ hpanic, List.mem_singleton] at hstep
              subst hstep
              exact ⟨vm, hvm, rfl, rfl⟩
          | none =>
              rw [taken_manager _ _ _ hpanic, List.mem_cons] at hstep
              rcases hstep with rfl | hstep
              · exact ⟨vm, hvm, rfl, rfl⟩
              · exact ih (hcall vm request hvm) hstep
      | kernel request =>
          rw [taken_kernel hrunning, List.mem_cons] at hstep
          rcases hstep with rfl | hstep
          · exact ⟨vm, hvm, rfl, rfl⟩
          · exact ih hvm hstep

/-- Every request made from within is refused and changes nothing. -/
theorem refused_of_taken {held : KernelSpace} (hrunning : held.Running)
    (vm : Manager) (steps : List Step) {step : Taken}
    (hstep : step ∈ taken steps (vm, held)) :
    step.before.2 = held ∧ ∀ request, step.step = .kernel request →
      step.outcome.value = request.answerWithin ∧
        step.outcome.state = step.before := by
  obtain ⟨vm', -, hbefore, houtcome⟩ :=
    mem_taken hrunning (motive := fun _ => True) (fun _ _ _ => trivial)
      trivial hstep
  refine ⟨congrArg Prod.snd hbefore, fun request hrequest => ?_⟩
  obtain ⟨hvalue, hstate⟩ := call_of_running hrunning request
  rw [houtcome, hrequest, hbefore]
  exact ⟨hvalue, congrArg (Prod.mk vm') hstate⟩

end KernelSpace

end FourLevelPaging
