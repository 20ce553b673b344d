/-
Requests made from within a request that is running.  They are refused, change
nothing and can be left out of a program without anyone noticing; and however
the running request ends, the lock is free afterwards and the manager is as the
body's own requests to it left it.
-/
import FourLevelPaging.Proofs.KernelSpace.Settled

namespace FourLevelPaging.KernelSpace

/-- The step is a request to the kernel's address space of a kind to be left
out. -/
def Step.dropped (drop : Call → Bool) : Step → Bool
  | .manager _ => false
  | .kernel request => drop request

/-- The body without the requests to the kernel's address space that are left
out. -/
def Body.without (drop : Call → Bool) : Body → Body
  | .done => .done
  | .manager request rest => .manager request (rest.without drop)
  | .kernel request rest =>
      if drop request then rest.without drop
      else .kernel request (rest.without drop)

/-- The request without those made from within it that are left out. -/
def Call.without (drop : Call → Bool) : Call → Call
  | .withManager body => .withManager (body.without drop)
  | request => request

/-- The answer to a request without those to the requests that are left out. -/
def Reply.without (drop : Call → Bool) : Call → Reply → Reply
  | .withManager body, .ran replies =>
      .ran (((body.steps.zip replies).filter (!·.1.dropped drop)).map (·.2))
  | _, reply => reply

variable (drop : Call → Bool)

theorem Body.steps_without (body : Body) :
    (body.without drop).steps = body.steps.filter (!·.dropped drop) := by
  induction body with
  | done => rfl
  | manager request rest ih =>
      rw [Body.steps, List.filter_cons_of_pos rfl, ← ih]
      rfl
  | kernel request rest ih =>
      by_cases hdrop : drop request = true
      · rw [Body.steps, List.filter_cons_of_neg (by simp [Step.dropped, hdrop]),
          ← ih]
        simp only [Body.without, hdrop, if_true]
      · rw [Body.steps, List.filter_cons_of_pos (by simp [Step.dropped, hdrop]),
          ← ih]
        simp only [Body.without, hdrop, Bool.false_eq_true, if_false,
          Body.steps]

/-- No request to the manager is left out. -/
theorem Step.filterMap_request?_filter (steps : List Step) :
    (steps.filter (!·.dropped drop)).filterMap Step.request? =
      steps.filterMap Step.request? := by
  rw [List.filterMap_filter]
  apply List.filterMap_congr
  intro step _
  cases step with
  | manager request => rfl
  | kernel request => exact ite_self none

theorem Body.requests_without (body : Body) :
    (body.without drop).requests = body.requests := by
  rw [Body.requests, Step.requests, Body.steps_without,
    Step.filterMap_request?_filter, ← Step.requests, ← Body.requests]

theorem Body.panic?_without (body : Body) :
    (body.without drop).panic? = body.panic? := by
  rw [Body.panic?, Step.panic?, Body.steps_without,
    Step.filterMap_request?_filter, ← Step.panic?, ← Body.panic?]

/-- Leaving requests out takes away the steps that they are, and every other
step finds and leaves the same state and has the same answer. -/
theorem taken_filter {held : KernelSpace} (hrunning : held.Running)
    (vm : Manager) (steps : List Step) :
    taken (steps.filter (!·.dropped drop)) (vm, held) =
      (taken steps (vm, held)).filter (!·.step.dropped drop) := by
  induction steps generalizing vm with
  | nil => rfl
  | cons first rest ih =>
      cases first with
      | manager request =>
          rw [List.filter_cons_of_pos rfl]
          cases hpanic : request.panic? with
          | some message =>
              rw [taken_of_panic _ _ _ hpanic, taken_of_panic _ _ _ hpanic]
              rfl
          | none =>
              rw [taken_manager _ _ _ hpanic, taken_manager _ _ _ hpanic, ih,
                List.filter_cons_of_pos rfl]
      | kernel request =>
          rw [taken_kernel hrunning]
          by_cases hdrop : drop request = true
          · rw [List.filter_cons_of_neg (by simp [Step.dropped, hdrop]),
              List.filter_cons_of_neg (by simp [Step.dropped, hdrop]), ih]
          · rw [List.filter_cons_of_pos (by simp [Step.dropped, hdrop]),
              List.filter_cons_of_pos (by simp [Step.dropped, hdrop]),
              taken_kernel hrunning, ih]

/-- The answers that are left are those to the steps that are left. -/
theorem replies_without (steps : List Taken) :
    (((steps.map (·.step)).zip (steps.map (·.outcome.value))).filter
        (!·.1.dropped drop)).map (·.2) =
      (steps.filter (!·.step.dropped drop)).map (·.outcome.value) := by
  rw [List.zip_map', List.filter_map, List.map_map]
  rfl

/-- A request that a manager in place answers does not depend on those made from
within. -/
theorem call_without_holding (vm : Manager) (request : Call) :
    (call (request.without drop) (holding vm)).value =
        Reply.without drop request (call request (holding vm)).value ∧
      (call (request.without drop) (holding vm)).state =
        (call request (holding vm)).state := by
  cases request with
  | install | put | isInitialized | map | unmap | translate => exact ⟨rfl, rfl⟩
  | withManager body =>
      obtain ⟨hvalue, hstate⟩ := call_withManager_holding vm body
      obtain ⟨hvalue', hstate'⟩ :=
        call_withManager_holding vm (body.without drop)
      rw [Body.requests_without] at hstate'
      refine ⟨?_, hstate'.trans hstate.symm⟩
      rw [Body.panic?_without, Body.steps_without,
        taken_filter drop (running_busy vm)] at hvalue'
      rw [Call.without, hvalue', hvalue]
      cases hpanic : body.panic? with
      | some message => rfl
      | none =>
          have hreplies := replies_without drop (taken body.steps (vm, busy vm))
          rw [(steps_taken (running_busy vm) vm body.steps).2 hpanic]
            at hreplies
          exact congrArg Reply.ran hreplies.symm

theorem Settled.call_without {kernel : KernelSpace} (hsettled : kernel.Settled)
    (request : Call) :
    (KernelSpace.call (request.without drop) kernel).value =
        Reply.without drop request (KernelSpace.call request kernel).value ∧
      (KernelSpace.call (request.without drop) kernel).state =
        (KernelSpace.call request kernel).state := by
  cases hsettled with
  | empty => cases request <;> exact ⟨rfl, rfl⟩
  | holding vm => exact call_without_holding drop vm request

/-- Leaving requests made from within out of a program changes nothing else. -/
theorem Settled.history_without {kernel : KernelSpace}
    (hsettled : kernel.Settled) (program : List Call) :
    (history kernel (program.map (·.without drop))).map (·.value) =
        List.zipWith (Reply.without drop) program
          ((history kernel program).map (·.value)) ∧
      (history kernel (program.map (·.without drop))).map (·.state) =
        (history kernel program).map (·.state) ∧
      KernelSpace.after kernel (program.map (·.without drop)) =
        KernelSpace.after kernel program := by
  induction program generalizing kernel with
  | nil => exact ⟨rfl, rfl, rfl⟩
  | cons request rest ih =>
      obtain ⟨hvalue, hstate⟩ := hsettled.call_without drop request
      obtain ⟨hvalues, hstates, hafter⟩ := ih (hsettled.call request)
      simp only [history, KernelSpace.after] at hvalues hstates hafter
      simp only [history, KernelSpace.after, List.map_cons, Outcome.history,
        Outcome.after, List.zipWith_cons_cons, hvalue, hstate, hvalues, hstates,
        hafter, and_self]

/-- How the body of a request runs that has the manager `vm` in hand. -/
structure Shielded (vm : Manager) (held : KernelSpace) (body : Body) :
    Prop where
  /-- The steps are taken in order, each in the state that the one before it
  left. -/
  runs :
    (runBody body (vm, held)).value = answers (taken body.steps (vm, held)) ∧
      (runBody body (vm, held)).state =
        reached (vm, held) (taken body.steps (vm, held))
  /-- Only a panic of the body itself keeps a step from being taken. -/
  in_order : (taken body.steps (vm, held)).map (·.step) <+: body.steps ∧
    (body.panic? = none →
      (taken body.steps (vm, held)).map (·.step) = body.steps)
  /-- A request made from within is refused and changes nothing. -/
  refused : ∀ step ∈ taken body.steps (vm, held), ∀ request, step.step =
      .kernel request →
    step.outcome.value = request.answerWithin ∧ step.outcome.state = step.before
  /-- A body that such a request brings does not run. -/
  not_run : ∀ step ∈ taken body.steps (vm, held), ∀ inner,
    call (.withManager inner) step.before.2 =
      .quiet (.refused .reentered) step.before.2
  /-- The manager is left as the body's own requests to it leave it. -/
  reached_eq : reached (vm, held) (taken body.steps (vm, held)) =
    (Outcome.after Manager.call vm body.requests, held)

theorem shielded {held : KernelSpace} (hrunning : held.Running) (vm : Manager)
    (body : Body) : Shielded vm held body where
  runs := runBody_eq body (vm, held)
  in_order := steps_taken hrunning vm body.steps
  refused _ hstep := (refused_of_taken hrunning vm body.steps hstep).2
  not_run _ hstep inner := by
    rw [(refused_of_taken hrunning vm body.steps hstep).1]
    exact call_withManager_of_running hrunning inner
  reached_eq := reached_of_running hrunning vm body.steps

/-- After any program the lock is free, and the next request is carried out,
whichever it is.  Whatever the body of a request does, and however it ends, the
requests that it makes from within are refused, change nothing, and can be left
out. -/
theorem reentry_is_invisible (program : List Call) :
    (after empty program).slot.locked = false ∧
      (∀ request,
        (call request (after empty program)).value ≠ .refused .reentered) ∧
      ((after empty program).slot.value = none →
        Awaits (after empty program)) ∧
      (∀ vm, (after empty program).slot.value = some vm →
        (after empty program).enter = .ok (vm, busy vm) ∧
          Serves vm (after empty program) ∧
          ∀ body, Shielded vm (busy vm) body ∧
            taken (body.without drop).steps (vm, busy vm) =
              (taken body.steps (vm, busy vm)).filter (!·.step.dropped drop)) ∧
      (history empty (program.map (·.without drop))).map (·.value) =
        List.zipWith (Reply.without drop) program
          ((history empty program).map (·.value)) ∧
      (history empty (program.map (·.without drop))).map (·.state) =
        (history empty program).map (·.state) ∧
      after empty (program.map (·.without drop)) = after empty program := by
  have hsettled : (after empty program).Settled := Settled.empty.after program
  refine ⟨hsettled.unlocked, hsettled.not_reentered, fun hnone => ?_,
    fun vm hvm => ?_, Settled.empty.history_without drop program⟩
  · rw [hsettled.eq_empty hnone]
    exact awaits_empty
  · rw [hsettled.eq_holding hvm]
    refine ⟨enter_holding vm, serves_holding vm, fun body => ?_⟩
    rw [Body.steps_without]
    exact ⟨shielded (running_busy vm) vm body,
      taken_filter drop (running_busy vm) vm body.steps⟩

/-- A body that asks for a page, makes requests from within, and panics. -/
def nested : Body :=
  .manager (.map ⟨0x1000⟩ ⟨0x5000⟩ .kernelRW) <|
  .kernel (.withManager (.manager (.unmap ⟨0x1000⟩) .done)) <|
  .kernel .isInitialized <|
  .manager (.panic "out of luck") <|
  .manager (.unmap ⟨0x1000⟩) .done

/-- The page is still there after the panic: the request from within did not
take it away, and neither did the request that the body did not come to.  The
next requests find it. -/
theorem reentry_is_invisible_nested :
    let kernel := after empty [.put .small, .withManager nested]
    let mapped := (Manager.small.call (.map ⟨0x1000⟩ ⟨0x5000⟩ .kernelRW)).state
    (call (.withManager nested) (after empty [.put .small])).value =
        .panicked "out of luck" ∧
      kernel = holding mapped ∧
      call (.translate ⟨0x1234⟩) kernel =
        .quiet (.address (some ⟨0x5234⟩)) kernel ∧
      (call (.unmap ⟨0x1000⟩) kernel).state =
        holding (mapped.unmap ⟨0x1000⟩).state ∧
      (nested.without fun _ => true).steps.length = 3 := by
  intro kernel mapped
  obtain ⟨-, -, -, hplaced, -⟩ :=
    reentry_is_invisible (fun _ => true) [.put .small]
  obtain ⟨-, hserves, -⟩ := hplaced .small rfl
  obtain ⟨hvalue, hstate⟩ := hserves.withManager nested
  have hkernel : kernel = holding mapped := hstate
  obtain ⟨-, -, -, hplaced', -⟩ :=
    reentry_is_invisible (fun _ => true) [.put .small, .withManager nested]
  obtain ⟨-, hserves', -⟩ := hplaced' mapped (congrArg (·.slot.value) hkernel)
  have haddress : mapped.translate ⟨0x1234⟩ = some ⟨0x5234⟩ := by decide +kernel
  refine ⟨hvalue, hkernel, ?_, ?_, rfl⟩
  · rw [← haddress]
    exact hserves'.translate ⟨0x1234⟩
  · exact congrArg Outcome.state (hserves'.unmap ⟨0x1000⟩)

end FourLevelPaging.KernelSpace
