/-
A pool in arrays answers every list of requests as the pool that the arrays
stand for.  In particular it does so after it started over with another region,
whatever is left on its stack.
-/
import FourLevelPaging.Checked.FramePool.Call
import FourLevelPaging.Proofs.Checked.FramePool

namespace FourLevelPaging.ArrayPool

open Checked

variable {limit : Nat} {pool pool' : ArrayPool limit}

theorem sound_unset (limit : Nat) :
    (unset limit).Sound ∧ (unset limit).view = FramePool.unset limit := by
  have hview : (unset limit).view = FramePool.unset limit := by
    simp [view, unset, FramePool.unset]
  refine ⟨⟨Nat.zero_le _, fun i h => ?_⟩, hview⟩
  rw [hview]
  simp [unset, FramePool.unset]

theorem map_view_carve (pool : ArrayPool limit) (base : PhysAddr)
    (size frameSize : Word) :
    (pool.carve base size frameSize).map view =
      pool.view.carve base size frameSize := by
  have hlimit : pool.view.limit = limit := rfl
  unfold carve FramePool.carve
  rw [hlimit]
  split_ifs <;> rfl

/-- Nothing is on the stack of a pool that started over, and nothing is
marked. -/
theorem sound_carve {base : PhysAddr} {size frameSize : Word}
    (hcarved : pool.carve base size frameSize = .ok pool') : pool'.Sound := by
  unfold carve at hcarved
  split_ifs at hcarved
  cases hcarved
  refine ⟨Nat.zero_le _, fun i h => ?_⟩
  simp [view]

theorem carve_eq_ok {base : PhysAddr} {size frameSize : Word}
    {carved : FramePool} (pool : ArrayPool limit)
    (hcarved : pool.view.carve base size frameSize = .ok carved) :
    ∃ pool', pool.carve base size frameSize = .ok pool' ∧ pool'.Sound ∧
      pool'.view = carved := by
  rw [← map_view_carve] at hcarved
  cases hrun : pool.carve base size frameSize with
  | error reason =>
      rw [hrun] at hcarved
      cases hcarved
  | ok pool' =>
      rw [hrun] at hcarved
      exact ⟨pool', rfl, sound_carve hrun, Except.ok.inj hcarved⟩

theorem carve_eq_error {base : PhysAddr} {size frameSize : Word}
    {reason : FramePoolError} (pool : ArrayPool limit)
    (hcarved : pool.view.carve base size frameSize = .error reason) :
    pool.carve base size frameSize = .error reason := by
  rw [← map_view_carve] at hcarved
  cases hrun : pool.carve base size frameSize with
  | error cause =>
      rw [hrun] at hcarved
      exact congrArg Except.error (Except.error.inj hcarved)
  | ok pool' =>
      rw [hrun] at hcarved
      cases hcarved

theorem freeAddress_eq_ok (hsound : pool.Sound) (hvalid : pool.view.Valid)
    (pa : PhysAddr) :
    ∃ answer pool', pool.freeAddress pa = .ok (answer, pool') ∧ pool'.Sound ∧
      pool.view.freeAddress pa = answer.map (fun _ => pool'.view) ∧
      ∀ reason, answer = .error reason → pool' = pool := by
  unfold freeAddress FramePool.freeAddress
  cases Page.ofBase? pa with
  | some frame => exact free_eq_ok hsound hvalid frame
  | none => exact ⟨_, _, rfl, hsound, rfl, fun _ _ => rfl⟩

theorem drainUpTo_eq_ok (hsound : pool.Sound) (hvalid : pool.view.Valid)
    (count : Nat) :
    ∃ taken last pool', drainUpTo count pool = .ok (taken, last, pool') ∧
      pool'.Sound ∧
      FramePool.drainUpTo count pool.view = (taken, last, pool'.view) := by
  induction count generalizing pool with
  | zero => exact ⟨_, _, _, rfl, hsound, rfl⟩
  | succ count ih =>
      obtain ⟨given, pool', hrun, hsound', hview, hkept⟩ :=
        allocate_eq_ok hsound hvalid
      rw [drainUpTo, hrun, ok_bind, FramePool.drainUpTo, hview]
      cases given with
      | error reason =>
          obtain rfl := hkept reason rfl
          exact ⟨_, _, _, rfl, hsound, rfl⟩
      | ok frame =>
          have hvalid' := (FramePool.took_of_allocate hvalid hview).valid
          obtain ⟨taken, last, left, hrest, hsound'', hleft⟩ :=
            ih hsound' hvalid'
          refine ⟨taken + 1, some (last.getD frame), left, ?_, hsound'', ?_⟩
          · dsimp only
            rw [hrest]
            rfl
          · simp only [Except.map, hleft]

/-- No request stops a pool in arrays, and each is carried out as without
them. -/
theorem carries_call (hsound : pool.Sound) (hvalid : pool.view.Valid)
    (request : FramePool.Call) :
    Carries view Sound (pool.call request) (pool.view.call request) := by
  cases request with
  | carve base size frameSize =>
      simp only [call, FramePool.call]
      cases hcarved : pool.view.carve base size frameSize with
      | error reason =>
          rw [carve_eq_error pool hcarved]
          exact ⟨_, rfl, hsound, rfl⟩
      | ok carved =>
          obtain ⟨pool', hrun, hsound', rfl⟩ := carve_eq_ok pool hcarved
          rw [hrun]
          exact ⟨_, rfl, hsound', rfl⟩
  | allocate =>
      obtain ⟨taken, pool', hrun, hsound', hview, hkept⟩ :=
        allocate_eq_ok hsound hvalid
      simp only [call, FramePool.call, hrun, ok_bind, hview]
      cases taken with
      | error reason =>
          obtain rfl := hkept reason rfl
          exact ⟨_, rfl, hsound, rfl⟩
      | ok frame => exact ⟨_, rfl, hsound', rfl⟩
  | take =>
      obtain ⟨taken, pool', hrun, hsound', hview, hkept⟩ :=
        allocate_eq_ok hsound hvalid
      simp only [call, FramePool.call, FramePool.take?, hrun, ok_bind, hview]
      cases taken with
      | error reason =>
          obtain rfl := hkept reason rfl
          exact ⟨_, rfl, hsound, rfl⟩
      | ok frame => exact ⟨_, rfl, hsound', rfl⟩
  | drain =>
      obtain ⟨taken, last, pool', hrun, hsound', hview⟩ :=
        drainUpTo_eq_ok hsound hvalid pool.view.freeCount
      simp only [call, FramePool.call, FramePool.drain,
        freeCount_eq_ok hvalid hsound, ok_bind, hrun, hview]
      exact ⟨_, rfl, hsound', rfl⟩
  | free frame =>
      obtain ⟨answer, pool', hrun, hsound', hview, hkept⟩ :=
        free_eq_ok hsound hvalid frame
      simp only [call, FramePool.call, hrun, ok_bind, hview]
      cases answer with
      | error reason =>
          obtain rfl := hkept reason rfl
          exact ⟨_, rfl, hsound, rfl⟩
      | ok _ => exact ⟨_, rfl, hsound', rfl⟩
  | freeAddress pa =>
      obtain ⟨answer, pool', hrun, hsound', hview, hkept⟩ :=
        freeAddress_eq_ok hsound hvalid pa
      simp only [call, FramePool.call, hrun, ok_bind, hview]
      cases answer with
      | error reason =>
          obtain rfl := hkept reason rfl
          exact ⟨_, rfl, hsound, rfl⟩
      | ok _ => exact ⟨_, rfl, hsound', rfl⟩
  | giveBack frame =>
      obtain ⟨given, hrun, hsound', hgiven⟩ :=
        carries_giveBack hsound hvalid frame
      simp only [call, FramePool.call, hrun, ok_bind, ← hgiven]
      exact ⟨_, rfl, hsound', rfl⟩
  | contains pa =>
      simp only [call, FramePool.call, contains_eq_ok, ok_bind]
      exact ⟨_, rfl, hsound, rfl⟩

/-- No list of requests stops a pool in arrays. -/
theorem run_eq_ok (hsound : pool.Sound) (hvalid : pool.view.Valid)
    (requests : List FramePool.Call) :
    ∃ history, pool.run requests = .ok history ∧
      history.map (Outcome.mapState view) =
        Outcome.history FramePool.call pool.view requests := by
  induction requests generalizing pool with
  | nil => exact ⟨[], rfl, rfl⟩
  | cons request rest ih =>
      obtain ⟨done, hrun, hsound', hdone⟩ := carries_call hsound hvalid request
      have hvalid' : done.state.view.Valid := by
        have hkept := FramePool.valid_call hvalid request
        rw [← hdone] at hkept
        exact hkept
      obtain ⟨others, hothers, hhistory⟩ := ih hsound' hvalid'
      refine ⟨done :: others, ?_, ?_⟩
      · rw [run, hrun, ok_bind, hothers]
        rfl
      · rw [List.map_cons, hhistory, Outcome.history, ← hdone]
        rfl

/-- Arrays answer every list of requests, from an empty pool on, as the pool
without them. -/
theorem run_unset (limit : Nat) (requests : List FramePool.Call) :
    ∃ history, (unset limit).run requests = .ok history ∧
      history.map (Outcome.mapState view) =
        Outcome.history FramePool.call (FramePool.unset limit) requests := by
  obtain ⟨hsound, hview⟩ := sound_unset limit
  have hvalid := FramePool.valid_unset limit
  rw [← hview] at hvalid ⊢
  exact run_eq_ok hsound hvalid requests

end FourLevelPaging.ArrayPool
