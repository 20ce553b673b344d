/-
No request stops the kernel.  A manager over a pool in arrays answers every
request as one over the pool that the arrays stand for: no index leaves its
array, no sum, difference or product is too large for a word, and only nodes of
the tree are accessed.
-/
import FourLevelPaging.Checked.Manager
import FourLevelPaging.Proofs.Checked.Unmap
import FourLevelPaging.Proofs.Manager.RangeOutcome

namespace FourLevelPaging

open Checked

namespace Address

variable {space : Space} (a : Address space) (size : PageSize)

theorem wrappingAdd_mul_bytes (k : Nat) :
    a.wrappingAdd (BitVec.ofNat 64 (k * size.bytes)) = a.nthPage size k := by
  apply toNat_inj.1
  rw [toNat_wrappingAdd, BitVec.toNat_ofNat, Nat.add_mod_mod, nthPage,
    toNat_ofNat]

theorem nthPage_wrappingAdd_bytes (k : Nat) :
    (a.nthPage size k).wrappingAdd (BitVec.ofNat 64 size.bytes) =
      a.nthPage size (k + 1) := by
  apply toNat_inj.1
  rw [toNat_wrappingAdd, BitVec.toNat_ofNat, nthPage, nthPage, toNat_ofNat,
    toNat_ofNat, Nat.add_mod_mod, Nat.mod_add_mod, Nat.add_one_mul,
    Nat.add_assoc]

end Address

namespace Store

variable {limit : Nat} {s : Store limit}

theorem carries_createSpace (hsound : s.Sound) (hvalid : s.view.pool.Valid)
    (hlow : s.view.pool.Below (2 ^ 52)) :
    Carries view Sound s.createSpace (AddressSpace.create s.view) := by
  rcases allocate_cases hsound hvalid with
    ⟨reason, hrun, hnew⟩ | ⟨node, pool', hrun, hsound', hnew⟩
  · rw [createSpace, hrun, AddressSpace.create_of_starved hnew]
    exact ⟨_, rfl, hsound, rfl⟩
  · have hblank := blank_eq_ok (.bare hvalid hlow) hnew (List.forall_mem_nil _)
    rw [createSpace, hrun, ok_bind, AddressSpace.create_of_fetched hnew]
    dsimp only
    rw [hblank]
    exact ⟨_, rfl, hsound', rfl⟩

end Store

namespace Machine

variable {limit : Nat} {m : Machine limit} {pool : FramePool}
  {held : Finset Frame}

/-- The pool is in order. -/
def Sound (m : Machine limit) : Prop := m.store.Sound

theorem view_invalidate (m : Machine limit) (va : VirtAddr) :
    (m.invalidate va).view = m.view.invalidate va := by
  unfold invalidate Manager.invalidate
  change (if m.active then _ else m).view = if m.active then _ else m.view
  split <;> rfl

theorem store_invalidate (m : Machine limit) (va : VirtAddr) :
    (m.invalidate va).store = m.store := by
  unfold invalidate
  split <;> rfl

/-- What the processor drops is no concern of memory. -/
theorem sound_ite_invalidate (hsound : m.Sound) (p : Prop) [Decidable p]
    (va : VirtAddr) :
    (if p then m.invalidate va else m).Sound := by
  split
  · rw [Sound, store_invalidate]
    exact hsound
  · exact hsound

theorem view_ite_invalidate (m : Machine limit) (p : Prop) [Decidable p]
    (va : VirtAddr) :
    (if p then m.invalidate va else m).view =
      if p then m.view.invalidate va else m.view := by
  split
  · exact view_invalidate m va
  · rfl

/-- What a mapping of the space carries over to the manager of the space. -/
theorem carries_afterMap {va : VirtAddr}
    {run : Checked (Reported (Store limit) (Except MapError Mapped))}
    {done : Reported Memory (Except MapError Mapped)}
    (hrun : Carries Store.view Store.Sound run done) :
    Carries view Sound (do let mapped ← run; return m.afterMap va mapped)
      (m.view.afterMap va done) := by
  refine hrun.bind fun out hsound hout => ⟨_, rfl, ?_, ?_⟩
  · rcases out with ⟨reason | mapped, store, events⟩
    · exact hsound
    · have hsound' : Sound { m with store } := hsound
      exact sound_ite_invalidate hsound' _ va
  · rw [← hout]
    rcases out with ⟨reason | mapped, store, events⟩
    · rfl
    · simp only [afterMap, Manager.afterMap, Outcome.mapState,
        view_ite_invalidate]
      rfl

section Requests

variable (hsound : m.Sound) (htended : m.view.Tended pool held)

include hsound htended

theorem carries_map (va : VirtAddr) (pa : PhysAddr) (flags : Flags) :
    Carries view Sound (m.map va pa flags) (m.view.map va pa flags) :=
  carries_afterMap (Store.carries_map hsound htended.forest
    (List.mem_singleton_self m.space.root) va pa flags)

theorem carries_mapSized (va : VirtAddr) (pa : PhysAddr) (size : PageSize)
    (flags : Flags) :
    Carries view Sound (m.mapSized va pa size flags)
      (m.view.mapSized va pa size flags) :=
  carries_afterMap (Store.carries_mapSized hsound htended.forest
    (List.mem_singleton_self m.space.root) va pa size flags)

end Requests

/-- The offset of every page of a range is a word. -/
theorem carries_mapPages (hsound : m.Sound) (htended : m.view.Tended pool held)
    (va : VirtAddr) (pa : PhysAddr) (size : PageSize) (flags : Flags)
    (count i : Nat) (hfits : (i + count) * size.bytes < 2 ^ 64)
    (events : Array Event) :
    Carries view Sound (mapPages va pa size flags count i m events)
      (Manager.mapPages size flags count (va.nthPage size i) (pa.nthPage size i)
        m.view events) := by
  induction count generalizing m i events with
  | zero => exact ⟨_, rfl, hsound, rfl⟩
  | succ count ih =>
      have hoffset : i * size.bytes ≤ (i + (count + 1)) * size.bytes :=
        Nat.mul_le_mul_right _ (Nat.le_add_right _ _)
      rw [mapPages, product_eq_ok (by omega), ok_bind,
        Address.wrappingAdd_mul_bytes, Address.wrappingAdd_mul_bytes]
      refine (carries_mapSized hsound htended _ _ size flags).bind
        fun step hsound' hstep => ?_
      have htended' := Manager.tended_mapSized htended (va.nthPage size i)
        (pa.nthPage size i) size flags
      simp only [Manager.mapPages, ← hstep, Address.nthPage_wrappingAdd_bytes]
        at htended' ⊢
      rcases step with ⟨reason | mapped, m', reported⟩
      · exact ⟨_, rfl, hsound', rfl⟩
      · exact ih hsound' htended' (i + 1)
          (by rw [Nat.add_right_comm]; exact hfits) (events ++ reported)

section Reads

variable (htended : m.view.Tended pool held)

include htended

theorem lookup_eq_ok (va : VirtAddr) : m.lookup va = .ok (m.view.lookup va) :=
  Store.lookup_eq_ok htended.forest (List.mem_singleton_self m.space.root) va

theorem tableFrames_eq_ok : m.tableFrames = .ok m.view.tableFrames :=
  Store.countNodes_eq_ok htended.forest (List.mem_singleton_self m.space.root)
    .pml4 .root

end Reads

section Ranges

variable (hsound : m.Sound) (htended : m.view.Tended pool held)

include hsound htended

theorem carries_mapRange (va : VirtAddr) (pa : PhysAddr) (bytes : Word)
    (size : PageSize) (flags : Flags) :
    Carries view Sound (m.mapRange va pa bytes size flags)
      (m.view.mapRange va pa bytes size flags) := by
  rw [mapRange, Manager.mapRange]
  split
  · exact ⟨_, rfl, hsound, rfl⟩
  · split
    · exact ⟨_, rfl, hsound, rfl⟩
    · have hfits : (0 + bytes.toNat / size.bytes) * size.bytes < 2 ^ 64 := by
        rw [Nat.zero_add]
        exact Nat.lt_of_le_of_lt (Nat.div_mul_le_self _ _) bytes.isLt
      have hpages :=
        carries_mapPages hsound htended va pa size flags _ 0 hfits #[]
      rw [Address.nthPage_zero, Address.nthPage_zero] at hpages
      refine hpages.bind fun done hsound' hdone => ?_
      simp only [← hdone]
      rcases done with ⟨reason | answer, m', events⟩
      · exact ⟨_, rfl, hsound', rfl⟩
      · exact ⟨_, rfl, hsound', rfl⟩

theorem carries_unmap (va : VirtAddr) :
    Carries view Sound (m.unmap va) (m.view.unmap va) := by
  refine (Store.carries_unmap hsound htended.forest
      (List.mem_singleton_self m.space.root) va).bind
    fun done hsound' hdone => ⟨_, rfl, ?_, ?_⟩
  · have hsound'' : Sound { m with store := done.state } := hsound'
    exact sound_ite_invalidate hsound'' _ va
  · have hdone' : done.mapState Store.view =
        m.view.space.unmap m.view.memory va := hdone
    simp only [Manager.unmap, ← hdone', Outcome.mapState, view_ite_invalidate]
    rfl

theorem carries_activate : Carries view Sound m.activate m.view.activate := by
  have hcount := tableFrames_eq_ok (m := { m with
    mmu.loaded := m.mmu.loaded.push m.space.root, active := true }) htended
  rw [activate]
  dsimp only
  rw [hcount]
  exact ⟨_, rfl, hsound, rfl⟩

theorem carries_mapStage (stage : Stage) :
    Carries view Sound (m.mapStage stage) (m.view.mapStage stage) := by
  refine (carries_mapRange hsound htended stage.va stage.pa stage.bytes
    stage.size stage.flags).bind fun done hsound' hdone => ?_
  rw [Manager.mapStage, ← hdone]
  rcases done with ⟨reason | pages, m', events⟩
  · exact ⟨_, rfl, hsound', rfl⟩
  · exact ⟨_, rfl, hsound', rfl⟩

theorem carries_build (policy : Policy) :
    Carries view Sound (m.build policy) (m.view.build policy) := by
  cases hpolicy : policy.validate with
  | error reason =>
      simp only [build, Manager.build, hpolicy]
      exact ⟨_, rfl, hsound, rfl⟩
  | ok _ =>
      simp only [build, mapIdentity, mapImage, Manager.build,
        Manager.mapIdentity, Manager.mapImage, hpolicy]
      refine (carries_mapStage hsound htended policy.identityStage).bind
        fun identity hsound' hidentity => ?_
      have htended' :=
        Manager.tended_mapStage htended policy.identityStage
      rw [← hidentity] at htended' ⊢
      rcases identity with ⟨reason | answer, m', events⟩
      · exact ⟨_, rfl, hsound', rfl⟩
      · refine (carries_mapStage hsound' htended' policy.imageStage).bind
          fun image hsound'' himage => ⟨_, rfl, hsound'', ?_⟩
        simp only [← himage, Outcome.mapState]

theorem carries_init (policy : Policy) :
    Carries view Sound (m.init policy) (m.view.init policy) := by
  refine (carries_build hsound htended policy).bind
    fun built hsound' hbuilt => ?_
  have htended' := Manager.tended_build htended policy
  rw [← hbuilt] at htended'
  rw [Manager.init, ← hbuilt]
  rcases built with ⟨reason | answer, m', events⟩
  · exact ⟨_, rfl, hsound', rfl⟩
  · refine (carries_activate hsound' htended').bind fun live hsound'' hlive =>
      ⟨_, rfl, hsound'', ?_⟩
    simp only [← hlive, Outcome.mapState]

/-- No request stops the kernel, and each is answered as it is without
arrays. -/
theorem carries_call (request : Manager.Call) :
    Carries view Sound (m.call request) (m.view.call request) := by
  cases request with
  | map va pa flags =>
      refine (carries_map hsound htended va pa flags).bind
        fun done hsound' hdone => ?_
      simp only [Manager.call, ← hdone]
      rcases done with ⟨reason | mapped, m', events⟩ <;>
        exact ⟨_, rfl, hsound', rfl⟩
  | mapSized va pa size flags =>
      refine (carries_mapSized hsound htended va pa size flags).bind
        fun done hsound' hdone => ?_
      simp only [Manager.call, ← hdone]
      rcases done with ⟨reason | mapped, m', events⟩ <;>
        exact ⟨_, rfl, hsound', rfl⟩
  | mapRange va pa bytes size flags =>
      refine (carries_mapRange hsound htended va pa bytes size flags).bind
        fun done hsound' hdone => ?_
      simp only [Manager.call, ← hdone]
      rcases done with ⟨reason | count, m', events⟩ <;>
        exact ⟨_, rfl, hsound', rfl⟩
  | unmap va =>
      refine (carries_unmap hsound htended va).bind fun done hsound' hdone => ?_
      simp only [Manager.call, ← hdone]
      exact ⟨_, rfl, hsound', rfl⟩
  | lookup va =>
      rw [call, lookup_eq_ok htended]
      exact ⟨_, rfl, hsound, rfl⟩
  | translate va =>
      rw [call, lookup_eq_ok htended]
      exact ⟨_, rfl, hsound, rfl⟩
  | root => exact ⟨_, rfl, hsound, rfl⟩
  | list => exact ⟨_, rfl, hsound, rfl⟩
  | build policy =>
      refine (carries_build hsound htended policy).bind
        fun done hsound' hdone => ?_
      simp only [Manager.call, ← hdone]
      rcases done with ⟨reason | answer, m', events⟩ <;>
        exact ⟨_, rfl, hsound', rfl⟩
  | init policy =>
      refine (carries_init hsound htended policy).bind
        fun done hsound' hdone => ?_
      simp only [Manager.call, ← hdone]
      rcases done with ⟨reason | answer, m', events⟩ <;>
        exact ⟨_, rfl, hsound', rfl⟩
  | activate =>
      refine (carries_activate hsound htended).bind fun done hsound' hdone => ?_
      simp only [Manager.call, ← hdone]
      exact ⟨_, rfl, hsound', rfl⟩
  | panic message => exact ⟨_, rfl, hsound, rfl⟩

end Ranges

/-- Whatever is asked of a state without changing it is answered. -/
structure Answers (m : Machine limit) : Prop where
  tableFrames : m.tableFrames = .ok m.view.tableFrames
  freeCount : m.store.pool.freeCount = .ok m.view.memory.pool.freeCount
  allocatedCount :
    m.store.pool.allocatedCount = .ok m.view.memory.pool.allocatedCount
  contains :
    ∀ pa, m.store.pool.contains pa = .ok (m.view.memory.pool.contains pa)

theorem answers_of_tended (hsound : m.Sound)
    (htended : m.view.Tended pool held) : m.Answers :=
  ⟨tableFrames_eq_ok htended,
    ArrayPool.freeCount_eq_ok htended.forest.valid hsound,
    ArrayPool.allocatedCount_eq_ok htended.forest.valid hsound,
    ArrayPool.contains_eq_ok m.store.pool⟩

/-- No list of requests stops the kernel. -/
theorem run_eq_ok (hsound : m.Sound) (htended : m.view.Tended pool held)
    (requests : List Manager.Call) :
    ∃ history, m.run requests = .ok history ∧
      history.map (Outcome.mapState view) =
        Outcome.history Manager.call m.view requests ∧
      ∀ done ∈ history, done.state.Answers := by
  induction requests generalizing m with
  | nil => exact ⟨[], rfl, rfl, List.forall_mem_nil _⟩
  | cons request rest ih =>
      obtain ⟨done, hrun, hsound', hdone⟩ := carries_call hsound htended request
      have htended' : done.state.view.Tended pool held := by
        have hkept := Manager.tended_call htended request
        rw [← hdone] at hkept
        exact hkept
      obtain ⟨others, hothers, hhistory, hanswers⟩ := ih hsound' htended'
      refine ⟨done :: others, ?_, ?_, ?_⟩
      · rw [run, hrun, ok_bind, hothers]
        rfl
      · rw [List.map_cons, hhistory, Outcome.history, ← hdone]
        rfl
      · intro reply hmem
        rcases List.mem_cons.1 hmem with rfl | hmem
        · exact answers_of_tended hsound' htended'
        · exact hanswers reply hmem

/-- A manager can be made, or there is no frame for its root. -/
theorem create_eq_ok {s : Store limit} (hsound : s.Sound)
    (hvalid : s.view.pool.Valid) (hlow : s.view.pool.Below (2 ^ 52)) :
    ∃ made, create s = .ok made ∧
      made.value.map view = (Manager.create s.view).value ∧
      ∀ m, made.value = .ok m → m.Sound := by
  obtain ⟨made, hrun, hsound', hmade⟩ :=
    Store.carries_createSpace hsound hvalid hlow
  rw [create, hrun, ok_bind, Manager.create, ← hmade]
  rcases made with ⟨reason | space, s', events⟩
  · exact ⟨_, rfl, rfl, fun _ h => by cases h⟩
  · refine ⟨_, rfl, rfl, ?_⟩
    rintro m ⟨⟩
    exact hsound'

/-- A manager over a region whose frames lie below `2 ^ 52`, whatever memory
holds, is made and answers every list of requests without a trap, as one over a
pool without arrays does. -/
theorem never_traps {base : PhysAddr} {size frameSize : Word}
    {pool : ArrayPool limit}
    (hregion : ArrayPool.ofRegion limit base size frameSize = .ok pool)
    (hlow : pool.view.Below (2 ^ 52)) (ram : Ram) :
    ∃ made, create ⟨ram, pool⟩ = .ok made ∧
      made.value.map view = (Manager.create ⟨ram, pool.view⟩).value ∧
      ∀ m, made.value = .ok m → m.Answers ∧ ∀ requests, ∃ history,
        m.run requests = .ok history ∧
          history.map (Outcome.mapState view) =
            Outcome.history Manager.call m.view requests ∧
          ∀ done ∈ history, done.state.Answers := by
  obtain ⟨hsound, hcarved⟩ := ArrayPool.sound_ofRegion hregion
  have hreachable := FramePool.reachable_of_ofRegion hcarved
  obtain ⟨made, hrun, hmade, hready⟩ :=
    create_eq_ok (s := ⟨ram, pool⟩) hsound hreachable.valid hlow
  refine ⟨made, hrun, hmade, fun m hm => ?_⟩
  have hview : (Manager.create ⟨ram, pool.view⟩).value = .ok m.view := by
    change _ = (Manager.create ⟨ram, pool.view⟩).value at hmade
    rw [← hmade, hm]
    rfl
  have htended := (Manager.MadeOver.create hview).tended hreachable hlow
  exact ⟨answers_of_tended (hready m hm) htended,
    run_eq_ok (hready m hm) htended⟩

/-- A page is mapped, a range stops at the last canonical address, and the page
is unmapped. -/
theorem never_traps_small :
    ArrayPool.ofRegion 8 ⟨0x100000⟩ 0x8000 0x1000 = .ok .small ∧
      ArrayPool.small.view.Below (2 ^ 52) ∧
      ∃ made m, create ⟨.ofBackground fun _ _ => .empty, .small⟩ = .ok made ∧
        made.value = .ok m ∧ m.Answers ∧
        ∃ history, m.run [.mapSized ⟨0x1000⟩ ⟨0x5000⟩ .fourK .kernelRW,
            .mapRange ⟨0x7fffffffe000⟩ ⟨0x5000⟩ 0x3000 .fourK .kernelRW,
            .unmap ⟨0x1000⟩] = .ok history ∧
          history.map Outcome.value = [.mapped ⟨.fourK, none⟩, .refused
            (.map (.nonCanonical ⟨0x800000000000⟩)), .unmapped (some
            ⟨.fourK, .leaf (Address.page .fourK ⟨0x5000⟩) .kernelRW, 3⟩)] := by
  have hregion := ArrayPool.ofRegion_small
  have hlow : ArrayPool.small.view.Below (2 ^ 52) := FramePool.below_small
  obtain ⟨made, hrun, hmade, hall⟩ :=
    never_traps hregion hlow (.ofBackground fun _ _ => .empty)
  rw [ArrayPool.view_small, Manager.create_small] at hmade
  cases hvalue : made.value with
  | error reason =>
      rw [hvalue] at hmade
      cases hmade
  | ok m =>
      rw [hvalue] at hmade
      have hview : m.view = Manager.small := Except.ok.inj hmade
      obtain ⟨hanswers, hruns⟩ := hall m hvalue
      obtain ⟨history, hhistory, hreplies, -⟩ := hruns _
      refine ⟨hregion, hlow, made, m, hrun, hvalue, hanswers, history, hhistory,
        ?_⟩
      have hvalues : history.map Outcome.value =
          (history.map (Outcome.mapState view)).map Outcome.value := by
        rw [List.map_map]
        rfl
      rw [hvalues, hreplies, hview]
      decide +kernel

end Machine

end FourLevelPaging
