/-
What the past of a manager leaves to be seen.  Of all that happened before,
later answers depend only on what is mapped, on how many frames there were to
begin with and on whether the space is active: not on the frames that the nodes
lie in, on the order in which frames come back from the pool, or on what was in
them.
-/
import FourLevelPaging.Proofs.AddressSpace.Visible
import FourLevelPaging.Proofs.Manager.Invalidation
import FourLevelPaging.Proofs.Manager.Shape

namespace FourLevelPaging.Manager

/-- The answer to the request names no frame of a node. -/
def Call.HidesFrames : Call → Prop
  | .root | .list => False
  | _ => True

/-- Managers that map the same, have as many frames left and are active or not
alike, wherever their nodes are. -/
structure Twins (vm vm' : Manager) : Prop where
  tended : ∃ (pool : FramePool) (held : Finset Frame), vm.Tended pool held
  tended' : ∃ (pool : FramePool) (held : Finset Frame), vm'.Tended pool held
  freeCount_eq : vm.memory.pool.freeCount = vm'.memory.pool.freeCount
  active_eq : vm.active = vm'.active
  lookup_eq : vm.lookup = vm'.lookup

/-- The managers `after` and `after'` asked the processor for the same
invalidations since they were `vm` and `vm'`. -/
def IssuedAlike (vm vm' after after' : Manager) : Prop :=
  ∃ issued, after.mmu.invalidated = vm.mmu.invalidated ++ issued ∧
    after'.mmu.invalidated = vm'.mmu.invalidated ++ issued

/-- Two managers gave the same answer, asked for the same invalidations and are
twins afterwards. -/
structure AnsweredAlike {α : Type} (vm vm' : Manager)
    (done done' : Reported Manager α) : Prop where
  value_eq : done.value = done'.value
  twins : done.state.Twins done'.state
  issued : IssuedAlike vm vm' done.state done'.state

namespace IssuedAlike

variable {vm vm' mid mid' after after' : Manager}

theorem of_eq (h : after.mmu = vm.mmu) (h' : after'.mmu = vm'.mmu) :
    IssuedAlike vm vm' after after' :=
  ⟨#[], by rw [h, Array.append_empty], by rw [h', Array.append_empty]⟩

theorem trans (h : IssuedAlike vm vm' mid mid')
    (h' : IssuedAlike mid mid' after after') :
    IssuedAlike vm vm' after after' := by
  rcases h with ⟨first, hfirst, hfirst'⟩
  rcases h' with ⟨second, hsecond, hsecond'⟩
  exact ⟨first ++ second, by rw [hsecond, hfirst, Array.append_assoc],
    by rw [hsecond', hfirst', Array.append_assoc]⟩

end IssuedAlike

namespace AnsweredAlike

variable {α β : Type} {vm vm' : Manager} {done done' : Reported Manager α}
  {next next' : Reported Manager β}

/-- Nothing changes hands in a request that only asks. -/
theorem of_twins (htwins : vm.Twins vm') (hvalue : done.value = done'.value)
    (hstate : done.state = vm) (hstate' : done'.state = vm') :
    AnsweredAlike vm vm' done done' := by
  refine ⟨hvalue, ?_, .of_eq (by rw [hstate]) (by rw [hstate'])⟩
  rw [hstate, hstate']
  exact htwins

/-- What is made of an answer does not matter. -/
theorem relay (halike : AnsweredAlike vm vm' done done')
    (hvalue : next.value = next'.value) (hstate : next.state = done.state)
    (hstate' : next'.state = done'.state) :
    AnsweredAlike vm vm' next next' := by
  refine ⟨hvalue, ?_, ?_⟩
  · rw [hstate, hstate']
    exact halike.twins
  · rw [hstate, hstate']
    exact halike.issued

/-- One request after another. -/
theorem trans (halike : AnsweredAlike vm vm' done done')
    (hnext : AnsweredAlike done.state done'.state next next') :
    AnsweredAlike vm vm' next next' :=
  ⟨hnext.value_eq, hnext.twins, halike.issued.trans hnext.issued⟩

end AnsweredAlike

namespace Twins

variable {vm vm' : Manager}

theorem symm (htwins : vm.Twins vm') : vm'.Twins vm :=
  ⟨htwins.tended', htwins.tended, htwins.freeCount_eq.symm,
    htwins.active_eq.symm, htwins.lookup_eq.symm⟩

theorem refused (htwins : vm.Twins vm') {va : VirtAddr} {pa : PhysAddr}
    {size : PageSize} {flags : Flags} {reason : ManagerError}
    (herror : (vm.mapSized va pa size flags).value = .error reason) :
    (vm'.mapSized va pa size flags).value = .error reason ∧
      (vm.mapSized va pa size flags).state.lookup =
        (vm'.mapSized va pa size flags).state.lookup ∧
      (vm.mapSized va pa size flags).state.memory.pool.freeCount =
        (vm'.mapSized va pa size flags).state.memory.pool.freeCount := by
  obtain ⟨pool, held, htended⟩ := htwins.tended
  obtain ⟨pool', held', htended'⟩ := htwins.tended'
  obtain ⟨cause, rfl, hrefuses⟩ := (mapSized_eq_error_iff htended).1 herror
  have hrefuses' :=
    AddressSpace.refuses_of_visible htended (List.mem_singleton_self _) htended'
      (List.mem_singleton_self _) htwins.lookup_eq htwins.freeCount_eq hrefuses
  have herror' : (vm'.mapSized va pa size flags).value = .error (.map cause) :=
    (mapSized_eq_error_iff htended').2 ⟨cause, rfl, hrefuses'⟩
  have hkept := unchanged_of_refused htended herror
  have hkept' := unchanged_of_refused htended' herror'
  exact ⟨herror',
    hkept.lookup_eq.trans (htwins.lookup_eq.trans hkept'.lookup_eq.symm),
    hkept.freeCount_eq.trans
      (htwins.freeCount_eq.trans hkept'.freeCount_eq.symm)⟩

theorem accepted (htwins : vm.Twins vm') {va : VirtAddr} {pa : PhysAddr}
    {size : PageSize} {flags : Flags} {mapped : Mapped}
    (hok : (vm.mapSized va pa size flags).value = .ok mapped) :
    (vm'.mapSized va pa size flags).value = .ok mapped ∧
      (vm.mapSized va pa size flags).state.lookup =
        (vm'.mapSized va pa size flags).state.lookup ∧
      (vm.mapSized va pa size flags).state.memory.pool.freeCount =
        (vm'.mapSized va pa size flags).state.memory.pool.freeCount := by
  obtain ⟨pool, held, htended⟩ := htwins.tended
  obtain ⟨pool', held', htended'⟩ := htwins.tended'
  cases hok' : (vm'.mapSized va pa size flags).value with
  | error reason => cases hok.symm.trans (htwins.symm.refused hok').1
  | ok mapped' =>
      have hinstalls := installs_of_forest htended.forest hok
      have hinstalls' := installs_of_forest htended'.forest hok'
      rw [← htwins.lookup_eq] at hinstalls'
      obtain ⟨rfl, hlookup⟩ := hinstalls.unique hinstalls'
      have hcanonical := ((mapSized_eq_ok_iff htended).1 ⟨mapped, hok⟩).1.1
      have hmissing :=
        AddressSpace.missing_congr htended (List.mem_singleton_self _)
          htended' (List.mem_singleton_self _) htwins.lookup_eq hcanonical size
      have hfree := (grows_of_mapSized htended hok).freeCount_eq htended
        (tended_mapSized htended va pa size flags)
      have hfree' := (grows_of_mapSized htended' hok').freeCount_eq htended'
        (tended_mapSized htended' va pa size flags)
      have hbefore := htwins.freeCount_eq
      rw [← hmissing] at hfree'
      exact ⟨rfl, hlookup, by omega⟩

/-- Twins that map the same and have as many frames left after a change at `va`
are twins still. -/
theorem answeredAlike {α : Type} {done done' : Reported Manager α}
    (htwins : vm.Twins vm')
    (htended : ∃ (pool : FramePool) (held : Finset Frame),
      done.state.Tended pool held)
    (htended' : ∃ (pool : FramePool) (held : Finset Frame),
      done'.state.Tended pool held) (hvalue : done.value = done'.value)
    (hlookup : done.state.lookup = done'.state.lookup)
    (hfree : done.state.memory.pool.freeCount =
      done'.state.memory.pool.freeCount)
    {va : VirtAddr} {changed : Bool} (htold : vm.Told done.state va changed)
    (htold' : vm'.Told done'.state va changed) :
    AnsweredAlike vm vm' done done' := by
  have hissued := htold'.invalidated_eq
  rw [issue, ← htwins.active_eq] at hissued
  exact ⟨hvalue, ⟨htended, htended', hfree,
    htold.active_eq.trans (htwins.active_eq.trans htold'.active_eq.symm),
    hlookup⟩, _, htold.invalidated_eq, hissued⟩

/-- A page is mapped by both twins or by neither, and in the same way. -/
theorem mapSized (htwins : vm.Twins vm') (va : VirtAddr) (pa : PhysAddr)
    (size : PageSize) (flags : Flags) :
    AnsweredAlike vm vm' (vm.mapSized va pa size flags)
      (vm'.mapSized va pa size flags) := by
  obtain ⟨pool, held, htended⟩ := htwins.tended
  obtain ⟨pool', held', htended'⟩ := htwins.tended'
  have htold := vm.told_mapSized va pa size flags
  have htold' := vm'.told_mapSized va pa size flags
  have hafter := tended_mapSized htended va pa size flags
  have hafter' := tended_mapSized htended' va pa size flags
  obtain ⟨hvalue, hlookup, hfree⟩ :
      (vm.mapSized va pa size flags).value =
          (vm'.mapSized va pa size flags).value ∧
        (vm.mapSized va pa size flags).state.lookup =
          (vm'.mapSized va pa size flags).state.lookup ∧
        (vm.mapSized va pa size flags).state.memory.pool.freeCount =
          (vm'.mapSized va pa size flags).state.memory.pool.freeCount := by
    cases hanswer : (vm.mapSized va pa size flags).value with
    | error reason =>
        obtain ⟨hanswer', hsame⟩ := htwins.refused hanswer
        exact ⟨hanswer'.symm, hsame⟩
    | ok mapped =>
        obtain ⟨hanswer', hsame⟩ := htwins.accepted hanswer
        exact ⟨hanswer'.symm, hsame⟩
  rw [← hvalue] at htold'
  exact htwins.answeredAlike ⟨pool, held, hafter⟩ ⟨pool', held', hafter'⟩ hvalue
    hlookup hfree htold htold'

theorem map (htwins : vm.Twins vm') (va : VirtAddr) (pa : PhysAddr)
    (flags : Flags) :
    AnsweredAlike vm vm' (vm.map va pa flags) (vm'.map va pa flags) := by
  obtain ⟨hvalue, hstate⟩ := vm.map_eq va pa flags
  obtain ⟨hvalue', hstate'⟩ := vm'.map_eq va pa flags
  have halike := htwins.mapSized va pa (.select va pa (flags.has .huge)) flags
  exact halike.relay (hvalue.trans (halike.value_eq.trans hvalue'.symm))
    hstate hstate'

theorem mapPages (htwins : vm.Twins vm') (size : PageSize) (flags : Flags)
    (count : Nat) (va : VirtAddr) (pa : PhysAddr)
    (events events' : Array Event) :
    AnsweredAlike vm vm' (mapPages size flags count va pa vm events)
      (mapPages size flags count va pa vm' events') := by
  induction count generalizing vm vm' va pa events events' with
  | zero => exact .of_twins htwins rfl rfl rfl
  | succ count ih =>
      have hstep := htwins.mapSized va pa size flags
      simp only [Manager.mapPages]
      rw [← hstep.value_eq]
      split
      · exact hstep.trans (ih hstep.twins _ _ _ _)
      · exact hstep.relay rfl rfl rfl

theorem mapRange (htwins : vm.Twins vm') (va : VirtAddr) (pa : PhysAddr)
    (bytes : Word) (size : PageSize) (flags : Flags) :
    AnsweredAlike vm vm' (vm.mapRange va pa bytes size flags)
      (vm'.mapRange va pa bytes size flags) := by
  have hpages :=
    htwins.mapPages size flags (bytes.toNat / size.bytes) va pa #[] #[]
  simp only [Manager.mapRange]
  rw [← hpages.value_eq]
  split
  · exact .of_twins htwins rfl rfl rfl
  · split
    · exact .of_twins htwins rfl rfl rfl
    · split <;> exact hpages.relay rfl rfl rfl

theorem mapStage (htwins : vm.Twins vm') (stage : Stage) :
    AnsweredAlike vm vm' (vm.mapStage stage) (vm'.mapStage stage) := by
  have hrange := htwins.mapRange stage.va stage.pa stage.bytes stage.size
    stage.flags
  simp only [Manager.mapStage]
  rw [← hrange.value_eq]
  split <;> exact hrange.relay rfl rfl rfl

theorem build (htwins : vm.Twins vm') (policy : Policy) :
    AnsweredAlike vm vm' (vm.build policy) (vm'.build policy) := by
  have hidentity := htwins.mapStage policy.identityStage
  have himage := hidentity.twins.mapStage policy.imageStage
  simp only [Manager.build, mapIdentity, mapImage]
  rw [← hidentity.value_eq]
  split
  · exact .of_twins htwins rfl rfl rfl
  · split
    · exact hidentity.relay rfl rfl rfl
    · exact hidentity.trans (himage.relay himage.value_eq rfl rfl)

theorem activate (htwins : vm.Twins vm') :
    AnsweredAlike vm vm' vm.activate vm'.activate :=
  ⟨rfl,
    ⟨htwins.tended, htwins.tended', htwins.freeCount_eq, rfl, htwins.lookup_eq⟩,
    #[], Array.append_empty.symm, Array.append_empty.symm⟩

theorem init (htwins : vm.Twins vm') (policy : Policy) :
    AnsweredAlike vm vm' (vm.init policy) (vm'.init policy) := by
  have hbuilt := htwins.build policy
  simp only [Manager.init]
  rw [← hbuilt.value_eq]
  split
  · exact hbuilt.relay rfl rfl rfl
  · exact hbuilt.trans (hbuilt.twins.activate.relay rfl rfl rfl)

/-- An address is unmapped in the same way by both twins, and as many nodes go
with it. -/
theorem unmap (htwins : vm.Twins vm') (va : VirtAddr) :
    AnsweredAlike vm vm' (vm.unmap va) (vm'.unmap va) := by
  obtain ⟨pool, held, htended⟩ := htwins.tended
  obtain ⟨pool', held', htended'⟩ := htwins.tended'
  cases hlookup : vm.lookup va with
  | none =>
      obtain ⟨hvalue, hstate⟩ := unmap_of_lookup_eq_none hlookup
      obtain ⟨hvalue', hstate'⟩ :=
        unmap_of_lookup_eq_none (htwins.lookup_eq ▸ hlookup)
      exact .of_twins htwins (hvalue.trans hvalue'.symm) hstate hstate'
  | some target =>
      obtain ⟨unmapped, hvalue, hremoves, hgrows⟩ :=
        removes_of_unmap htended hlookup
      obtain ⟨unmapped', hvalue', hremoves', hgrows'⟩ :=
        removes_of_unmap htended' (htwins.lookup_eq ▸ hlookup)
      rw [← htwins.lookup_eq] at hremoves'
      have hlookup' := hremoves.after_unique hremoves'
      have hafter := tended_call htended (.unmap va)
      have hafter' := tended_call htended' (.unmap va)
      have hnodes : (vm.unmap va).state.tableFrames =
          (vm'.unmap va).state.tableFrames :=
        tableFrames_congr hafter hafter' hlookup'
      have hreclaimed : unmapped.reclaimed = unmapped'.reclaimed := by
        have hbefore := tableFrames_congr htended htended' htwins.lookup_eq
        have hcount := hgrows.tableFrames_eq
        have hcount' := hgrows'.tableFrames_eq
        omega
      have hfree : (vm.unmap va).state.memory.pool.freeCount =
          (vm'.unmap va).state.memory.pool.freeCount := by
        have hbefore := htwins.freeCount_eq
        have hcount := hgrows.freeCount_eq hafter htended
        have hcount' := hgrows'.freeCount_eq hafter' htended'
        omega
      obtain rfl := hremoves.unmapped_unique hremoves' hreclaimed
      have htold := vm.told_unmap va
      have htold' := vm'.told_unmap va
      rw [hvalue] at htold
      rw [hvalue'] at htold'
      exact htwins.answeredAlike ⟨pool, held, hafter⟩ ⟨pool', held', hafter'⟩
        (hvalue.trans hvalue'.symm) hlookup' hfree htold htold'

/-- A request whose answer names no frame of a node is answered alike. -/
theorem call (htwins : vm.Twins vm') {request : Call}
    (hhides : request.HidesFrames) :
    AnsweredAlike vm vm' (vm.call request) (vm'.call request) := by
  cases request with
  | root => exact hhides.elim
  | list => exact hhides.elim
  | map va pa flags =>
      have halike := htwins.map va pa flags
      simp only [Manager.call]
      rw [← halike.value_eq]
      split <;> exact halike.relay rfl rfl rfl
  | mapSized va pa size flags =>
      have halike := htwins.mapSized va pa size flags
      simp only [Manager.call]
      rw [← halike.value_eq]
      split <;> exact halike.relay rfl rfl rfl
  | mapRange va pa bytes size flags =>
      have halike := htwins.mapRange va pa bytes size flags
      simp only [Manager.call]
      rw [← halike.value_eq]
      split <;> exact halike.relay rfl rfl rfl
  | unmap va =>
      have halike := htwins.unmap va
      exact halike.relay (congrArg Reply.unmapped halike.value_eq) rfl rfl
  | build policy =>
      have halike := htwins.build policy
      simp only [Manager.call]
      rw [← halike.value_eq]
      split <;> exact halike.relay rfl rfl rfl
  | init policy =>
      have halike := htwins.init policy
      simp only [Manager.call]
      rw [← halike.value_eq]
      split <;> exact halike.relay rfl rfl rfl
  | activate => exact htwins.activate.relay rfl rfl rfl
  | lookup va =>
      exact .of_twins htwins
        (congrArg Reply.target (congrFun htwins.lookup_eq va)) rfl rfl
  | translate va =>
      have hlookup : vm.translate va = vm'.translate va :=
        congrArg (Option.map Target.phys) (congrFun htwins.lookup_eq va)
      exact .of_twins htwins (congrArg Reply.address hlookup) rfl rfl
  | panic message => exact .of_twins htwins rfl rfl rfl

/-- Any number of such requests are answered alike, and leave twins. -/
theorem history (htwins : vm.Twins vm') {requests : List Call}
    (hhides : ∀ request ∈ requests, request.HidesFrames) :
    (Outcome.history Manager.call vm requests).map Outcome.value =
        (Outcome.history Manager.call vm' requests).map Outcome.value ∧
      (Outcome.after Manager.call vm requests).Twins
        (Outcome.after Manager.call vm' requests) ∧
      IssuedAlike vm vm' (Outcome.after Manager.call vm requests)
        (Outcome.after Manager.call vm' requests) := by
  induction requests generalizing vm vm' with
  | nil => exact ⟨rfl, htwins, .of_eq rfl rfl⟩
  | cons request rest ih =>
      have halike := htwins.call (hhides request List.mem_cons_self)
      obtain ⟨hrest, hafter, hissued⟩ :=
        ih halike.twins fun r hmem =>
          hhides r (List.mem_cons_of_mem request hmem)
      refine ⟨?_, hafter, halike.issued.trans hissued⟩
      simp only [Outcome.history, List.map_cons]
      rw [halike.value_eq, hrest]

end Twins

/-- Two managers, made over pools of equal capacity and brought by any requests
to a state in which they map the same, answer alike from then on.  Of each pool
as many frames were handed out before the manager was made: none, if the pools
were new. -/
theorem answers_forget_history {pool pool' : FramePool} (hpool : pool.Reachable)
    (hpool' : pool'.Reachable) (hlow : pool.Below (2 ^ 52))
    (hlow' : pool'.Below (2 ^ 52)) (hcapacity : pool.capacity = pool'.capacity)
    (hgiven : pool.allocatedCount = pool'.allocatedCount) {vm vm' : Manager}
    (hover : vm.MadeOver pool) (hover' : vm'.MadeOver pool')
    (hactive : vm.active = vm'.active) (hlookup : vm.lookup = vm'.lookup) :
    (∀ request : Call, request.HidesFrames →
        AnsweredAlike vm vm' (vm.call request) (vm'.call request)) ∧
      ∀ requests : List Call, (∀ request ∈ requests, request.HidesFrames) →
        (Outcome.history Manager.call vm requests).map Outcome.value =
            (Outcome.history Manager.call vm' requests).map Outcome.value ∧
          (Outcome.after Manager.call vm requests).Twins
            (Outcome.after Manager.call vm' requests) ∧
          IssuedAlike vm vm' (Outcome.after Manager.call vm requests)
            (Outcome.after Manager.call vm' requests) := by
  have htended := hover.tended hpool hlow
  have htended' := hover'.tended hpool' hlow'
  have hfree : vm.memory.pool.freeCount = vm'.memory.pool.freeCount := by
    have hnodes := tableFrames_congr htended htended' hlookup
    have hleft := hover.freeCount_eq hpool hlow
    have hleft' := hover'.freeCount_eq hpool' hlow'
    have htotal := FramePool.freeCount_add_allocatedCount hpool.valid
    have htotal' := FramePool.freeCount_add_allocatedCount hpool'.valid
    omega
  have htwins : vm.Twins vm' :=
    ⟨⟨pool, _, htended⟩, ⟨pool', _, htended'⟩, hfree, hactive, hlookup⟩
  exact ⟨fun request => htwins.call, fun requests => htwins.history⟩

/-- Eight frames from 1 GiB on. -/
def highPool : FramePool :=
  { limit := 8, first := .containing ⟨0x40000000⟩, frames := 8, next := 0,
    freed := [] }

theorem ofRegion_highPool :
    FramePool.ofRegion 8 ⟨0x40000000⟩ 0x8000 0x1000 = .ok highPool := by
  decide +kernel

/-- A manager of an empty space in memory that was full of ones. -/
def high : Manager :=
  { space := ⟨highPool.frameAt 0⟩
    memory :=
      { ram := (Ram.ofBackground fun _ _ => ⟨BitVec.allOnes 64⟩).zero
          (highPool.frameAt 0)
        pool := { highPool with next := 1 } }
    mmu := .fresh
    active := false }

theorem create_high :
    (Manager.create
        ⟨.ofBackground fun _ _ => ⟨BitVec.allOnes 64⟩, highPool⟩).value =
      .ok high := by
  have hroot : highPool.allocate =
      .ok (highPool.frameAt 0, { highPool with next := 1 }) := rfl
  simp only [Manager.create, AddressSpace.create, Memory.newNode?,
    FramePool.take?, hroot]
  rfl

theorem reachable_high : high.Reachable :=
  .create (FramePool.reachable_of_ofRegion ofRegion_highPool)
    (FramePool.below_of_carve ofRegion_highPool (by decide)) create_high

/-- The page that `oneMapped` maps, mapped to another address first. -/
def remapped : Manager :=
  ((high.mapSized ⟨0x1000⟩ ⟨0x9000⟩ .fourK .kernelRW).state.mapSized ⟨0x1000⟩
    ⟨0x5000⟩ .fourK .kernelRW).state

theorem lookup_remapped : oneMapped.lookup = remapped.lookup := by
  have hone : (small.mapSized ⟨0x1000⟩ ⟨0x5000⟩ .fourK .kernelRW).value =
      .ok ⟨.fourK, none⟩ := by
    decide +kernel
  have hfirst : (high.mapSized ⟨0x1000⟩ ⟨0x9000⟩ .fourK .kernelRW).value =
      .ok ⟨.fourK, none⟩ := by
    decide +kernel
  have hagain : ((high.mapSized ⟨0x1000⟩ ⟨0x9000⟩ .fourK
        .kernelRW).state.mapSized ⟨0x1000⟩ ⟨0x5000⟩ .fourK .kernelRW).value =
      .ok ⟨.fourK, some (.leaf (Address.page .fourK ⟨0x9000⟩) .kernelRW)⟩ := by
    decide +kernel
  have hinstalls := (installs_of_mapSized reachable_small hone).2
  have hinstalls' := (installs_of_mapSized reachable_high hfirst).2
  have hinstalls'' :=
    (installs_of_mapSized (reachable_high.mapSized _ _ _ _) hagain).2
  funext a
  by_cases ha : 0x1000 ≤ a.toNat ∧ a.toNat < 0x1000 + PageSize.fourK.bytes
  · exact (hinstalls.inside a ha.1 ha.2).trans
      (hinstalls''.inside a ha.1 ha.2).symm
  · have hnone := lookup_create
      (FramePool.reachable_of_ofRegion FramePool.ofRegion_small).valid
      create_small a
    have hnone' := lookup_create
      (FramePool.reachable_of_ofRegion ofRegion_highPool).valid create_high a
    exact (hinstalls.outside a ha).trans (hnone.trans (hnone'.symm.trans
      ((hinstalls'.outside a ha).symm.trans (hinstalls''.outside a ha).symm)))

/-- Two managers that came to map the same page in different ways. -/
theorem answers_forget_history_remapped :
    oneMapped.space.root ≠ remapped.space.root ∧
      oneMapped.active = remapped.active ∧ oneMapped.lookup = remapped.lookup ∧
      AnsweredAlike oneMapped remapped (oneMapped.call (.unmap ⟨0x1000⟩))
        (remapped.call (.unmap ⟨0x1000⟩)) := by
  have hactive : oneMapped.active = remapped.active := by decide +kernel
  have hover : oneMapped.MadeOver .small :=
    (MadeOver.create create_small).mapSized _ _ _ _
  have hover' : remapped.MadeOver highPool :=
    ((MadeOver.create create_high).mapSized _ _ _ _).mapSized _ _ _ _
  have halike := (answers_forget_history
    (FramePool.reachable_of_ofRegion FramePool.ofRegion_small)
    (FramePool.reachable_of_ofRegion ofRegion_highPool) FramePool.below_small
    (FramePool.below_of_carve ofRegion_highPool (by decide)) rfl rfl hover
    hover' hactive lookup_remapped).1 (.unmap ⟨0x1000⟩) trivial
  exact ⟨by decide +kernel, hactive, lookup_remapped, halike⟩

end FourLevelPaging.Manager
