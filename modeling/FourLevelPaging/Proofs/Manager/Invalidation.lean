/-
What the processor is told of changes.  Once it translates through the space,
every page whose addresses lead elsewhere is invalidated, and only pages that
were mapped are: also when a request for many pages stops midway.
-/
import FourLevelPaging.Proofs.Manager.Bootstrap
import FourLevelPaging.Proofs.Manager.Unmapping

namespace FourLevelPaging

/-- A leaf maps the whole of its page. -/
theorem AddressSpace.lookup_of_page_eq {space : AddressSpace} {ram : Ram}
    {a b : VirtAddr} {target : Target}
    (hlookup : space.lookup ram a = some target)
    (hpage : b.page target.size = a.page target.size) :
    ∃ other, space.lookup ram b = some other ∧ other.size = target.size := by
  obtain ⟨ha, level, frame, e, size, hleaf, hsize, rfl⟩ :=
    lookup_eq_some_iff.1 hlookup
  change b.page size = a.page size at hpage
  have hb := VirtAddr.isCanonical_of_page_eq hpage ha
  obtain rfl := Level.level_of_leafSize hsize
  rw [Address.page_eq_iff, ← PageSize.two_pow_shift_level,
    ← Level.index_pathTo_eq_iff hb ha] at hpage
  have hleaf' : ram.LeafAt space.root b size.level frame e :=
    ⟨hpage.2 ▸ hleaf.reach, hpage.1 ▸ hleaf.child⟩
  exact ⟨_, lookup_of_leafAt hb hleaf' hsize, rfl⟩

namespace Manager

/-- The invalidations that follow a change at `va`, if there was one. -/
def issue (vm : Manager) (va : VirtAddr) (changed : Bool) : Array VirtAddr :=
  if changed && vm.active then #[va] else #[]

/-- The answer to a mapping request tells of a page that was replaced. -/
def tellsReplaced : Except ManagerError Mapped → Bool
  | .ok mapped => mapped.replaced.isSome
  | .error _ => false

/-- Of a change at `va`, the processor was told what it has to know, and of
nothing else. -/
structure Told (vm after : Manager) (va : VirtAddr) (changed : Bool) :
    Prop where
  active_eq : after.active = vm.active
  invalidated_eq :
    after.mmu.invalidated = vm.mmu.invalidated ++ vm.issue va changed

theorem told_invalidate (vm : Manager) (va : VirtAddr) (changed : Bool) :
    vm.Told (if changed then vm.invalidate va else vm) va changed := by
  cases changed with
  | false => exact ⟨rfl, Array.append_empty.symm⟩
  | true =>
      rw [if_pos rfl]
      cases hactive : vm.active with
      | false => constructor <;> simp [invalidate, issue, hactive]
      | true => constructor <;> simp [invalidate, issue, hactive]

theorem told_mapSized (vm : Manager) (va : VirtAddr) (pa : PhysAddr)
    (size : PageSize) (flags : Flags) :
    vm.Told (vm.mapSized va pa size flags).state va
      (tellsReplaced (vm.mapSized va pa size flags).value) := by
  unfold mapSized afterMap
  split
  · next mapped _ =>
      have htold := told_invalidate
        { vm with memory := (vm.space.mapSized vm.memory va pa
                    size flags).state } va mapped.replaced.isSome
      exact ⟨htold.active_eq, htold.invalidated_eq⟩
  · exact ⟨rfl, Array.append_empty.symm⟩

theorem told_unmap (vm : Manager) (va : VirtAddr) :
    vm.Told (vm.unmap va).state va (vm.unmap va).value.isSome := by
  have htold :=
    told_invalidate { vm with memory := (vm.space.unmap vm.memory va).state } va
      (vm.unmap va).value.isSome
  exact ⟨htold.active_eq, htold.invalidated_eq⟩

/-- From `vm` to `after`, what is mapped changed inside `region` only, and the
processor was told to invalidate the addresses in `issued`, in order. -/
structure Announced (vm after : Manager) (region : Set VirtAddr)
    (issued : Array VirtAddr) : Prop where
  active_eq : after.active = vm.active
  loaded_eq : after.mmu.loaded = vm.mmu.loaded
  invalidated_eq : after.mmu.invalidated = vm.mmu.invalidated ++ issued
  /-- The page of every address that leads elsewhere was invalidated. -/
  told : vm.active = true → ∀ a target, vm.lookup a = some target →
    after.lookup a ≠ some target →
    ∃ v ∈ issued, v.page target.size = a.page target.size
  mapped : ∀ v ∈ issued, v ∈ region ∧ (vm.lookup v).isSome
  outside : ∀ a ∉ region, after.lookup a = vm.lookup a
  quiet : vm.active = false → issued = #[]

namespace Announced

variable {vm mid after : Manager} {region region' : Set VirtAddr}
  {issued issued' : Array VirtAddr}

theorem nothing (vm : Manager) (region : Set VirtAddr) :
    Announced vm vm region #[] :=
  ⟨rfl, rfl, Array.append_empty.symm, fun _ _ _ h h' => absurd h h',
    fun _ h => by simp at h, fun _ _ => rfl, fun _ => rfl⟩

/-- One change after another, in another region. -/
theorem trans (h : Announced vm mid region issued)
    (h' : Announced mid after region' issued')
    (hapart : ∀ a ∈ region', a ∉ region) :
    Announced vm after (region ∪ region') (issued ++ issued') := by
  refine ⟨h'.active_eq.trans h.active_eq, h'.loaded_eq.trans h.loaded_eq,
    ?_, ?_, ?_, ?_, ?_⟩
  · rw [h'.invalidated_eq, h.invalidated_eq, Array.append_assoc]
  · intro hactive a target hlookup hchanged
    by_cases hmid : mid.lookup a = some target
    · obtain ⟨v, hv, hpage⟩ :=
        h'.told (h.active_eq.trans hactive) a target hmid hchanged
      exact ⟨v, Array.mem_append.2 (Or.inr hv), hpage⟩
    · obtain ⟨v, hv, hpage⟩ := h.told hactive a target hlookup hmid
      exact ⟨v, Array.mem_append.2 (Or.inl hv), hpage⟩
  · intro v hv
    rcases Array.mem_append.1 hv with hv | hv
    · exact ⟨Or.inl (h.mapped v hv).1, (h.mapped v hv).2⟩
    · obtain ⟨hmem, hsome⟩ := h'.mapped v hv
      rw [h.outside v (hapart v hmem)] at hsome
      exact ⟨Or.inr hmem, hsome⟩
  · intro a ha
    rw [h'.outside a fun hmem => ha (Or.inr hmem),
      h.outside a fun hmem => ha (Or.inl hmem)]
  · intro hidle
    rw [h.quiet hidle, h'.quiet (h.active_eq.trans hidle), Array.append_empty]

theorem mono (h : Announced vm after region issued) (hsub : region ⊆ region') :
    Announced vm after region' issued :=
  ⟨h.active_eq, h.loaded_eq, h.invalidated_eq, h.told,
    fun v hv => ⟨hsub (h.mapped v hv).1, (h.mapped v hv).2⟩,
    fun a ha => h.outside a fun hmem => ha (hsub hmem), h.quiet⟩

end Announced

variable {vm : Manager} {pool : FramePool} {held : Finset Frame}

theorem invalidate_loaded (vm : Manager) (va : VirtAddr) :
    (vm.invalidate va).mmu.loaded = vm.mmu.loaded := by
  unfold invalidate
  split <;> rfl

theorem mem_issue {va v : VirtAddr} {changed : Bool}
    (hmem : v ∈ vm.issue va changed) :
    v = va ∧ changed = true ∧ vm.active = true := by
  unfold issue at hmem
  split at hmem
  · next h =>
      rw [Bool.and_eq_true] at h
      exact ⟨by simpa using hmem, h⟩
  · simp at hmem

theorem mem_issue_self {va : VirtAddr} {changed : Bool}
    (hchanged : changed = true) (hactive : vm.active = true) :
    va ∈ vm.issue va changed := by
  simp [issue, hchanged, hactive]

theorem issue_of_idle (va : VirtAddr) (changed : Bool)
    (hidle : vm.active = false) :
    vm.issue va changed = #[] := by
  simp [issue, hidle]

theorem idle_of_create {mem : Memory}
    (hmade : (Manager.create mem).value = .ok vm) :
    vm.active = false ∧ vm.mmu = .fresh := by
  cases hspace : (AddressSpace.create mem).value with
  | error reason => simp [Manager.create, hspace] at hmade
  | ok space =>
      simp only [Manager.create, hspace, Except.ok.injEq] at hmade
      subst hmade
      exact ⟨rfl, rfl⟩

theorem loaded_mapSized (vm : Manager) (va : VirtAddr) (pa : PhysAddr)
    (size : PageSize) (flags : Flags) :
    (vm.mapSized va pa size flags).state.mmu.loaded = vm.mmu.loaded := by
  unfold mapSized afterMap
  split
  · split
    · exact invalidate_loaded _ va
    · rfl
  · rfl

theorem loaded_unmap (vm : Manager) (va : VirtAddr) :
    (vm.unmap va).state.mmu.loaded = vm.mmu.loaded := by
  simp only [unmap]
  split
  · exact invalidate_loaded _ va
  · rfl

section Steps

variable (htended : vm.Tended pool held)

include htended

/-- A page that is mapped takes the place of pages of its own size only, so one
invalidation is enough. -/
theorem announced_mapSized (va : VirtAddr) (pa : PhysAddr) (size : PageSize)
    (flags : Flags) :
    Announced vm (vm.mapSized va pa size flags).state (va.window size.bytes)
      (vm.issue va (tellsReplaced (vm.mapSized va pa size flags).value)) := by
  have htold := vm.told_mapSized va pa size flags
  have hloaded := vm.loaded_mapSized va pa size flags
  cases hanswer : (vm.mapSized va pa size flags).value with
  | error reason =>
      have hlookup := (unchanged_of_refused htended hanswer).lookup_eq
      rw [hanswer] at htold
      refine ⟨htold.active_eq, hloaded, htold.invalidated_eq, ?_, ?_, ?_, ?_⟩
      · intro _ a target hbefore hafter
        exact absurd (hlookup ▸ hbefore) hafter
      · intro v hv
        cases (mem_issue hv).2.1
      · intro a _
        rw [hlookup]
      · exact issue_of_idle va _
  | ok mapped =>
      rw [hanswer] at htold
      obtain ⟨⟨-, haligned, -⟩, hfree, -⟩ :=
        (mapSized_eq_ok_iff htended).1 ⟨mapped, hanswer⟩
      have hinstalls := installs_of_forest htended.forest hanswer
      have hreplaced : mapped.replaced.isSome = (vm.lookup va).isSome := by
        have hsame := congrArg Option.isSome hinstalls.replaced
        rwa [Option.isSome_map, Option.isSome_map] at hsame
      refine ⟨htold.active_eq, hloaded, htold.invalidated_eq, ?_, ?_,
        hinstalls.outside, ?_⟩
      · intro hactive a target hbefore hafter
        have hinside : va.toNat ≤ a.toNat ∧
            a.toNat < va.toNat + size.bytes := by
          by_contra hout
          exact hafter ((hinstalls.outside a hout).trans hbefore)
        obtain rfl : target.size = size := by
          by_contra hne
          exact hfree _ ⟨a, target, hinside, hbefore, hne, rfl⟩
        have hpage : va.page target.size = a.page target.size := by
          rw [Address.page_eq_iff]
          exact ((PageSize.mem_page_iff haligned a).1 hinside).symm
        obtain ⟨other, hother, -⟩ :=
          AddressSpace.lookup_of_page_eq hbefore hpage
        have hsome : mapped.replaced.isSome = true := by
          rw [hreplaced, lookup, hother]
          rfl
        exact ⟨va, mem_issue_self hsome hactive, hpage⟩
      · intro v hv
        obtain ⟨rfl, hsome, -⟩ := mem_issue hv
        exact ⟨⟨Nat.le_refl _, Nat.lt_add_of_pos_right size.bytes_pos⟩,
          hreplaced ▸ hsome⟩
      · exact issue_of_idle va _

theorem announced_map (va : VirtAddr) (pa : PhysAddr) (flags : Flags) :
    ∃ region issued, Announced vm (vm.map va pa flags).state region issued := by
  rw [(vm.map_eq va pa flags).2]
  exact ⟨_, _,
    announced_mapSized htended va pa (.select va pa (flags.has .huge)) flags⟩

theorem announced_unmap (va : VirtAddr) :
    ∃ issued, Announced vm (vm.unmap va).state Set.univ issued := by
  cases hlookup : vm.lookup va with
  | none =>
      rw [(unmap_of_lookup_eq_none hlookup).2]
      exact ⟨#[], .nothing vm Set.univ⟩
  | some target =>
      obtain ⟨unmapped, hvalue, hremoves, -⟩ := removes_of_unmap htended hlookup
      have htold := vm.told_unmap va
      refine ⟨_, htold.active_eq, vm.loaded_unmap va, htold.invalidated_eq,
        ?_, ?_, ?_, ?_⟩
      · intro hactive a other hbefore hafter
        have hpage : a.page target.size = va.page target.size := by
          by_contra hout
          exact hafter ((hremoves.outside a hout).trans hbefore)
        obtain ⟨same, hsame, hsize⟩ :=
          AddressSpace.lookup_of_page_eq hlookup hpage
        obtain rfl : same = other := Option.some.inj (hsame.symm.trans hbefore)
        rw [hsize]
        exact ⟨va, mem_issue_self (by rw [hvalue]; rfl) hactive, hpage.symm⟩
      · intro v hv
        obtain ⟨rfl, -⟩ := mem_issue hv
        exact ⟨Set.mem_univ v, by rw [hlookup]; rfl⟩
      · exact fun a ha => absurd (Set.mem_univ a) ha
      · exact issue_of_idle va _

/-- Every page of a range is announced on its own, and none of them is one that
the range itself has mapped. -/
theorem announced_mapPages (size : PageSize) (flags : Flags) {count : Nat}
    {va : VirtAddr} (hva : va.toNat + count * size.bytes < 2 ^ 64)
    (pa : PhysAddr) (events : Array Event) :
    ∃ issued, Announced vm (mapPages size flags count va pa vm events).state
      (va.window (count * size.bytes)) issued := by
  induction count generalizing vm va pa events with
  | zero => exact ⟨#[], .nothing vm _⟩
  | succ count ih =>
      rw [Nat.succ_mul] at hva ⊢
      have hstep := announced_mapSized htended va pa size flags
      have hfirst :
          va.window size.bytes ⊆ va.window (count * size.bytes + size.bytes) :=
        fun a ha => ⟨ha.1, Nat.lt_of_lt_of_le ha.2 (by omega)⟩
      simp only [Manager.mapPages]
      split
      · have hnext : (va.wrappingAdd (BitVec.ofNat 64 size.bytes)).toNat =
            va.toNat + size.bytes := Address.toNat_wrappingAdd_bytes (by omega)
        have hend : (va.wrappingAdd (BitVec.ofNat 64 size.bytes)).toNat +
            count * size.bytes < 2 ^ 64 := by omega
        obtain ⟨issued, hrest⟩ := ih (tended_mapSized htended va pa size flags)
          hend (pa.wrappingAdd (BitVec.ofNat 64 size.bytes))
          (events ++ (vm.mapSized va pa size flags).events)
        refine ⟨_, (hstep.trans hrest ?_).mono (Set.union_subset hfirst ?_)⟩
        · intro a ha hmem
          have hge := ha.1
          have hlt := hmem.2
          omega
        · intro a ha
          have hge := ha.1
          have hlt := ha.2
          exact ⟨by omega, by omega⟩
      · exact ⟨_, hstep.mono hfirst⟩

theorem announced_mapRange (va : VirtAddr) (pa : PhysAddr) (bytes : Word)
    (size : PageSize) (flags : Flags) :
    ∃ issued, Announced vm (vm.mapRange va pa bytes size flags).state
      (va.window bytes.toNat) issued := by
  rcases vm.mapRange_cases va pa bytes size flags with
    ⟨-, hstate⟩ | ⟨count, hbytes, hva, -, hstate, -⟩
  · rw [hstate]
    exact ⟨#[], .nothing vm _⟩
  · rw [hbytes] at hva ⊢
    rw [hstate]
    exact announced_mapPages htended size flags hva pa #[]

theorem announced_mapStage (stage : Stage) :
    ∃ issued, Announced vm (vm.mapStage stage).state
      (stage.va.window stage.bytes.toNat) issued := by
  rw [(vm.mapStage_eq stage).1]
  exact announced_mapRange htended _ _ _ _ _

/-- The two windows of a policy that is accepted lie apart. -/
theorem announced_build (policy : Policy) :
    ∃ region issued, Announced vm (vm.build policy).state region issued := by
  obtain ⟨issued, hidentity⟩ := announced_mapStage htended policy.identityStage
  obtain ⟨issued', himage⟩ := announced_mapStage
    (tended_mapStage htended policy.identityStage) policy.imageStage
  rcases vm.build_cases policy with
    ⟨hstate, -⟩ | ⟨hapart, ⟨hstate, -⟩ | ⟨hstate, -⟩⟩
  · rw [hstate]
    exact ⟨∅, #[], .nothing vm ∅⟩
  · rw [hstate]
    exact ⟨_, issued, hidentity⟩
  · rw [hstate]
    refine ⟨_, _, hidentity.trans himage ?_⟩
    intro a ha hmem
    have hge : policy.imageVirt.toNat ≤ a.toNat := ha.1
    have hlt : a.toNat < policy.identityBytes.toNat :=
      VirtAddr.mem_window_zero.1 hmem
    omega

/-- Every request announces what it changes; a request may activate the space in
the end. -/
theorem announced_call (request : Call) :
    ∃ mid region issued, Announced vm mid region issued ∧
      ((vm.call request).state = mid ∨
        (vm.call request).state = mid.activate.state) := by
  have hquiet : ∃ mid region issued, Announced vm mid region issued ∧
      (vm = mid ∨ vm = mid.activate.state) :=
    ⟨vm, ∅, #[], .nothing vm ∅, Or.inl rfl⟩
  cases request with
  | map va pa flags =>
      obtain ⟨region, issued, hmap⟩ := announced_map htended va pa flags
      refine ⟨_, region, issued, hmap, Or.inl ?_⟩
      simp only [Manager.call]
      split <;> rfl
  | mapSized va pa size flags =>
      refine ⟨_, _, _, announced_mapSized htended va pa size flags, Or.inl ?_⟩
      exact vm.call_mapSized_state va pa size flags
  | mapRange va pa bytes size flags =>
      obtain ⟨issued, hrange⟩ :=
        announced_mapRange htended va pa bytes size flags
      exact ⟨_, _, issued, hrange,
        Or.inl (vm.call_mapRange_state va pa bytes size flags)⟩
  | unmap va =>
      obtain ⟨issued, hunmap⟩ := announced_unmap htended va
      exact ⟨_, _, issued, hunmap, Or.inl rfl⟩
  | build policy =>
      obtain ⟨region, issued, hbuild⟩ := announced_build htended policy
      refine ⟨_, region, issued, hbuild, Or.inl ?_⟩
      simp only [Manager.call]
      split <;> rfl
  | init policy =>
      obtain ⟨region, issued, hbuild⟩ := announced_build htended policy
      refine ⟨_, region, issued, hbuild, ?_⟩
      simp only [Manager.call, Manager.init]
      cases (vm.build policy).value with
      | error e => exact Or.inl rfl
      | ok _ => exact Or.inr rfl
  | activate => exact ⟨vm, ∅, #[], .nothing vm ∅, Or.inr rfl⟩
  | lookup va => exact hquiet
  | translate va => exact hquiet
  | root => exact hquiet
  | list => exact hquiet
  | panic message => exact hquiet

end Steps

/-- A manager is active once it has loaded its root, and not before. -/
theorem Reachable.active_iff (hreachable : vm.Reachable) :
    vm.active = true ↔ vm.mmu.loaded ≠ #[] := by
  induction hreachable with
  | create _ _ hmade =>
      obtain ⟨hactive, hmmu⟩ := idle_of_create hmade
      rw [hactive, hmmu]
      decide
  | @call vm hreachable request ih =>
      obtain ⟨pool, held, htended⟩ := hreachable.tended
      obtain ⟨mid, region, issued, hannounced, hstate | hstate⟩ :=
        announced_call htended request
      · rw [hstate, hannounced.active_eq, hannounced.loaded_eq]
        exact ih
      · rw [hstate]
        simp [activate]

/-- No translation of an active space goes stale.  Whatever a request answers,
every page of which an address leads elsewhere afterwards was invalidated, and
every address that was invalidated had been mapped.  Before a manager is first
activated it asks for no invalidation. -/
theorem no_stale_translation (hreachable : vm.Reachable) (request : Call) :
    ∃ issued,
      (vm.call request).state.mmu.invalidated = vm.mmu.invalidated ++ issued ∧
        (vm.active = true → ∀ a target, vm.lookup a = some target →
          (vm.call request).state.lookup a ≠ some target →
          ∃ v ∈ issued, v.page target.size = a.page target.size) ∧
        (∀ v ∈ issued, (vm.lookup v).isSome) ∧
        (vm.mmu.loaded = #[] → issued = #[]) := by
  obtain ⟨pool, held, htended⟩ := hreachable.tended
  obtain ⟨mid, region, issued, hannounced, hstate⟩ :=
    announced_call htended request
  obtain ⟨hlookup, hinvalidated⟩ : (vm.call request).state.lookup = mid.lookup ∧
      (vm.call request).state.mmu.invalidated = mid.mmu.invalidated := by
    rcases hstate with hstate | hstate <;> rw [hstate]
    · exact ⟨rfl, rfl⟩
    · exact ⟨rfl, rfl⟩
  rw [hlookup, hinvalidated]
  refine ⟨issued, hannounced.invalidated_eq, hannounced.told,
    fun v hv => (hannounced.mapped v hv).2, fun hloaded => hannounced.quiet ?_⟩
  by_contra hactive
  exact hreachable.active_iff.1 (Bool.not_eq_false _ ▸ hactive) hloaded

/-- A range of two pages, mapped in an active space over the only page that it
maps. -/
theorem no_stale_translation_oneMapped :
    ∃ vm : Manager, vm.Reachable ∧ vm.active = true ∧
      vm.lookup ⟨0x1234⟩ = some ⟨⟨0x5234⟩, .fourK, .kernelRW⟩ ∧
      ∃ issued,
        (vm.call (.mapRange ⟨0⟩ ⟨0x8000⟩ 0x2000 .fourK
              .kernelRW)).state.mmu.invalidated =
            vm.mmu.invalidated ++ issued ∧
          (∃ v ∈ issued, v.page .fourK = (⟨0x1234⟩ : VirtAddr).page .fourK) ∧
          ∀ v ∈ issued, (vm.lookup v).isSome := by
  have hreachable := reachable_oneMapped.call .activate
  have hmapped : (oneMapped.call .activate).state.lookup ⟨0x1234⟩ =
      some ⟨⟨0x5234⟩, .fourK, .kernelRW⟩ := by
    decide +kernel
  obtain ⟨issued, hinvalidated, htold, hknown, -⟩ :=
    no_stale_translation hreachable
      (.mapRange ⟨0⟩ ⟨0x8000⟩ 0x2000 .fourK .kernelRW)
  exact ⟨_, hreachable, rfl, hmapped, issued, hinvalidated,
    htold rfl ⟨0x1234⟩ _ hmapped (by decide +kernel), hknown⟩

end Manager

end FourLevelPaging
