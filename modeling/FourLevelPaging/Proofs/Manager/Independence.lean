/-
Requests for pages that lie apart.  Which of them adds a node that they share,
and in which frame, depends on their order.  Whether all of them are carried out
does not, nor does what is mapped then: the frames suffice in one order if they
do in another, since what is mapped in the end decides how many there have to
be.
-/
import FourLevelPaging.Proofs.AddressSpace.Visible
import FourLevelPaging.Proofs.Manager.Demand

namespace FourLevelPaging

/-- A page of a given size, and where it is to lead. -/
structure PageRequest where
  va : VirtAddr
  pa : PhysAddr
  size : PageSize
  flags : Flags

/-- The addresses of the page. -/
def PageRequest.window (page : PageRequest) : Set VirtAddr :=
  page.va.window page.size.bytes

/-- The two pages have no address in common. -/
def PageRequest.Apart (page other : PageRequest) : Prop :=
  Disjoint page.window other.window

theorem PageRequest.Apart.symm {page other : PageRequest}
    (hapart : page.Apart other) : other.Apart page :=
  Disjoint.symm hapart

theorem PageRequest.va_mem_window (page : PageRequest) :
    page.va ∈ page.window :=
  ⟨Nat.le_refl _, Nat.lt_add_of_pos_right page.size.bytes_pos⟩

namespace Manager

/-- Maps the page that is asked for. -/
def grant (vm : Manager) (page : PageRequest) :
    Reported Manager (Except ManagerError Mapped) :=
  vm.mapSized page.va page.pa page.size page.flags

/-- The request for the page is carried out. -/
def Grants (vm : Manager) (page : PageRequest) : Prop :=
  ∃ mapped, (vm.grant page).value = .ok mapped

/-- Requests for the pages, one after another, are all carried out. -/
def GrantsAll (vm : Manager) (pages : List PageRequest) : Prop :=
  ∀ done ∈ Outcome.history grant vm pages, ∃ mapped, done.value = .ok mapped

/-- What requests for the pages, one after another, lead to. -/
def afterGrants (vm : Manager) (pages : List PageRequest) : Manager :=
  Outcome.after grant vm pages

theorem grantsAll_cons {vm : Manager} {page : PageRequest}
    {pages : List PageRequest} :
    vm.GrantsAll (page :: pages) ↔
      vm.Grants page ∧ (vm.grant page).state.GrantsAll pages :=
  List.forall_mem_cons

variable {pool : FramePool} {held : Finset Frame} {vm vm' : Manager}
  {page other : PageRequest} {pages pages' : List PageRequest}

/-- Whether anything is in the way of a page depends on what is mapped inside it
only. -/
theorem blocked_of_agree
    (hagree : ∀ a ∈ page.window, vm.lookup a = vm'.lookup a) {level : Level}
    (hblocked : vm.space.Blocked vm.memory.ram page.va page.size level) :
    vm'.space.Blocked vm'.memory.ram page.va page.size level := by
  obtain ⟨a, target, ha, hlookup, hsize⟩ := hblocked
  exact ⟨a, target, ha, (hagree a ha).symm.trans hlookup, hsize⟩

section Tended

variable (htended : vm.Tended pool held)

include htended

theorem tended_grant (page : PageRequest) :
    (vm.grant page).state.Tended pool held :=
  tended_mapSized htended page.va page.pa page.size page.flags

/-- Outside a page that is mapped nothing changes. -/
theorem lookup_grant_outside (hgrants : vm.Grants page) {a : VirtAddr}
    (ha : a ∉ page.window) :
    (vm.grant page).state.lookup a = vm.lookup a := by
  obtain ⟨_, hok⟩ := hgrants
  exact (installs_of_forest htended.forest hok).outside a ha

theorem mem_demand_grant (hgrants : vm.Grants page) {a : VirtAddr}
    (ha : a ∈ page.window) :
    (a, page.size) ∈ (vm.grant page).state.demand := by
  obtain ⟨_, hok⟩ := hgrants
  exact ⟨_, (installs_of_forest htended.forest hok).inside a ha.1 ha.2, rfl⟩

/-- A page that is mapped takes no other's place but that of a page of its own
size. -/
theorem demand_subset_grant (hgrants : vm.Grants page) :
    vm.demand ⊆ (vm.grant page).state.demand := by
  rintro ⟨a, _⟩ ⟨target, hlookup, rfl⟩
  by_cases ha : a ∈ page.window
  · have hsame : target.size = page.size := by
      by_contra hne
      obtain ⟨-, hfree, -⟩ := (mapSized_eq_ok_iff htended).1 hgrants
      exact hfree _ ⟨a, target, ha, hlookup, hne, rfl⟩
    rw [hsame]
    exact mem_demand_grant htended hgrants ha
  · exact ⟨target, (lookup_grant_outside htended hgrants ha).trans hlookup, rfl⟩

/-- A page that nothing is in the way of is mapped, if a tree over the same pool
maps it together with all that is mapped already. -/
theorem grants_of_room (htended' : vm'.Tended pool held)
    (hcanonical : page.va.isCanonical = true)
    (haligned : page.va.isAligned page.size = true ∧
      page.pa.isAligned page.size = true)
    (hfree : ∀ level, ¬vm.space.Blocked vm.memory.ram page.va page.size level)
    (hdemand : vm.demand ⊆ vm'.demand)
    (hpage : (page.va, page.size) ∈ vm'.demand) : vm.Grants page := by
  have hnodes := tableFrames_add_missing_le htended hdemand hpage hcanonical
  rw [nodes_demand htended'] at hnodes
  have hcount := freeCount_eq htended
  have hcount' := freeCount_eq htended'
  have hallocated := allocatedCount_eq htended
  have hallocated' := allocatedCount_eq htended'
  exact (mapSized_eq_ok_iff htended).2 ⟨⟨hcanonical, haligned⟩, hfree, by omega⟩

end Tended

/-- Two trees over the same pool, beside the same frames of others, map the
same. -/
structure MapAlike (pool : FramePool) (held : Finset Frame) (vm vm' : Manager) :
    Prop where
  tended : vm.Tended pool held
  tended' : vm'.Tended pool held
  lookup_eq : vm'.lookup = vm.lookup

namespace MapAlike

variable {mid : Manager}

theorem refl (htended : vm.Tended pool held) : MapAlike pool held vm vm :=
  ⟨htended, htended, rfl⟩

theorem trans (halike : MapAlike pool held vm mid)
    (halike' : MapAlike pool held mid vm') :
    MapAlike pool held vm vm' :=
  ⟨halike.tended, halike'.tended', halike'.lookup_eq.trans halike.lookup_eq⟩

/-- They have as many nodes then, and leave as many frames. -/
theorem unchanged (halike : MapAlike pool held vm vm') : vm.Unchanged vm' := by
  have hnodes :=
    tableFrames_congr halike.tended halike.tended' halike.lookup_eq.symm
  have hallocated := allocatedCount_eq halike.tended
  have hallocated' := allocatedCount_eq halike.tended'
  have hcount := freeCount_eq halike.tended
  have hcount' := freeCount_eq halike.tended'
  exact ⟨halike.lookup_eq, hnodes.symm, by omega, by omega⟩

/-- A page that the one tree takes is taken by the other. -/
theorem grant (halike : MapAlike pool held vm vm') (hgrants : vm.Grants page) :
    vm'.Grants page ∧
      MapAlike pool held (vm.grant page).state (vm'.grant page).state := by
  obtain ⟨⟨hcanonical, haligned⟩, hfree, -⟩ :=
    (mapSized_eq_ok_iff halike.tended).1 hgrants
  have hsame : vm'.demand = vm.demand := by
    rw [demand, demand, halike.lookup_eq]
  have hgrants' : vm'.Grants page := by
    refine grants_of_room halike.tended' (tended_grant halike.tended page)
      hcanonical haligned (fun level hblocked => hfree level ?_) ?_ ?_
    · exact blocked_of_agree (fun a _ => congrFun halike.lookup_eq a) hblocked
    · rw [hsame]
      exact demand_subset_grant halike.tended hgrants
    · exact mem_demand_grant halike.tended hgrants page.va_mem_window
  refine ⟨hgrants', tended_grant halike.tended page,
    tended_grant halike.tended' page, ?_⟩
  obtain ⟨_, hok⟩ := hgrants
  obtain ⟨_, hok'⟩ := hgrants'
  have hinstalls := installs_of_forest halike.tended.forest hok
  have hinstalls' := installs_of_forest halike.tended'.forest hok'
  rw [halike.lookup_eq] at hinstalls'
  exact (hinstalls.unique hinstalls').2.symm

theorem grantsAll (halike : MapAlike pool held vm vm')
    (hall : vm.GrantsAll pages) :
    vm'.GrantsAll pages ∧
      MapAlike pool held (vm.afterGrants pages) (vm'.afterGrants pages) := by
  induction pages generalizing vm vm' with
  | nil => exact ⟨hall, halike⟩
  | cons page rest ih =>
      obtain ⟨hfirst, hrest⟩ := grantsAll_cons.1 hall
      obtain ⟨hfirst', hstep⟩ := halike.grant hfirst
      obtain ⟨hrest', hafter⟩ := ih hstep hrest
      exact ⟨grantsAll_cons.2 ⟨hfirst', hrest'⟩, hafter⟩

end MapAlike

section Swap

variable (htended : vm.Tended pool held) (hapart : page.Apart other)
  (hfirst : vm.Grants page) (hsecond : (vm.grant page).state.Grants other)

include htended hapart hfirst hsecond

/-- The later of two pages that lie apart is mapped without the earlier one as
well. -/
theorem grants_later : vm.Grants other := by
  have htended₁ := tended_grant htended page
  have htended₂ := tended_grant htended₁ other
  obtain ⟨⟨hcanonical, haligned⟩, hfree, -⟩ :=
    (mapSized_eq_ok_iff htended₁).1 hsecond
  refine grants_of_room htended htended₂ hcanonical haligned
    (fun level hblocked => hfree level ?_) ?_ ?_
  · refine blocked_of_agree (fun a ha => ?_) hblocked
    exact (lookup_grant_outside htended hfirst fun h =>
      Set.disjoint_left.1 hapart h ha).symm
  · exact (demand_subset_grant htended hfirst).trans
      (demand_subset_grant htended₁ hsecond)
  · exact mem_demand_grant htended₁ hsecond other.va_mem_window

/-- Then the earlier one is mapped beside it. -/
theorem grants_earlier : (vm.grant other).state.Grants page := by
  have hother := grants_later htended hapart hfirst hsecond
  have htended₁ := tended_grant htended page
  have htended₂ := tended_grant htended₁ other
  have hkeeps := demand_subset_grant htended₁ hsecond
  obtain ⟨⟨hcanonical, haligned⟩, hfree, -⟩ :=
    (mapSized_eq_ok_iff htended).1 hfirst
  refine grants_of_room (tended_grant htended other) htended₂ hcanonical
    haligned (fun level hblocked => hfree level ?_) ?_ ?_
  · refine blocked_of_agree (fun a ha => ?_) hblocked
    exact lookup_grant_outside htended hother (Set.disjoint_left.1 hapart ha)
  · rintro ⟨a, size⟩ ⟨target, hlookup, rfl⟩
    by_cases ha : a ∈ other.window
    · obtain ⟨_, hok⟩ := hother
      rw [grant, (installs_of_forest htended.forest hok).inside a ha.1 ha.2]
        at hlookup
      cases hlookup
      exact mem_demand_grant htended₁ hsecond ha
    · rw [lookup_grant_outside htended hother ha] at hlookup
      exact hkeeps (demand_subset_grant htended hfirst ⟨target, hlookup, rfl⟩)
  · exact hkeeps (mem_demand_grant htended hfirst page.va_mem_window)

/-- Two pages that lie apart can be mapped in either order. -/
theorem grants_swap :
    vm.Grants other ∧ (vm.grant other).state.Grants page ∧
      MapAlike pool held ((vm.grant page).state.grant other).state
        ((vm.grant other).state.grant page).state := by
  have hother := grants_later htended hapart hfirst hsecond
  have hpage := grants_earlier htended hapart hfirst hsecond
  have htended₁ := tended_grant htended page
  have htended₁' := tended_grant htended other
  refine ⟨hother, hpage, tended_grant htended₁ other,
    tended_grant htended₁' page, ?_⟩
  funext a
  by_cases ha : a ∈ page.window
  · have hnot : a ∉ other.window := Set.disjoint_left.1 hapart ha
    rw [lookup_grant_outside htended₁ hsecond hnot]
    obtain ⟨_, hok⟩ := hfirst
    obtain ⟨_, hok'⟩ := hpage
    exact ((installs_of_forest htended₁'.forest hok').inside a ha.1 ha.2).trans
      ((installs_of_forest htended.forest hok).inside a ha.1 ha.2).symm
  · rw [lookup_grant_outside htended₁' hpage ha]
    by_cases hmem : a ∈ other.window
    · obtain ⟨_, hok⟩ := hother
      obtain ⟨_, hok'⟩ := hsecond
      exact ((installs_of_forest htended.forest hok).inside a
          hmem.1 hmem.2).trans
        ((installs_of_forest htended₁.forest hok').inside a hmem.1 hmem.2).symm
    · rw [lookup_grant_outside htended hother hmem,
        lookup_grant_outside htended₁ hsecond hmem,
        lookup_grant_outside htended hfirst ha]

end Swap

/-- Pages that lie apart can be mapped in any order if they can be in one. -/
theorem grantsAll_of_perm (hperm : pages.Perm pages')
    (hapart : pages.Pairwise PageRequest.Apart)
    (halike : MapAlike pool held vm vm') (hall : vm.GrantsAll pages) :
    vm'.GrantsAll pages' ∧
      MapAlike pool held (vm.afterGrants pages) (vm'.afterGrants pages') := by
  induction hperm generalizing vm vm' with
  | nil => exact ⟨hall, halike⟩
  | cons page _ ih =>
      obtain ⟨hfirst, hrest⟩ := grantsAll_cons.1 hall
      obtain ⟨hfirst', hstep⟩ := halike.grant hfirst
      obtain ⟨hrest', hafter⟩ := ih (List.pairwise_cons.1 hapart).2 hstep hrest
      exact ⟨grantsAll_cons.2 ⟨hfirst', hrest'⟩, hafter⟩
  | swap page other rest =>
      obtain ⟨hsecond', hall'⟩ := halike.grantsAll hall
      obtain ⟨hfirst, hothers⟩ := grantsAll_cons.1 hsecond'
      obtain ⟨hsecond, hrest⟩ := grantsAll_cons.1 hothers
      have htwo : other.Apart page :=
        (List.pairwise_cons.1 hapart).1 page List.mem_cons_self
      obtain ⟨hpage, hother, hswapped⟩ :=
        grants_swap halike.tended' htwo hfirst hsecond
      obtain ⟨hrest', hafter⟩ := hswapped.grantsAll hrest
      exact ⟨grantsAll_cons.2 ⟨hpage, grantsAll_cons.2 ⟨hother, hrest'⟩⟩,
        hall'.trans hafter⟩
  | trans hfirst _ ih ih' =>
      obtain ⟨hmid, hafter⟩ := ih hapart (.refl halike.tended) hall
      have hapart' := (hfirst.pairwise_iff PageRequest.Apart.symm).1 hapart
      obtain ⟨hend, hafter'⟩ := ih' hapart' halike hmid
      exact ⟨hend, hafter.trans hafter'⟩

/-- Pages that lie apart are all mapped in one order exactly if they are in
another, and then the two orders leave the same mapped, as many nodes and as
many frames. -/
theorem independent_maps_commute (hreachable : vm.Reachable)
    (hperm : pages.Perm pages') (hapart : pages.Pairwise PageRequest.Apart) :
    (vm.GrantsAll pages ↔ vm.GrantsAll pages') ∧
      (vm.GrantsAll pages →
        (vm.afterGrants pages).Unchanged (vm.afterGrants pages')) := by
  obtain ⟨pool, held, htended⟩ := hreachable.tended
  have hapart' := (hperm.pairwise_iff PageRequest.Apart.symm).1 hapart
  refine ⟨⟨fun hall => ?_, fun hall => ?_⟩, fun hall => ?_⟩
  · exact (grantsAll_of_perm hperm hapart (.refl htended) hall).1
  · exact (grantsAll_of_perm hperm.symm hapart' (.refl htended) hall).1
  · exact (grantsAll_of_perm hperm hapart (.refl htended) hall).2.unchanged

/-- Two pages of different sizes that share two nodes: alone, the small one
takes three frames and the huge one two. -/
theorem independent_maps_commute_small :
    let page : PageRequest := ⟨⟨0x1000⟩, ⟨0x5000⟩, .fourK, .kernelRW⟩
    let huge : PageRequest := ⟨⟨0x200000⟩, ⟨0x600000⟩, .twoM, .kernelRWHuge⟩
    (small.grant page).state.memory.pool.next = 4 ∧
      (small.grant huge).state.memory.pool.next = 3 ∧
      small.GrantsAll [page, huge] ∧ small.GrantsAll [huge, page] ∧
      (small.afterGrants [page, huge]).Unchanged
        (small.afterGrants [huge, page]) := by
  intro page huge
  have hapart : page.Apart huge := by
    refine Set.disjoint_left.2 fun a ha ha' => ?_
    have hlt : a.toNat < 0x1000 + 0x1000 := ha.2
    have hge : 0x200000 ≤ a.toNat := ha'.1
    omega
  have hall : small.GrantsAll [page, huge] := by
    have hpage : (small.grant page).value = .ok ⟨.fourK, none⟩ := by
      decide +kernel
    have hhuge : ((small.grant page).state.grant huge).value =
        .ok ⟨.twoM, none⟩ := by
      decide +kernel
    exact grantsAll_cons.2 ⟨⟨_, hpage⟩,
      grantsAll_cons.2 ⟨⟨_, hhuge⟩, fun _ h => nomatch h⟩⟩
  obtain ⟨hiff, hunchanged⟩ := independent_maps_commute reachable_small
    (List.Perm.swap huge page []) (List.pairwise_pair.2 hapart)
  exact ⟨by decide +kernel, by decide +kernel, hall, hiff.1 hall,
    hunchanged hall⟩

end Manager

end FourLevelPaging
