/-
Mapping never leaves memory or its array of three.  Every node accessed lies on
the way of the address, at most three levels lie above a leaf, and the entry
above the first node added is still one of the tree when the nodes are taken out
again.
-/
import FourLevelPaging.Checked.AddressSpace
import FourLevelPaging.Proofs.AddressSpace.Map
import FourLevelPaging.Proofs.Checked.Store
import FourLevelPaging.Proofs.Tree.Open

namespace FourLevelPaging

open Checked

theorem PageSize.length_above_le (size : PageSize) : size.above.length ≤ 3 := by
  cases size <;> decide

/-- A page boundary of any size is one of the smallest size. -/
theorem Address.isAligned_fourK {space : Space} {a : Address space}
    {size : PageSize} (haligned : a.isAligned size = true) :
    a.isAligned .fourK = true := by
  rw [isAligned_iff] at haligned ⊢
  exact Nat.mod_eq_zero_of_dvd
    (Nat.dvd_trans size.fourK_dvd_bytes (Nat.dvd_of_mod_eq_zero haligned))

namespace Created

/-- The note of the nodes that were added. -/
def of (added : List Added) : Created :=
  { link := added.head?.map fun top => (top.cell.frame, top.cell.index.val)
    nodes := noted 3 .none (added.map fun step => some step.node)
    count := added.length }

theorem of_nil : of [] = none := by
  rw [of, none, List.map_nil, noted_nil]
  rfl

/-- There is room to note a third node. -/
theorem push_of {added : List Added} (hroom : added.length < 3) (top : Added) :
    (of added).push top.cell.frame top.cell.index.val top.node =
      .ok (of (added ++ [top])) := by
  have hset : setItem (of added).nodes (of added).count (some top.node) =
      .ok (of (added ++ [top])).nodes := by
    have hlength : (added.map fun step => some step.node).length =
        added.length :=
      List.length_map _
    have hnoted := setItem_noted Option.none (some top.node) (hlength ▸ hroom)
    rw [hlength] at hnoted
    rw [of, hnoted, of, List.map_append]
    rfl
  have hlink : (of added).link.or (some (top.cell.frame, top.cell.index.val)) =
      (of (added ++ [top])).link := by
    cases added <;> rfl
  have hcount : (of added).count = added.length := rfl
  rw [push, hset, ok_bind, hcount, sum_eq_ok (by omega), ok_bind, hlink,
    pure_eq_ok]
  simp only [of, List.length_append, List.length_singleton]

theorem listed_of {added : List Added} (hfits : added.length ≤ 3) :
    (of added).listed = added.map Added.node := by
  have hlength : (added.map fun step => some step.node).length = added.length :=
    List.length_map _
  have htake := take_noted Option.none (hlength ▸ hfits)
  rw [hlength] at htake
  rw [listed, of, htake, List.filterMap_map]
  simp

end Created

namespace Memory

variable {mem : Memory} {va : VirtAddr} {flags : Flags} {frame : Frame}

/-- A way down adds at most one node for each level on it. -/
theorem length_descend_le (mem : Memory) (va : VirtAddr) (flags : Flags)
    (levels : List Level) (frame : Frame) :
    (mem.descend va flags levels frame).value.2.length ≤ levels.length := by
  induction levels generalizing mem frame with
  | nil => exact Nat.le_refl 0
  | cons level below ih =>
      simp only [descend]
      split
      · exact Nat.le_succ_of_le (ih _ _)
      · exact Nat.succ_le_succ (ih _ _)
      · exact Nat.zero_le _
      · exact Nat.zero_le _

/-- A leaf that is refused its place changes nothing. -/
theorem place_of_error {pa : PhysAddr} {size : PageSize} {reason : MapError}
    (herror : (mem.place frame va pa size flags).value = .error reason) :
    (mem.place frame va pa size flags).state = mem := by
  simp only [place] at herror ⊢
  split at herror
  · next hconflict =>
      rw [if_pos hconflict]
      rfl
  · cases herror

end Memory

/-- What a refused leaf leaves is what the way down to its place leaves. -/
theorem AddressSpace.install_of_error {space : AddressSpace} {mem : Memory}
    {va : VirtAddr} {pa : PhysAddr} {size : PageSize} {flags : Flags}
    {walk : Reported Memory (Except MapError Frame × List Added)}
    {done : Reported Memory (Except MapError Mapped × List Added)}
    (hwalk : mem.descend va (parentFlags flags) size.above space.root = walk)
    (hdone : space.install mem va pa size flags = done) {reason : MapError}
    (herror : done.value.1 = .error reason) :
    done.state = walk.state ∧ done.value.2 = walk.value.2 := by
  subst hdone
  rcases walk with ⟨⟨answer, added⟩, state, events⟩
  cases answer with
  | error cause =>
      simp only [install, hwalk, and_self]
  | ok frame =>
      simp only [install, hwalk] at herror ⊢
      exact ⟨Memory.place_of_error herror, trivial⟩

namespace Forest

variable {mem : Memory} {roots : List Frame} {held : Finset Frame}
  {root : Frame} {va : VirtAddr} {flags : Flags}

/-- A step of a mapping keeps the trees, and leads to the next node on the
way. -/
theorem follow (hforest : Forest mem roots held) (hroot : root ∈ roots)
    {level below : Level} (hnext : level.next = some below) {frame : Frame}
    (hreach : mem.ram.Reach root level (level.pathTo va) frame)
    {step : Reported Memory (Except MapError Child)}
    (hstep : mem.childOrCreate level ⟨frame, level.index va⟩
      (AddressSpace.parentFlags flags) = step) :
    Forest step.state roots held ∧
      ∀ node,
        step.value = .ok (.table node) ∨ step.value = .ok (.created node) →
          step.state.ram.Reach root below (below.pathTo va) node := by
  subst hstep
  cases hchild : mem.ram.child level ⟨frame, level.index va⟩ with
  | created node => exact absurd hchild Ram.child_ne_created
  | leaf e =>
      rw [Memory.childOrCreate_of_leaf hchild]
      exact ⟨hforest, fun node h => by simp [Outcome.quiet] at h⟩
  | table node =>
      obtain ⟨hforest', hsame⟩ :=
        hforest.opened hroot hreach hchild (AddressSpace.parentFlags flags)
      rw [Memory.childOrCreate_of_table hchild]
      refine ⟨hforest', fun other h => ?_⟩
      obtain rfl : node = other := by simpa [Outcome.quiet] using h
      exact (Ram.Reach.congr_child (hsame hroot)).2 (hreach.along hnext hchild)
  | absent =>
      cases hnew : mem.newNode? with
      | none =>
          rw [Memory.childOrCreate_of_starved hnext hchild hnew]
          exact ⟨hforest, fun node h => by simp [Outcome.quiet] at h⟩
      | some taken =>
          rcases taken with ⟨node, mem'⟩
          have hfetched := Memory.fetched_of_newNode? hforest.valid hnew
          obtain ⟨hforest', -, hreach'⟩ :=
            hforest.grow hroot hreach hchild hnext hfetched (flags.has .user)
          rw [← Level.pathTo_of_next hnext] at hreach'
          rw [Memory.childOrCreate_of_created hnext hchild hnew]
          refine ⟨hforest', fun other h => ?_⟩
          obtain rfl : node = other := by simpa using h
          exact hreach'

/-- The entry above the first node that a way down adds is one of a node that
was there before. -/
theorem reach_top {level target : Level} {levels : List Level}
    (hleads : level.Leads levels target) (hforest : Forest mem roots held)
    (hroot : root ∈ roots) {frame : Frame}
    (hreach : mem.ram.Reach root level (level.pathTo va) frame)
    {done : Reported Memory (Except MapError Frame × List Added)}
    (hdone : mem.descend va (AddressSpace.parentFlags flags) levels frame =
      done)
    {top : Added} (htop : done.value.2.head? = some top) :
    ∃ upper path, mem.ram.Reach root upper path top.cell.frame := by
  subst hdone
  induction hleads generalizing frame mem with
  | here => cases htop
  | @next level below target rest hnext hrest ih =>
      cases hchild : mem.ram.child level ⟨frame, level.index va⟩ with
      | created node => exact absurd hchild Ram.child_ne_created
      | leaf e =>
          rw [Memory.descend_of_leaf hchild] at htop
          cases htop
      | table node =>
          obtain ⟨hforest', hsame⟩ :=
            hforest.opened hroot hreach hchild (AddressSpace.parentFlags flags)
          rw [Memory.descend_of_table hchild] at htop
          obtain ⟨upper, path, hupper⟩ :=
            ih hforest' ((Ram.Reach.congr_child (hsame hroot)).2
              (hreach.along hnext hchild)) htop
          exact ⟨upper, path, (Ram.Reach.congr_child (hsame hroot)).1 hupper⟩
      | absent =>
          cases hnew : mem.newNode? with
          | none =>
              rw [Memory.descend_of_starved hnext hchild hnew] at htop
              cases htop
          | some taken =>
              rw [Memory.descend_of_created hnext hchild hnew] at htop
              cases htop
              exact ⟨level, _, hreach⟩

/-- What a refused leaf leaves can be undone: the nodes added are few, and the
entry above the first of them is one of the tree. -/
theorem undoable_install (hforest : Forest mem roots held)
    {space : AddressSpace} (hroot : space.root ∈ roots) {pa : PhysAddr}
    {size : PageSize}
    {done : Reported Memory (Except MapError Mapped × List Added)}
    (hdone : space.install mem va pa size flags = done) {reason : MapError}
    (herror : done.value.1 = .error reason) :
    Forest done.state roots held ∧ done.value.2.length ≤ 3 ∧
      ∀ top, done.value.2.head? = some top →
        ∃ level path,
          done.state.ram.Reach space.root level path top.cell.frame := by
  obtain ⟨walk, hwalk⟩ :
      ∃ walk,
        mem.descend va (AddressSpace.parentFlags flags) size.above space.root =
          walk :=
    ⟨_, rfl⟩
  have hforest' : Forest walk.state roots held := by
    rw [← hwalk]
    exact (hforest.descend size.leads_above hroot .root).1.forest
  have hkept := (hforest.opens_descend size.leads_above hroot .root hwalk).1
  have hlength : walk.value.2.length ≤ size.above.length := by
    rw [← hwalk]
    exact mem.length_descend_le va _ size.above space.root
  have hsame : done.state = walk.state ∧ done.value.2 = walk.value.2 :=
    AddressSpace.install_of_error hwalk hdone herror
  rw [hsame.1, hsame.2]
  refine ⟨hforest', Nat.le_trans hlength size.length_above_le,
    fun top htop => ?_⟩
  obtain ⟨level, path, hreach⟩ :=
    hforest.reach_top size.leads_above hroot .root hwalk htop
  exact ⟨level, path, hkept.reach hroot hreach⟩

end Forest

namespace Store

variable {limit : Nat} {s : Store limit} {roots : List Frame}
  {held : Finset Frame} {root : Frame} {va : VirtAddr} {pa : PhysAddr}
  {size : PageSize} {flags : Flags}

theorem carries_descend (va : VirtAddr) (flags : Flags) {level target : Level}
    {levels : List Level} (hleads : level.Leads levels target)
    (hsound : s.Sound) (hforest : Forest s.view roots held)
    (hroot : root ∈ roots) {frame : Frame}
    (hreach : s.ram.Reach root level (level.pathTo va) frame)
    (before : List Added) (hroom : before.length + levels.length ≤ 3) :
    Carries view Sound (s.descend root va (AddressSpace.parentFlags flags)
      levels frame (.of before)) ((s.view.descend va
        (AddressSpace.parentFlags flags) levels frame).mapValue
      fun answer => (answer.1, .of (before ++ answer.2))) := by
  induction hleads generalizing frame s before with
  | here =>
      refine ⟨_, rfl, hsound, ?_⟩
      simp [Memory.descend, Outcome.mapState, Outcome.mapValue, Outcome.quiet]
  | @next level below target rest hnext hrest ih =>
      rw [List.length_cons] at hroom
      rw [descend, Level.rawIndex_eq]
      refine (carries_follow hsound hforest hroot hreach (level.index va)
        (AddressSpace.parentFlags flags)).bind fun step hsound' hstep => ?_
      obtain ⟨hforest', hreach'⟩ := hforest.follow hroot hnext hreach hstep.symm
      simp only [Memory.descend, ← hstep]
      rcases step with ⟨answer | child, s', events⟩
      · refine ⟨_, rfl, hsound', ?_⟩
        simp [Outcome.mapState, Outcome.mapValue]
      · cases child with
        | table node =>
            refine (ih hsound' hforest' (hreach' node (Or.inl rfl)) before
              (by omega)).bind fun rest hsound'' hrest => ⟨_, rfl, hsound'', ?_⟩
            simp only [Outcome.mapState, Outcome.mapValue, Outcome.mk.injEq]
              at hrest ⊢
            exact ⟨hrest.1, hrest.2.1, congrArg (events ++ ·) hrest.2.2⟩
        | created node =>
            dsimp only
            rw [Created.push_of (by omega) ⟨⟨frame, level.index va⟩, node⟩,
              ok_bind]
            refine (ih hsound' hforest' (hreach' node (Or.inr rfl)) _ ?_).bind
              fun rest hsound'' hrest => ⟨_, rfl, hsound'', ?_⟩
            · rw [List.length_append, List.length_singleton]
              omega
            · simp only [Outcome.mapState, Outcome.mapValue, Outcome.mk.injEq]
                at hrest ⊢
              rw [List.append_assoc] at hrest
              exact ⟨hrest.1, hrest.2.1, congrArg (events ++ ·) hrest.2.2⟩
        | leaf e =>
            refine ⟨_, rfl, hsound', ?_⟩
            simp [Outcome.mapState, Outcome.mapValue]
        | absent =>
            refine ⟨_, rfl, hsound', ?_⟩
            simp [Outcome.mapState, Outcome.mapValue]

theorem carries_place (hsound : s.Sound) (hforest : Forest s.view roots held)
    (hroot : root ∈ roots) {level : Level} {path : List Index} {frame : Frame}
    (hreach : s.ram.Reach root level path frame) (va : VirtAddr)
    (hpa : pa.isAligned size = true) (flags : Flags) :
    Carries view Sound (s.place root frame va pa size flags)
      (s.view.place frame va pa size flags) := by
  rw [place, access_eq_ok hforest hroot hreach, ok_bind, Level.rawIndex_eq,
    get_eq_ok, ok_bind, Memory.place]
  split
  · exact ⟨_, rfl, hsound, rfl⟩
  · rw [Entry.checkedLeaf_eq_ok (Address.isAligned_fourK hpa), ok_bind,
      put_eq_ok]
    exact ⟨_, rfl, hsound, rfl⟩

theorem carries_rollBack (hsound : s.Sound) (hforest : Forest s.view roots held)
    (hroot : root ∈ roots) {added : List Added} (hfits : added.length ≤ 3)
    (hreach : ∀ top, added.head? = some top →
      ∃ level path, s.ram.Reach root level path top.cell.frame) :
    Carries view Sound (s.rollBack root (.of added))
      (s.view.rollBack added) := by
  cases added with
  | nil => exact ⟨_, rfl, hsound, rfl⟩
  | cons top rest =>
      obtain ⟨level, path, htop⟩ := hreach top rfl
      have hlink : (Created.of (top :: rest)).link =
          some (top.cell.frame, top.cell.index.val) :=
        rfl
      simp only [rollBack, hlink]
      rw [access_eq_ok hforest hroot htop, ok_bind, put_eq_ok, ok_bind,
        Created.listed_of hfits]
      have hgiven : Carries view Sound
          (giveBackAll ((top :: rest).map Added.node)
            { s with ram := s.ram.write top.cell.frame top.cell.index .empty })
          (Memory.giveBackAll ((top :: rest).map Added.node)
            (s.view.clear top.cell.frame top.cell.index)) :=
        carries_giveBackAll (s :=
            { s with ram := s.ram.write top.cell.frame top.cell.index .empty })
          hsound hforest.valid _
      refine hgiven.bind fun freed hsound' hfreed => ⟨_, rfl, hsound', ?_⟩
      simp only [Memory.rollBack, ← hfreed]
      rfl

theorem carries_install (hsound : s.Sound) (hforest : Forest s.view roots held)
    {space : AddressSpace} (hroot : space.root ∈ roots) (va : VirtAddr)
    (hpa : pa.isAligned size = true) (flags : Flags) :
    Carries view Sound (s.install space.root va pa size flags)
      ((space.install s.view va pa size flags).mapValue
        fun answer => (answer.1, .of answer.2)) := by
  have hfits : ([] : List Added).length + size.above.length ≤ 3 := by
    rw [List.length_nil, Nat.zero_add]
    exact size.length_above_le
  have hwalk : Forest.Kept s.view roots held (s.view.descend va
      (AddressSpace.parentFlags flags) size.above space.root) ∧ _ :=
    hforest.descend size.leads_above hroot .root
  rw [install, ← Created.of_nil]
  refine (carries_descend va flags size.leads_above hsound hforest hroot .root
    [] hfits).bind fun walk hsound' hout => ?_
  rw [AddressSpace.install]
  generalize s.view.descend va (AddressSpace.parentFlags flags) size.above
    space.root = done at *
  rcases done with ⟨⟨answer, added⟩, mem, events⟩
  obtain ⟨hvalue, rfl, rfl⟩ := Outcome.mk.inj hout
  rw [hvalue]
  cases answer with
  | error reason => exact ⟨_, rfl, hsound', rfl⟩
  | ok frame =>
      refine (carries_place hsound' hwalk.1.forest hroot (hwalk.2 frame rfl) va
        hpa flags).bind fun leaf hsound'' hleaf => ⟨_, rfl, hsound'', ?_⟩
      simp only [← hleaf]
      rfl

theorem carries_mapSized (hsound : s.Sound) (hforest : Forest s.view roots held)
    {space : AddressSpace} (hroot : space.root ∈ roots) (va : VirtAddr)
    (pa : PhysAddr) (size : PageSize) (flags : Flags) :
    Carries view Sound (s.mapSized space.root va pa size flags)
      (space.mapSized s.view va pa size flags) := by
  rw [mapSized, AddressSpace.mapSized]
  split
  · exact ⟨_, rfl, hsound, rfl⟩
  · split
    · exact ⟨_, rfl, hsound, rfl⟩
    · next haligned =>
        rw [Bool.not_eq_true', Bool.not_eq_false, Bool.and_eq_true] at haligned
        refine (carries_install hsound hforest hroot va haligned.2 flags).bind
          fun done hsound' hdone => ?_
        obtain ⟨⟨⟨answer, added⟩, mem, events⟩, hinstall⟩ :
            ∃ installed, space.install s.view va pa size flags = installed :=
          ⟨_, rfl⟩
        rw [hinstall] at hdone ⊢
        obtain ⟨hvalue, rfl, rfl⟩ := Outcome.mk.inj hdone
        rw [hvalue]
        cases answer with
        | ok mapped => exact ⟨_, rfl, hsound', rfl⟩
        | error reason =>
            obtain ⟨hforest', hfits, htop⟩ :=
              hforest.undoable_install hroot hinstall rfl
            refine (carries_rollBack hsound' hforest' hroot hfits htop).bind
              fun undone hsound'' hundone => ⟨_, rfl, hsound'', ?_⟩
            simp only [← hundone]
            rfl

theorem carries_map (hsound : s.Sound) (hforest : Forest s.view roots held)
    {space : AddressSpace} (hroot : space.root ∈ roots) (va : VirtAddr)
    (pa : PhysAddr) (flags : Flags) :
    Carries view Sound (s.map space.root va pa flags)
      (space.map s.view va pa flags) := by
  refine (carries_mapSized hsound hforest hroot va pa _ flags).bind
    fun done hsound' hdone => ?_
  rw [AddressSpace.map, ← hdone]
  split
  · exact ⟨_, rfl, hsound', rfl⟩
  · exact ⟨_, rfl, hsound', rfl⟩

end Store

end FourLevelPaging
