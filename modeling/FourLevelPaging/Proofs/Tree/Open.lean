/-
Ways that are open to user code.  User code gets to a leaf only if every link on
the way to it carries the user bit.  Links gain the bit and never lose it, and
what takes nodes away leaves nothing behind that could be reached through them.
-/
import FourLevelPaging.AddressSpace.Unmap
import FourLevelPaging.Proofs.Tree.Descend

namespace FourLevelPaging

namespace Ram

variable {ram ram' ram'' : Ram} {roots : List Frame} {root : Frame}
  {va : VirtAddr}

/-- The way of `va` leads to the node of the given level in `frame`, and every
link on it is open to user code. -/
inductive OpenTo (ram : Ram) (root : Frame) (va : VirtAddr) :
    Level → Frame → Prop
  | root : OpenTo ram root va .pml4 root
  | step {level below : Level} {frame node : Frame}
      (hopen : OpenTo ram root va level frame) (hnext : level.next = some below)
      (hchild : ram.child level ⟨frame, level.index va⟩ = .table node)
      (huser : (ram.read frame (level.index va)).has .user = true) :
      OpenTo ram root va below node

/-- Every leaf for user code is one that user code gets to. -/
def UserOpen (roots : List Frame) (ram : Ram) : Prop :=
  ∀ root ∈ roots, ∀ va level frame e, ram.LeafAt root va level frame e →
    e.has .user = true → ram.OpenTo root va level frame

/-- Every link of the trees is still there, and open to user code if it was. -/
def KeepsLinks (roots : List Frame) (ram ram' : Ram) : Prop :=
  ∀ root ∈ roots, ∀ level path frame, ram.Reach root level path frame →
    ∀ i node, ram.child level ⟨frame, i⟩ = .table node →
      ram'.child level ⟨frame, i⟩ = .table node ∧
        ((ram.read frame i).has .user = true →
          (ram'.read frame i).has .user = true)

/-- Entries were emptied, and nothing else was written. -/
def Clears (ram ram' : Ram) : Prop :=
  ∀ frame i, ram'.read frame i = ram.read frame i ∨ ram'.read frame i = .empty

theorem OpenTo.reach {level : Level} {frame : Frame}
    (h : ram.OpenTo root va level frame) :
    ram.Reach root level (level.pathTo va) frame := by
  induction h with
  | root => exact .root
  | step _ hnext hchild _ ih => exact ih.along hnext hchild

/-- Addresses that go the same way find the same links on it. -/
theorem OpenTo.congr {level : Level} {frame : Frame}
    (h : ram.OpenTo root va level frame) {a : VirtAddr}
    (hpath : level.pathTo a = level.pathTo va) :
    ram.OpenTo root a level frame := by
  induction h with
  | root => exact .root
  | step _ hnext hchild huser ih =>
      rw [Level.pathTo_of_next hnext, Level.pathTo_of_next hnext] at hpath
      obtain ⟨hindex, hpath⟩ := List.cons.inj hpath
      rw [← hindex] at hchild huser
      exact .step (ih hpath) hnext hchild huser

/-- All places that a walk passes on an open way hold open links. -/
theorem OpenTo.user_of_mem {level : Level} {frame : Frame} {cells : List Cell}
    (h : ram.OpenTo root va level frame)
    (htrail : ram.Trail root va level cells) {cell : Cell}
    (hmem : cell ∈ cells) :
    (ram.read cell.frame cell.index).has .user = true := by
  induction htrail generalizing frame with
  | root => cases hmem
  | @step upper below cells node _ hreach hnext ih =>
      cases h with
      | root => cases upper <;> cases hnext
      | @step upper' _ node' _ hopen hnext' _ huser =>
          obtain rfl : upper = upper' := Level.height_inj (by
            have hheight := Level.height_of_next hnext
            have hheight' := Level.height_of_next hnext'
            omega)
          rcases List.mem_cons.1 hmem with rfl | hmem
          · rw [hopen.reach.frame_eq hreach]
            exact huser
          · exact ih hopen hmem

namespace KeepsLinks

theorem refl (roots : List Frame) (ram : Ram) : KeepsLinks roots ram ram :=
  fun _ _ _ _ _ _ _ _ hchild => ⟨hchild, id⟩

theorem reach (h : KeepsLinks roots ram ram') (hroot : root ∈ roots)
    {level : Level} {path : List Index} {frame : Frame}
    (hreach : ram.Reach root level path frame) :
    ram'.Reach root level path frame := by
  induction hreach with
  | root => exact .root
  | step hreach hnext hchild ih =>
      exact .step ih hnext (h root hroot _ _ _ hreach _ _ hchild).1

theorem trans (h : KeepsLinks roots ram ram')
    (h' : KeepsLinks roots ram' ram'') :
    KeepsLinks roots ram ram'' := by
  intro root hroot level path frame hreach i node hchild
  obtain ⟨hchild', huser⟩ := h root hroot level path frame hreach i node hchild
  obtain ⟨hchild'', huser'⟩ :=
    h' root hroot level path frame (h.reach hroot hreach) i node hchild'
  exact ⟨hchild'', fun hold => huser' (huser hold)⟩

theorem openTo (h : KeepsLinks roots ram ram') (hroot : root ∈ roots)
    {level : Level} {frame : Frame} (hopen : ram.OpenTo root va level frame) :
    ram'.OpenTo root va level frame := by
  induction hopen with
  | root => exact .root
  | step hopen hnext hchild huser ih =>
      obtain ⟨hchild', huser'⟩ := h root hroot _ _ _ hopen.reach _ _ hchild
      exact .step ih hnext hchild' (huser' huser)

/-- Where no leaf is new, none is out of reach. -/
theorem userOpen (h : KeepsLinks roots ram ram')
    (hleaves : SameLeaves roots ram ram') (hopen : UserOpen roots ram) :
    UserOpen roots ram' := by
  intro root hroot va level frame e hleaf huser
  exact h.openTo hroot (hopen root hroot va level frame e
    ((hleaves root hroot va level frame e).1 hleaf) huser)

end KeepsLinks

namespace Clears

theorem refl (ram : Ram) : Clears ram ram := fun _ _ => Or.inl rfl

theorem trans (h : Clears ram ram') (h' : Clears ram' ram'') :
    Clears ram ram'' := by
  intro frame i
  rcases h' frame i with heq | hempty
  · rw [heq]
    exact h frame i
  · exact Or.inr hempty

theorem clear (ram : Ram) (frame : Frame) (i : Index) :
    Clears ram (ram.clear frame i) := by
  intro other j
  rw [Ram.clear, read_write]
  split
  · exact Or.inr rfl
  · exact Or.inl rfl

/-- What an entry leads to now it led to before. -/
theorem read_eq (h : Clears ram ram') {level : Level} {frame : Frame}
    {i : Index} (hchild : ram'.child level ⟨frame, i⟩ ≠ .absent) :
    ram'.read frame i = ram.read frame i := by
  rcases h frame i with heq | hempty
  · exact heq
  · refine absurd (child_of_not_present ?_) hchild
    rw [hempty, Entry.present_empty]

theorem child_eq (h : Clears ram ram') {level : Level} {frame : Frame}
    {i : Index} (hchild : ram'.child level ⟨frame, i⟩ ≠ .absent) :
    ram'.child level ⟨frame, i⟩ = ram.child level ⟨frame, i⟩ :=
  child_congr (h.read_eq hchild)

theorem reach (h : Clears ram ram') {level : Level} {path : List Index}
    {frame : Frame} (hreach : ram'.Reach root level path frame) :
    ram.Reach root level path frame := by
  induction hreach with
  | root => exact .root
  | step _ hnext hchild ih =>
      refine .step ih hnext ((h.child_eq ?_).symm.trans hchild)
      rw [hchild]
      exact Child.noConfusion

theorem leafAt (h : Clears ram ram') {level : Level} {frame : Frame} {e : Entry}
    (hleaf : ram'.LeafAt root va level frame e) :
    ram.LeafAt root va level frame e := by
  refine ⟨h.reach hleaf.reach, (h.child_eq ?_).symm.trans hleaf.child⟩
  rw [hleaf.child]
  exact Child.noConfusion

/-- A way that is still there is as open as it was. -/
theorem openTo (h : Clears ram ram') {level : Level} {frame : Frame}
    (hopen : ram.OpenTo root va level frame)
    (hreach : ram'.Reach root level (level.pathTo va) frame) :
    ram'.OpenTo root va level frame := by
  induction hopen with
  | root => exact .root
  | @step level below frame node hopen hnext hchild huser ih =>
      rw [Level.pathTo_of_next hnext] at hreach
      cases hreach with
      | step hupper _ hchild' =>
          obtain rfl := hopen.reach.level_eq hupper
          obtain rfl := hopen.reach.frame_eq (h.reach hupper)
          refine .step (ih hupper) hnext hchild' ?_
          rw [h.read_eq (by rw [hchild']; exact Child.noConfusion)]
          exact huser

theorem userOpen (h : Clears ram ram') (hopen : UserOpen roots ram) :
    UserOpen roots ram' := by
  intro root hroot va level frame e hleaf huser
  exact h.openTo (hopen root hroot va level frame e (h.leafAt hleaf) huser)
    hleaf.reach

end Clears

end Ram

/-- Taking out empty nodes empties the entries that led to them. -/
theorem Memory.clears_reclaim (cells : List Cell) (mem : Memory) :
    Ram.Clears mem.ram (mem.reclaim cells).state.ram := by
  induction cells generalizing mem with
  | nil => exact .refl mem.ram
  | cons cell rest ih =>
      cases rest with
      | nil => exact .refl mem.ram
      | cons parent rest =>
          rw [reclaim]
          split
          · exact (Ram.Clears.clear mem.ram parent.frame parent.index).trans
              (ih _)
          · exact .refl mem.ram

theorem Entry.has_table {x : Field} (hpresent : x ≠ .present)
    (hhuge : x ≠ .huge) (node : Frame) (flags : Flags) :
    (table node flags).has x = flags.has x := by
  rw [table, has_leaf_of_ne _ _ hpresent]
  exact Field.isSet_put_of_ne hhuge _ _

namespace Forest

variable {mem mem' : Memory} {roots : List Frame} {held : Finset Frame}
  {root : Frame} {va : VirtAddr} {flags : Flags}

/-- A change that leaves the links as they are, but for some that it opens. -/
theorem keepsLinks (hforest : Forest mem roots held)
    (hread : ∀ {root level path frame}, root ∈ roots →
      mem.ram.Reach root level path frame → ∀ i node,
        mem.ram.child level ⟨frame, i⟩ = .table node →
          mem'.read frame i = mem.read frame i ∨
            mem'.read frame i = (mem.read frame i).put .user true) :
    Ram.KeepsLinks roots mem.ram mem'.ram := by
  intro root hroot level path frame hreach i node hchild
  rcases hread hroot hreach i node hchild with heq | heq
  · have hsame : mem'.ram.child level ⟨frame, i⟩ =
        mem.ram.child level ⟨frame, i⟩ :=
      Ram.child_congr heq
    exact ⟨hsame.trans hchild,
      fun huser => (congrArg (·.has .user) heq).trans huser⟩
  · refine ⟨(hforest.child_of_opened hroot hreach hchild heq).1, fun _ => ?_⟩
    exact (congrArg (·.has .user) heq).trans (Field.isSet_put_self .user true _)

theorem keepsLinks_opened (hforest : Forest mem roots held) (cell : Cell)
    (flags : Flags) :
    Ram.KeepsLinks roots mem.ram (mem.opened cell flags).ram := by
  refine hforest.keepsLinks fun {root level path frame} _ _ i node _ => ?_
  rw [Memory.read_opened]
  split
  · exact Or.inr rfl
  · exact Or.inl rfl

/-- Writing over an entry that is no link keeps the links. -/
theorem keepsLinks_write (hforest : Forest mem roots held)
    (hroot : root ∈ roots) {level : Level} {path : List Index} {frame : Frame}
    {i : Index} (hreach : mem.ram.Reach root level path frame)
    (hold : ∀ node, mem.ram.child level ⟨frame, i⟩ ≠ .table node) (e : Entry) :
    Ram.KeepsLinks roots mem.ram (mem.write frame i e).ram := by
  refine hforest.keepsLinks
    fun {root' level' path' frame'} hroot' hreach' j node hchild => ?_
  rw [Memory.read_write, if_neg]
  · exact Or.inl rfl
  · rintro ⟨rfl, rfl⟩
    obtain ⟨-, rfl, -⟩ := hforest.reach_eq hroot hreach hroot' hreach'
    exact hold node hchild

theorem keepsLinks_fetch (hforest : Forest mem roots held) {node : Frame}
    (hfetched : mem.Fetched node mem') :
    Ram.KeepsLinks roots mem.ram mem'.ram := by
  refine hforest.keepsLinks fun {root level path frame} hroot hreach i _ _ =>
    Or.inl ?_
  exact hfetched.read_other
    (hforest.ne_of_fresh hfetched.took.fresh hroot ⟨level, path, hreach⟩) i

/-- Linking a node where nothing was keeps the links. -/
theorem keepsLinks_grow (hforest : Forest mem roots held) (hroot : root ∈ roots)
    {level : Level} {path : List Index} {frame node : Frame} {i : Index}
    (hreach : mem.ram.Reach root level path frame)
    (habsent : mem.ram.child level ⟨frame, i⟩ = .absent)
    (hfetched : mem.Fetched node mem') (e : Entry) :
    Ram.KeepsLinks roots mem.ram (mem'.write frame i e).ram := by
  have hkept := hforest.keepsLinks_fetch hfetched
  have hforest' := (hforest.take hfetched.took hfetched.read_other).1
  refine hkept.trans
    (hforest'.keepsLinks_write hroot (hkept.reach hroot hreach) ?_ e)
  intro other
  rw [hforest.child_fetch hfetched hroot hreach i, habsent]
  exact Child.noConfusion

/-- The way down keeps the links.  If user code is to use it, all of it is open
in the end: a link that was there is opened on the way, and a new one is written
with the user bit of the request. -/
theorem opens_descend {level target : Level} {levels : List Level}
    (hleads : level.Leads levels target) (hforest : Forest mem roots held)
    (hroot : root ∈ roots) {frame : Frame}
    (hreach : mem.ram.Reach root level (level.pathTo va) frame)
    {done : Reported Memory (Except MapError Frame × List Added)}
    (hdone : mem.descend va (AddressSpace.parentFlags flags) levels frame =
      done) :
    Ram.KeepsLinks roots mem.ram done.state.ram ∧
      (flags.has .user = true → mem.ram.OpenTo root va level frame →
        ∀ node, done.value.1 = .ok node →
          done.state.ram.OpenTo root va target node) := by
  subst hdone
  induction hleads generalizing frame mem with
  | here =>
      refine ⟨.refl roots mem.ram, ?_⟩
      rintro - hopen node ⟨⟩
      exact hopen
  | @next level below target rest hnext hrest ih =>
      cases hchild : mem.ram.child level ⟨frame, level.index va⟩ with
      | created node => exact absurd hchild Ram.child_ne_created
      | leaf e =>
          rw [Memory.descend_of_leaf hchild]
          exact ⟨.refl roots mem.ram, fun _ _ _ h => nomatch h⟩
      | table node =>
          obtain ⟨hforest', hsame⟩ :=
            hforest.opened hroot hreach hchild (AddressSpace.parentFlags flags)
          have hkept := hforest.keepsLinks_opened ⟨frame, level.index va⟩
            (AddressSpace.parentFlags flags)
          obtain ⟨hrestKept, hend⟩ :=
            ih hforest' (hkept.reach hroot (hreach.along hnext hchild))
          rw [Memory.descend_of_table hchild]
          refine ⟨hkept.trans hrestKept, fun huser hopen => hend huser ?_⟩
          refine .step (hkept.openTo hroot hopen) hnext
            ((hsame hroot hreach _).trans hchild) ?_
          have hread := mem.read_opened ⟨frame, level.index va⟩
            (AddressSpace.parentFlags flags) frame (level.index va)
          rw [if_pos ⟨(AddressSpace.has_user_parentFlags flags).trans huser,
            rfl⟩] at hread
          exact (congrArg (·.has .user) hread).trans
            (Field.isSet_put_self .user true _)
      | absent =>
          cases hnew : mem.newNode? with
          | none =>
              rw [Memory.descend_of_starved hnext hchild hnew]
              exact ⟨.refl roots mem.ram, fun _ _ _ h => nomatch h⟩
          | some taken =>
              rcases taken with ⟨node, mem'⟩
              have hfetched := Memory.fetched_of_newNode? hforest.valid hnew
              obtain ⟨hforest', -, hreach'⟩ :=
                hforest.grow hroot hreach hchild hnext hfetched
                  (flags.has .user)
              rw [← Level.pathTo_of_next hnext] at hreach'
              have hkept := hforest.keepsLinks_grow hroot hreach hchild hfetched
                (.table node (AddressSpace.parentFlags flags))
              obtain ⟨hrestKept, hend⟩ := ih hforest' hreach'
              rw [Memory.descend_of_created hnext hchild hnew]
              refine ⟨hkept.trans hrestKept, fun huser hopen => hend huser ?_⟩
              have hread := mem'.read_write_self frame (level.index va)
                (.table node (AddressSpace.parentFlags flags))
              refine .step (hkept.openTo hroot hopen) hnext
                (Memory.child_of_read_table hnext
                  (hforest'.low_of_reach hroot hreach') hread) ?_
              exact (congrArg (·.has .user) hread).trans
                ((Entry.has_table (by decide) (by decide) node _).trans
                  ((AddressSpace.has_user_parentFlags flags).trans huser))

end Forest

end FourLevelPaging
