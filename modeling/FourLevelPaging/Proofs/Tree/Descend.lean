/-
The way down of a mapping.  It keeps the trees and every leaf, opens the links
it follows if user code is to use them, and adds a chain of empty nodes where
links are missing; taking the first of these out again restores every entry but
the links that were opened.
-/
import FourLevelPaging.AddressSpace.Map
import FourLevelPaging.Proofs.Tree.Link

namespace FourLevelPaging

/-- Going down from a level through the given levels ends at another level. -/
inductive Level.Leads : Level → List Level → Level → Prop
  | here (level : Level) : Leads level [] level
  | next {level below target : Level} {rest : List Level}
      (hnext : level.next = some below) (hrest : Leads below rest target) :
      Leads level (level :: rest) target

theorem PageSize.leads_above (size : PageSize) :
    Level.Leads .pml4 size.above size.level := by
  cases size
  · exact .next rfl (.next rfl (.next rfl (.here _)))
  · exact .next rfl (.next rfl (.here _))
  · exact .next rfl (.here _)

/-- The places of the links that a walk for `va` follows through the given
levels. -/
def Ram.links (ram : Ram) (va : VirtAddr) : List Level → Frame → List Cell
  | [], _ => []
  | level :: rest, frame =>
      match ram.child level ⟨frame, level.index va⟩ with
      | .table node => ⟨frame, level.index va⟩ :: ram.links va rest node
      | _ => []

/-- The links among them that a mapping with the given flags leaves open to user
code, whether or not they were open before. -/
def Ram.linksToOpen (ram : Ram) (va : VirtAddr) (flags : Flags)
    (levels : List Level) (frame : Frame) : List Cell :=
  if flags.has .user then ram.links va levels frame else []

namespace Memory

/-- Opens the link in `cell` to user code if `flags` ask for it. -/
def opened (mem : Memory) (cell : Cell) (flags : Flags) : Memory :=
  if flags.has .user && !(mem.read cell.frame cell.index).has .user then
    mem.write cell.frame cell.index
      ((mem.read cell.frame cell.index).put .user true)
  else mem

/-- Takes out the first of the nodes that were added, and the others with it. -/
def unlinked (mem : Memory) : List Added → Memory
  | [] => mem
  | top :: _ => mem.clear top.cell.frame top.cell.index

section Step

variable {mem mem' : Memory} {level below : Level} {cell : Cell} {flags : Flags}
  {node : Frame} {va : VirtAddr} {rest : List Level} {frame : Frame}

theorem opened_pool (mem : Memory) (cell : Cell) (flags : Flags) :
    (mem.opened cell flags).pool = mem.pool := by
  unfold opened
  split <;> rfl

/-- An opened link is one with the user bit set, whether or not it was set
before. -/
theorem read_opened (mem : Memory) (cell : Cell) (flags : Flags) (frame : Frame)
    (i : Index) :
    (mem.opened cell flags).read frame i =
      if flags.has .user = true ∧ cell = ⟨frame, i⟩ then
        (mem.read frame i).put .user true
      else mem.read frame i := by
  rcases cell with ⟨cframe, ci⟩
  by_cases hcell : cframe = frame ∧ ci = i
  · rcases hcell with ⟨rfl, rfl⟩
    cases huser : flags.has .user
    · simp [opened, huser]
    · cases hhas : (mem.read cframe ci).has .user
      · simp [opened, huser, hhas, read_write]
      · simp [opened, huser, hhas, Entry.put_true_of_has rfl hhas]
  · have hne : ¬(⟨cframe, ci⟩ : Cell) = ⟨frame, i⟩ :=
      fun h => hcell (Cell.mk.inj h)
    unfold opened
    split <;> simp [read_write, hcell, hne]

theorem childOrCreate_of_leaf {e : Entry}
    (hchild : mem.ram.child level cell = .leaf e) :
    mem.childOrCreate level cell flags = .quiet (.ok (.leaf e)) mem := by
  simp only [childOrCreate, hchild]

theorem childOrCreate_of_table
    (hchild : mem.ram.child level cell = .table node) :
    mem.childOrCreate level cell flags =
      .quiet (.ok (.table node)) (mem.opened cell flags) := by
  simp only [childOrCreate, hchild, opened]
  split <;> rfl

/-- Nodes of the last level gain no child. -/
theorem childOrCreate_of_last (hlast : level.next = none)
    (hchild : mem.ram.child level cell = .absent) :
    mem.childOrCreate level cell flags = .quiet (.ok .absent) mem := by
  simp only [childOrCreate, hchild, hlast]

theorem childOrCreate_of_starved (hnext : level.next = some below)
    (hchild : mem.ram.child level cell = .absent) (hnew : mem.newNode? = none) :
    mem.childOrCreate level cell flags =
      .quiet (.error (.outOfMemory below)) mem := by
  simp only [childOrCreate, hchild, hnext, hnew]

theorem childOrCreate_of_created (hnext : level.next = some below)
    (hchild : mem.ram.child level cell = .absent)
    (hnew : mem.newNode? = some (node, mem')) :
    mem.childOrCreate level cell flags =
      ⟨.ok (.created node),
        mem'.write cell.frame cell.index (.table node flags),
        #[.nodeAdded below node]⟩ := by
  simp only [childOrCreate, hchild, hnext, hnew]

theorem descend_of_table
    (hchild : mem.ram.child level ⟨frame, level.index va⟩ = .table node) :
    descend va flags (level :: rest) frame mem =
      descend va flags rest node
        (mem.opened ⟨frame, level.index va⟩ flags) := by
  simp [descend, childOrCreate_of_table hchild, Outcome.quiet]

theorem descend_of_leaf {e : Entry}
    (hchild : mem.ram.child level ⟨frame, level.index va⟩ = .leaf e) :
    descend va flags (level :: rest) frame mem =
      .quiet (.error (.conflict va level), []) mem := by
  simp [descend, childOrCreate_of_leaf hchild, Outcome.quiet]

theorem descend_of_starved (hnext : level.next = some below)
    (hchild : mem.ram.child level ⟨frame, level.index va⟩ = .absent)
    (hnew : mem.newNode? = none) :
    descend va flags (level :: rest) frame mem =
      .quiet (.error (.outOfMemory below), []) mem := by
  simp [descend, childOrCreate_of_starved hnext hchild hnew, Outcome.quiet]

theorem descend_of_created (hnext : level.next = some below)
    (hchild : mem.ram.child level ⟨frame, level.index va⟩ = .absent)
    (hnew : mem.newNode? = some (node, mem')) :
    descend va flags (level :: rest) frame mem =
      let linked := mem'.write frame (level.index va) (.table node flags)
      let others := descend va flags rest node linked
      ⟨(others.value.1, ⟨⟨frame, level.index va⟩, node⟩ :: others.value.2),
        others.state, #[.nodeAdded below node] ++ others.events⟩ := by
  simp [descend, childOrCreate_of_created hnext hchild hnew]

end Step

end Memory

namespace Ram

variable {ram : Ram} {root : Frame} {va : VirtAddr}

theorem links_of_table {level : Level} {rest : List Level} {frame node : Frame}
    (hchild : ram.child level ⟨frame, level.index va⟩ = .table node) :
    ram.links va (level :: rest) frame =
      ⟨frame, level.index va⟩ :: ram.links va rest node := by
  simp [links, hchild]

theorem links_of_not_table {level : Level} {rest : List Level} {frame : Frame}
    (hchild : ∀ node, ram.child level ⟨frame, level.index va⟩ ≠ .table node) :
    ram.links va (level :: rest) frame = [] := by
  unfold links
  split
  · next node h => exact absurd h (hchild node)
  · rfl

/-- The links followed by a walk stand in nodes on the way of the address. -/
theorem of_mem_links {level target : Level} {levels : List Level}
    (hleads : level.Leads levels target) {frame : Frame}
    (hreach : ram.Reach root level (level.pathTo va) frame) {cell : Cell}
    (hmem : cell ∈ ram.links va levels frame) :
    ∃ upper node, ram.Reach root upper (upper.pathTo va) cell.frame ∧
      cell.index = upper.index va ∧
        ram.child upper ⟨cell.frame, upper.index va⟩ = .table node := by
  induction hleads generalizing frame with
  | here => cases hmem
  | @next level below target rest hnext hrest ih =>
      by_cases htable : ∃ node, ram.child level ⟨frame, level.index va⟩ =
        .table node
      · rcases htable with ⟨node, hchild⟩
        rw [links_of_table hchild, List.mem_cons] at hmem
        rcases hmem with rfl | hmem
        · exact ⟨level, node, hreach, rfl, hchild⟩
        · exact ih (hreach.along hnext hchild) hmem
      · rw [links_of_not_table (not_exists.1 htable)] at hmem
        cases hmem

/-- The links that a walk follows are known by what the entries of the nodes
lead to. -/
theorem links_congr {ram' : Ram} {level target : Level} {levels : List Level}
    (hleads : level.Leads levels target) {frame : Frame}
    (hsame : ∀ {level path frame}, ram.Reach root level path frame →
      ∀ i, ram'.child level ⟨frame, i⟩ = ram.child level ⟨frame, i⟩)
    (hreach : ram.Reach root level (level.pathTo va) frame) :
    ram'.links va levels frame = ram.links va levels frame := by
  induction hleads generalizing frame with
  | here => rfl
  | @next level below target rest hnext hrest ih =>
      have heq := hsame hreach (level.index va)
      by_cases htable : ∃ node, ram.child level ⟨frame, level.index va⟩ =
        .table node
      · rcases htable with ⟨node, hchild⟩
        rw [links_of_table hchild, links_of_table (heq.trans hchild),
          ih (hreach.along hnext hchild)]
      · have hchild := not_exists.1 htable
        rw [links_of_not_table hchild,
          links_of_not_table fun node => heq ▸ hchild node]

/-- The links that are opened stand on the way of the address. -/
theorem of_mem_linksToOpen {level target : Level} {levels : List Level}
    {flags : Flags} (hleads : level.Leads levels target) {frame : Frame}
    (hreach : ram.Reach root level (level.pathTo va) frame) {cell : Cell}
    (hmem : cell ∈ ram.linksToOpen va flags levels frame) :
    ∃ upper node, ram.Reach root upper (upper.pathTo va) cell.frame ∧
      ram.child upper cell = .table node := by
  rw [linksToOpen] at hmem
  split at hmem
  · obtain ⟨upper, node, hupper, hindex, hchild⟩ :=
      of_mem_links hleads hreach hmem
    rw [← hindex] at hchild
    exact ⟨upper, node, hupper, hchild⟩
  · cases hmem

/-- Below an entry that leads to nothing there are no links to open. -/
theorem linksToOpen_of_absent {level target : Level} {levels : List Level}
    (hleads : level.Leads levels target) {frame : Frame}
    (habsent : ram.child level ⟨frame, level.index va⟩ = .absent)
    (flags : Flags) :
    ram.linksToOpen va flags levels frame = [] := by
  have hlinks : ram.links va levels frame = [] := by
    cases hleads with
    | here => rfl
    | next => exact links_of_not_table fun node h => by simp [habsent] at h
  rw [linksToOpen, hlinks, ite_self]

end Ram

namespace AddressSpace

theorem has_user_parentFlags (flags : Flags) :
    (parentFlags flags).has .user = flags.has .user :=
  Flags.has_put_self _ _ _

end AddressSpace

namespace Forest

variable {mem : Memory} {roots : List Frame} {held : Finset Frame}
  {root : Frame} {va : VirtAddr} {flags : Flags}

/-- A link that a walk follows may be opened without harm. -/
theorem opened (hforest : Forest mem roots held) (hroot : root ∈ roots)
    {level : Level} {path : List Index} {frame node : Frame} {i : Index}
    (hreach : mem.ram.Reach root level path frame)
    (hchild : mem.ram.child level ⟨frame, i⟩ = .table node) (flags : Flags) :
    Forest (mem.opened ⟨frame, i⟩ flags) roots held ∧
      ∀ {root level path other}, root ∈ roots →
        mem.ram.Reach root level path other → ∀ j,
          (mem.opened ⟨frame, i⟩ flags).ram.child level ⟨other, j⟩ =
            mem.ram.child level ⟨other, j⟩ := by
  have hpool := mem.opened_pool ⟨frame, i⟩ flags
  refine hforest.open_links ?_ ?_ ?_ ?_
  · rw [hpool]
    exact hforest.valid
  · rw [hpool]
    exact .refl _
  · rw [hpool]
  · intro root' level' path' other hroot' hreach' j
    rw [Memory.read_opened]
    split
    · next h =>
        obtain ⟨rfl, rfl⟩ := Cell.mk.inj h.2
        obtain ⟨-, rfl, -⟩ := hforest.reach_eq hroot hreach hroot' hreach'
        exact Or.inr ⟨rfl, node, hchild⟩
    · exact Or.inl rfl

/-- The way down keeps the trees; if it comes to its end, it ends at the node
of the address. -/
theorem descend {level target : Level} {levels : List Level}
    (hleads : level.Leads levels target) (hforest : Forest mem roots held)
    (hroot : root ∈ roots) {frame : Frame}
    (hreach : mem.ram.Reach root level (level.pathTo va) frame) :
    Kept mem roots held
        (Memory.descend va (AddressSpace.parentFlags flags) levels frame mem) ∧
      ∀ node, (Memory.descend va (AddressSpace.parentFlags flags) levels frame
          mem).value.1 = .ok node →
        (Memory.descend va (AddressSpace.parentFlags flags) levels frame
          mem).state.ram.Reach root target (target.pathTo va) node := by
  induction hleads generalizing frame mem with
  | here =>
      refine ⟨⟨hforest, .refl _ _, .empty⟩, ?_⟩
      rintro node ⟨⟩
      exact hreach
  | @next level below target rest hnext hrest ih =>
      cases hchild : mem.ram.child level ⟨frame, level.index va⟩ with
      | created node => exact absurd hchild Ram.child_ne_created
      | leaf e =>
          rw [Memory.descend_of_leaf hchild]
          exact ⟨⟨hforest, .refl _ _, .empty⟩, fun _ h => nomatch h⟩
      | table node =>
          obtain ⟨hforest', hsame⟩ :=
            hforest.opened hroot hreach hchild (AddressSpace.parentFlags flags)
          have hreach' := (Ram.Reach.congr_child (hsame hroot)).2
            (hreach.along hnext hchild)
          obtain ⟨hkept, hend⟩ := ih hforest' hreach'
          rw [Memory.descend_of_table hchild]
          exact ⟨⟨hkept.forest, (sameLeaves_of_child hsame).trans hkept.leaves,
            hkept.accepted⟩, hend⟩
      | absent =>
          cases hnew : mem.newNode? with
          | none =>
              rw [Memory.descend_of_starved hnext hchild hnew]
              exact ⟨⟨hforest, .refl _ _, .empty⟩, fun _ h => nomatch h⟩
          | some taken =>
              rcases taken with ⟨node, mem'⟩
              have hfetched := Memory.fetched_of_newNode? hforest.valid hnew
              obtain ⟨hforest', hleaves, hreach'⟩ :=
                hforest.grow hroot hreach hchild hnext hfetched
                  (flags.has .user)
              rw [← Level.pathTo_of_next hnext] at hreach'
              obtain ⟨hkept, hend⟩ := ih hforest' hreach'
              rw [Memory.descend_of_created hnext hchild hnew]
              have hadded : AllAccepted #[.nodeAdded below node] :=
                .singleton fun _ => nofun
              exact ⟨⟨hkept.forest, hleaves.trans hkept.leaves,
                hadded.append hkept.accepted⟩, hend⟩

end Forest

end FourLevelPaging
