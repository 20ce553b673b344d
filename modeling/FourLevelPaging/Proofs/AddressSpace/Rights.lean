/-
What the processor makes of the entries on the way of an address.  It grants
what all of them grant and denies what one of them denies.  The links on the way
grant everything that the leaf grants, so the rights are those of the leaf.
-/
import FourLevelPaging.Proofs.AddressSpace.Map
import FourLevelPaging.Proofs.AddressSpace.Unmap
import FourLevelPaging.Proofs.Tree.Open
import Mathlib.Data.List.Chain

namespace FourLevelPaging

/-- What may be done with the memory that an address leads to. -/
structure Rights where
  writable : Bool
  user : Bool
  noExecute : Bool
deriving DecidableEq

/-- The rights that a flag word asks for. -/
def Rights.ofFlags (flags : Flags) : Rights :=
  ⟨flags.has .writable, flags.has .user, flags.has .noExecute⟩

/-- The rights that the processor computes from the entries it passes: each must
allow writing and use by user code, and none may forbid execution. -/
def Rights.along (entries : List Entry) : Rights :=
  ⟨entries.all (·.has .writable), entries.all (·.has .user),
    entries.any (·.has .noExecute)⟩

/-- The entry is the address of the node with the bits present and writable,
maybe user, and no other bit. -/
def Entry.IsLinkTo (e : Entry) (node : Frame) : Prop :=
  e.bits = node.base.bits ||| 0x3 ∨ e.bits = node.base.bits ||| 0x7

namespace Ram

/-- The entry at a place. -/
def entry (ram : Ram) (cell : Cell) : Entry := ram.read cell.frame cell.index

/-- The places of the entries that the processor reads to translate `va`, from
the node in `frame` on, whose level is the first of the list.  It goes on from
an entry that is present and no leaf. -/
def cellsRead (ram : Ram) (va : VirtAddr) : List Level → Frame → List Cell
  | [], _ => []
  | level :: below, frame =>
      let e := ram.read frame (level.index va)
      ⟨frame, level.index va⟩ ::
        if e.present && !level.isLeaf e then ram.cellsRead va below e.tableFrame
        else []

variable {ram : Ram} {root : Frame} {va : VirtAddr}

/-- The processor reads what a walk passes. -/
theorem cellsRead_of_walk {levels : List Level} {frame : Frame} {hit : Hit}
    (hwalk : ram.walk va levels frame = some hit) :
    ram.cellsRead va levels frame = hit.above ++ [hit.cell] := by
  induction levels generalizing frame hit with
  | nil => cases hwalk
  | cons level below ih =>
      cases hchild : ram.child level ⟨frame, level.index va⟩ with
      | absent => simp [walk, hchild] at hwalk
      | created node => exact absurd hchild child_ne_created
      | leaf e =>
          obtain ⟨size, hsize⟩ := leafSize_of_child_leaf hchild
          obtain ⟨hread, hp, hl⟩ := child_eq_leaf_iff.1 hchild
          simp only [walk, hchild, hsize, Option.some.injEq] at hwalk
          subst hwalk
          simp only at hread
          simp [cellsRead, hread, hl]
      | table node =>
          obtain ⟨hp, hl, hnode⟩ := child_eq_table_iff.1 hchild
          simp only at hp hl hnode
          cases hrest : ram.walk va below node with
          | none => simp [walk, hchild, hrest] at hwalk
          | some rest =>
              simp only [walk, hchild, hrest, Option.some.injEq] at hwalk
              subst hwalk
              simp [cellsRead, hp, hl, hnode, ih hrest]

/-- What a walk passes on its way to a node are links. -/
theorem Trail.link_of_mem {level : Level} {cells : List Cell} {frame : Frame}
    (htrail : ram.Trail root va level cells)
    (hreach : ram.Reach root level (level.pathTo va) frame) {cell : Cell}
    (hmem : cell ∈ cells) :
    ∃ upper node, ram.Reach root upper (upper.pathTo va) cell.frame ∧
      ram.child upper cell = .table node := by
  induction htrail generalizing frame with
  | root => cases hmem
  | @step upper below cells node _ hupper hnext ih =>
      rcases List.mem_cons.1 hmem with rfl | hmem
      · exact ⟨upper, frame, hupper, hreach.child_above hupper hnext⟩
      · exact ih hupper hmem

end Ram

namespace Entry

/-- The word of an entry that points at a node. -/
theorem isLinkTo_table {node : Frame} (hlow : node.base.toNat < 2 ^ 52)
    (user : Bool) :
    (table node (Flags.table.put .user user)).IsLinkTo node := by
  have haddress :
      (BitVec.ofNat 40 node.number).setWidth 64 <<< Field.addressSlot.lo =
        node.base.bits := by
    have hnumber := node.number_mul_bytes
    rw [show PageSize.fourK.bytes = 4096 from rfl] at hnumber
    apply BitVec.eq_of_toNat_eq
    rw [BitVec.toNat_shiftLeft, BitVec.toNat_setWidth, BitVec.toNat_ofNat]
    change (node.number % 2 ^ 40 % 2 ^ 64) <<< 12 % 2 ^ 64 = node.base.toNat
    rw [Nat.shiftLeft_eq]
    omega
  have hbits : ∀ word : Word, word &&& ~~~Field.addressSlot.mask = word →
      Field.addressSlot.write (BitVec.ofNat 40 node.number) word =
        node.base.bits ||| word := by
    intro word hword
    exact (congrArg₂ (· ||| ·) hword haddress).trans (BitVec.or_comm _ _)
  cases user
  · exact Or.inl (hbits 0x3 (by decide))
  · exact Or.inr (hbits 0x7 (by decide))

end Entry

/-- Links that allow writing and forbid nothing, and that user code may pass if
it may use the leaf, take nothing from the rights that the leaf gives. -/
theorem Rights.along_append_leaf {links : List Entry} {e : Entry}
    (hwritable : ∀ link ∈ links, link.has .writable = true)
    (hexecute : ∀ link ∈ links, link.has .noExecute = false)
    (huser : e.has .user = true → ∀ link ∈ links, link.has .user = true) :
    along (links ++ [e]) = .ofFlags e.flags := by
  simp only [along, ofFlags, Entry.has_flags, List.all_append, List.any_append,
    List.all_cons, List.all_nil, List.any_cons, List.any_nil, Bool.and_true,
    Bool.or_false, mk.injEq]
  refine ⟨?_, ?_, ?_⟩
  · rw [List.all_eq_true.2 hwritable, Bool.true_and]
  · cases hleaf : e.has .user with
    | false => rw [Bool.and_false]
    | true => rw [List.all_eq_true.2 (huser hleaf), Bool.true_and]
  · have hnone : links.any (·.has .noExecute) = false := by
      rw [List.any_eq_false]
      intro link hmem
      rw [hexecute link hmem]
      decide
    rw [hnone, Bool.false_or]

namespace Forest

variable {mem : Memory} {roots : List Frame} {held : Finset Frame}
  {root : Frame} {va : VirtAddr}

/-- Every link leads to the node that the next entry is read from. -/
theorem chain_trail (hforest : Forest mem roots held) (hroot : root ∈ roots)
    {level : Level} {cells : List Cell} {frame : Frame}
    (htrail : mem.ram.Trail root va level cells)
    (hreach : mem.ram.Reach root level (level.pathTo va) frame) (i : Index) :
    List.IsChain
      (fun cell below : Cell => (mem.ram.entry cell).IsLinkTo below.frame)
      (cells.reverse ++ [⟨frame, i⟩]) := by
  induction htrail generalizing frame i with
  | root => exact .singleton _
  | @step upper below cells node _ hupper hnext ih =>
      have hchild := hreach.child_above hupper hnext
      obtain ⟨user, hread⟩ := hforest.read_of_child_table hroot hupper hchild
      have hlink : (mem.ram.entry ⟨node, upper.index va⟩).IsLinkTo frame := by
        have hentry : mem.ram.entry ⟨node, upper.index va⟩ = _ := hread
        rw [hentry]
        exact Entry.isLinkTo_table (hforest.low_of_reach hroot hreach) user
      rw [List.reverse_cons, List.append_assoc, List.singleton_append,
        List.isChain_append_cons_cons]
      exact ⟨ih hupper (upper.index va), hlink, .singleton _⟩

/-- The links on the way to a leaf grant what the leaf grants. -/
theorem rights_trail (hforest : Forest mem roots held) (hroot : root ∈ roots)
    (hopen : mem.ram.UserOpen roots) {level : Level} {cells : List Cell}
    {frame : Frame} {e : Entry} (htrail : mem.ram.Trail root va level cells)
    (hleaf : mem.ram.LeafAt root va level frame e) :
    Rights.along (cells.reverse.map mem.ram.entry ++ [e]) =
      .ofFlags e.flags := by
  have hlinks : ∀ link ∈ cells.reverse.map mem.ram.entry,
      link.has .writable = true ∧ link.has .noExecute = false := by
    simp only [List.forall_mem_map, List.mem_reverse]
    intro cell hmem
    obtain ⟨upper, node, hupper, hchild⟩ := htrail.link_of_mem hleaf.reach hmem
    obtain ⟨user, hread⟩ := hforest.read_of_child_table hroot hupper hchild
    have hentry : mem.ram.entry cell = _ := hread
    rw [hentry, Entry.has_table (by decide) (by decide),
      Entry.has_table (by decide) (by decide)]
    cases user <;> decide
  refine Rights.along_append_leaf (fun link hmem => (hlinks link hmem).1)
    (fun link hmem => (hlinks link hmem).2) fun huser => ?_
  simp only [List.forall_mem_map, List.mem_reverse]
  intro cell hmem
  exact (hopen root hroot va level frame e hleaf huser).user_of_mem htrail hmem

end Forest

namespace AddressSpace

variable {space : AddressSpace} {mem : Memory} {roots : List Frame}
  {held : Finset Frame} {va : VirtAddr}

/-- What the processor reads on the way of an address that is mapped: links,
each of them to the node that the next entry is read from, and then the leaf,
and the rights that it computes are those of the leaf. -/
theorem rights_of_lookup (hforest : Forest mem roots held)
    (hopen : mem.ram.UserOpen roots) (hroot : space.root ∈ roots)
    {target : Target} (hlookup : space.lookup mem.ram va = some target) :
    ∃ links leaf, mem.ram.cellsRead va Level.all space.root = links ++ [leaf] ∧
      (mem.ram.entry leaf).flags = target.flags ∧
      List.IsChain (fun cell below : Cell =>
        (mem.ram.entry cell).IsLinkTo below.frame) (links ++ [leaf]) ∧
      Rights.along ((links ++ [leaf]).map mem.ram.entry) =
        .ofFlags target.flags := by
  obtain ⟨hit, hfind, rfl⟩ := Option.map_eq_some_iff.1 hlookup
  obtain ⟨hcanonical, last, hleaf, hindex, -, htrail⟩ := leafAt_of_find? hfind
  rw [find?, if_pos hcanonical] at hfind
  have hentry : mem.ram.entry hit.cell = hit.entry := by
    rw [Ram.entry, hindex]
    exact (Ram.child_eq_leaf_iff.1 hleaf.child).1
  refine ⟨hit.above, hit.cell, Ram.cellsRead_of_walk hfind, ?_, ?_, ?_⟩
  · rw [hentry]
    rfl
  · have hchain := hforest.chain_trail hroot htrail hleaf.reach hit.cell.index
    rwa [List.reverse_reverse] at hchain
  · have hrights := hforest.rights_trail hroot hopen htrail hleaf
    rw [List.reverse_reverse] at hrights
    rw [List.map_append, List.map_singleton, hentry]
    exact hrights

/-- Mapping a page keeps every leaf for user code within its reach, whether or
not the request is refused. -/
theorem userOpen_mapSized (hforest : Forest mem roots held)
    (hopen : mem.ram.UserOpen roots) (hroot : space.root ∈ roots)
    (va : VirtAddr) (pa : PhysAddr) (size : PageSize) (flags : Flags) :
    (space.mapSized mem va pa size flags).state.ram.UserOpen roots := by
  cases hanswer : (space.mapSized mem va pa size flags).value with
  | error reason =>
      obtain ⟨hrestored, -⟩ := restored_mapSized hforest hroot hanswer
      obtain ⟨-, hsame⟩ := child_of_refused hforest hroot hanswer
      refine (hforest.keepsLinks
          fun {root level path frame} hmem hreach i _ _ => ?_).userOpen
        (Forest.sameLeaves_of_child hsame) hopen
      rw [hrestored.read_eq frame (hforest.mem_allocated_of_reach hmem hreach)]
      split
      · exact Or.inr rfl
      · exact Or.inl rfl
  | ok mapped =>
      obtain ⟨⟨hcanonical, hva, hpa⟩, walk, node, hwalk, hok, hchild⟩ :=
        walk_of_mapSized hanswer
      obtain ⟨hkept, hend⟩ := hforest.descend size.leads_above hroot .root
      obtain ⟨hlinks, hway⟩ :=
        hforest.opens_descend size.leads_above hroot .root hwalk
      rw [hwalk] at hkept hend
      have hplaced : space.Placed mem roots held va pa size walk.state node :=
        ⟨hcanonical, hva, hpa, hroot, hkept.forest, hkept.leaves, hend node hok,
          hchild⟩
      have hwrite := hkept.forest.keepsLinks_write hroot hplaced.reach hchild
        (size.leaf pa flags)
      rw [mapSized_of_placed hcanonical (Bool.and_eq_true_iff.2 ⟨hva, hpa⟩)
        hwalk hok hchild]
      intro root hmem a level frame e hleaf huser
      by_cases hinside : root = space.root ∧
        size.level.index a = size.level.index va ∧
        size.level.pathTo a = size.level.pathTo va
      · rcases hinside with ⟨rfl, hindex, hpath⟩
        obtain ⟨rfl, rfl, rfl⟩ :=
          (hplaced.leafAt_inside flags hindex hpath).unique hleaf
        have hflags : flags.has .user = true := by
          rw [PageSize.leaf, Entry.has_leaf_of_ne _ _ (by decide)] at huser
          exact (Field.isSet_put_of_ne (by decide) _ _).symm.trans huser
        exact (hwrite.openTo hroot (hway hflags .root _ hok)).congr hpath
      · have hold := (hplaced.leafAt_outside flags hmem hinside).1 hleaf
        exact hwrite.openTo hmem
          (hlinks.openTo hmem (hopen root hmem a level frame e hold huser))

theorem userOpen_unmap (hopen : mem.ram.UserOpen roots) (va : VirtAddr) :
    (space.unmap mem va).state.ram.UserOpen roots := by
  cases hfind : space.find? mem.ram va with
  | none =>
      rw [unmap_of_find?_eq_none hfind]
      exact hopen
  | some hit =>
      rw [unmap_of_find? hfind]
      have hclears :=
        (Ram.Clears.clear mem.ram hit.cell.frame hit.cell.index).trans
          (Memory.clears_reclaim (hit.cell :: hit.above.reverse)
            (mem.clear hit.cell.frame hit.cell.index))
      exact hclears.userOpen hopen

/-- A new space has no leaf at all. -/
theorem userOpen_create (hvalid : mem.pool.Valid)
    (hmade : (create mem).value = .ok space) :
    (create mem).state.ram.UserOpen [space.root] := by
  have hfetched := (fetched_of_create hvalid hmade).1
  have habsent : ∀ level i,
      (create mem).state.ram.child level ⟨space.root, i⟩ = .absent :=
    fun _ i => Memory.child_of_read_empty (hfetched.read_self i)
  intro root hroot va level frame e hleaf
  obtain rfl := List.mem_singleton.1 hroot
  have hself : (create mem).state.ram.Reach space.root .pml4 [] space.root :=
    .root
  have hpath := hself.eq_of_suffix (fun i node => by
    rw [habsent]
    exact Child.noConfusion) hleaf.reach List.nil_suffix
  have hframe := hself.frame_eq (hpath ▸ hleaf.reach)
  have hchild := hleaf.child
  rw [hframe, habsent] at hchild
  cases hchild

end AddressSpace

end FourLevelPaging
