/-
Counting the nodes of a tree.  The recursion that counts them also lists them,
and in trees that lie apart no node is listed twice, so the frames handed out by
the pool are as many as the nodes counted and the frames held by others.
-/
import FourLevelPaging.Proofs.Tree.Forest

namespace FourLevelPaging

theorem Node.nodup_present (node : Node) :
    (node.present.map Prod.fst).Nodup := by
  have hlength : (List.finRange 512).length ≤ node.entries.toList.length := by
    simp
  have hsub : (node.present.map Prod.fst).Sublist
      (((List.finRange 512).zip node.entries.toList).map Prod.fst) :=
    List.filter_sublist.map _
  rw [List.map_fst_zip hlength] at hsub
  exact (List.nodup_finRange 512).sublist hsub

/-- The nodes below and including the one in `frame`, in the order in which
they are counted. -/
def Ram.nodes (ram : Ram) : List Level → Frame → List Frame
  | level :: next :: below, frame =>
      frame :: (ram.node frame).present.flatMap fun (_, e) =>
        if level.isLeaf e then [] else ram.nodes (next :: below) e.tableFrame
  | _, frame => [frame]

namespace Ram

variable {ram : Ram} {root : Frame}

theorem length_nodes (ram : Ram) (levels : List Level) (frame : Frame) :
    (ram.nodes levels frame).length = ram.countNodes levels frame := by
  fun_induction Ram.countNodes with
  | case1 level next below frame ih =>
      simp only [nodes, List.length_cons, List.length_flatMap]
      rw [Nat.add_comm]
      congr 3
      funext listed
      rcases listed with ⟨i, e⟩
      cases level.isLeaf e with
      | true => rfl
      | false => exact ih e
  | case2 levels frame hshort => simp [nodes]

theorem nodes_of_next {level below : Level} (hnext : level.next = some below)
    (frame : Frame) :
    ram.nodes level.down frame =
      frame :: (ram.node frame).present.flatMap fun (_, e) =>
        if level.isLeaf e then [] else ram.nodes below.down e.tableFrame := by
  cases level <;>
    simp only [Level.next, Option.some.injEq, reduceCtorEq] at hnext <;>
    subst hnext <;> rfl

theorem nodes_of_last {level : Level} (hnext : level.next = none)
    (frame : Frame) :
    ram.nodes level.down frame = [frame] := by
  cases level <;> simp only [Level.next, reduceCtorEq] at hnext
  rfl

/-- The nodes that an entry adds to the list are those behind the node it points
at. -/
theorem mem_behind_iff {level below : Level} {frame node : Frame} {i : Index}
    {e : Entry} (hlisted : (i, e) ∈ (ram.node frame).present) :
    node ∈ (if level.isLeaf e then [] else ram.nodes below.down e.tableFrame) ↔
      ∃ child, ram.child level ⟨frame, i⟩ = .table child ∧
        node ∈ ram.nodes below.down child := by
  obtain ⟨rfl, hp⟩ := Node.mem_present.1 hlisted
  constructor
  · intro hmem
    split at hmem
    · cases hmem
    · next hl => exact ⟨_, child_of_table hp (Bool.eq_false_iff.2 hl), hmem⟩
  · intro hsome
    rcases hsome with ⟨child, hchild, hmem⟩
    obtain ⟨-, hl, rfl⟩ := child_eq_table_iff.1 hchild
    change level.isLeaf ((ram.node frame).get i) = false at hl
    rw [if_neg (Bool.eq_false_iff.1 hl)]
    exact hmem

theorem mem_nodes_of_next {level below : Level}
    (hnext : level.next = some below) {frame node : Frame} :
    node ∈ ram.nodes level.down frame ↔
      node = frame ∨ ∃ i child, ram.child level ⟨frame, i⟩ = .table child ∧
        node ∈ ram.nodes below.down child := by
  rw [nodes_of_next hnext, List.mem_cons, List.mem_flatMap]
  refine or_congr_right ⟨?_, ?_⟩
  · intro hmem
    rcases hmem with ⟨⟨i, e⟩, hlisted, hmem⟩
    exact ⟨i, (mem_behind_iff hlisted).1 hmem⟩
  · intro hmem
    rcases hmem with ⟨i, child, hchild, hmem⟩
    have hp := (child_eq_table_iff.1 hchild).1
    have hlisted : (i, (ram.node frame).get i) ∈ (ram.node frame).present :=
      Node.mem_present.2 ⟨rfl, hp⟩
    exact ⟨(i, _), hlisted, (mem_behind_iff hlisted).2 ⟨child, hchild, hmem⟩⟩

/-- A way that leads on from a node ends there or follows one of its entries. -/
theorem Reach.eq_or_child {level level' : Level} {path path' : List Index}
    {frame node : Frame} (h : ram.Reach root level path frame)
    (h' : ram.Reach root level' path' node) (hsuffix : path <:+ path') :
    node = frame ∨ ∃ i below child, level.next = some below ∧
      ram.child level ⟨frame, i⟩ = .table child ∧ i :: path <:+ path' := by
  rcases hsuffix with ⟨front, rfl⟩
  rcases List.eq_nil_or_concat front with rfl | ⟨front, i, rfl⟩
  · exact Or.inl (h.frame_eq h')
  · have hsuffix : i :: path <:+ front.concat i ++ path :=
      ⟨front, by simp⟩
    obtain ⟨below, child, hchild⟩ := h'.node_of_suffix hsuffix
    cases hchild with
    | step hupper hnext hstep =>
        obtain rfl := h.level_eq hupper
        obtain rfl := h.frame_eq hupper
        exact Or.inr ⟨i, below, child, hnext, hstep, hsuffix⟩

/-- The nodes listed from a node of the tree are those that its way leads on
to. -/
theorem mem_nodes_iff {level : Level} {path : List Index} {frame node : Frame}
    (hreach : ram.Reach root level path frame) :
    node ∈ ram.nodes level.down frame ↔
      ∃ level' path', ram.Reach root level' path' node ∧ path <:+ path' := by
  induction level using Level.induction_down generalizing path frame with
  | step level ih =>
      cases hnext : level.next with
      | none =>
          rw [nodes_of_last hnext, List.mem_singleton]
          constructor
          · rintro rfl
            exact ⟨level, path, hreach, List.suffix_rfl⟩
          · intro hbelow
            rcases hbelow with ⟨level', path', h, hsuffix⟩
            rcases hreach.eq_or_child h hsuffix with
              heq | ⟨_, below, _, hsome, -⟩
            · exact heq
            · rw [hnext] at hsome
              cases hsome
      | some below =>
          rw [mem_nodes_of_next hnext]
          constructor
          · intro hmem
            rcases hmem with rfl | ⟨i, child, hchild, hmem⟩
            · exact ⟨level, path, hreach, List.suffix_rfl⟩
            · obtain ⟨level', path', h, hsuffix⟩ :=
                (ih below hnext (.step hreach hnext hchild)).1 hmem
              exact ⟨level', path', h, (List.suffix_cons i path).trans hsuffix⟩
          · intro hbelow
            rcases hbelow with ⟨level', path', h, hsuffix⟩
            rcases hreach.eq_or_child h hsuffix with
              heq | ⟨i, _, child, hsome, hchild, hon⟩
            · exact Or.inl heq
            · rw [hnext, Option.some.injEq] at hsome
              subst hsome
              exact Or.inr ⟨i, child, hchild,
                (ih below hnext (.step hreach hnext hchild)).2
                  ⟨level', path', h, hon⟩⟩

theorem mem_nodes_root_iff {node : Frame} :
    node ∈ ram.nodes Level.all root ↔ ram.Owns root node := by
  have hself : ram.Reach root .pml4 [] root := .root
  rw [show Level.all = Level.pml4.down from rfl, mem_nodes_iff hself]
  exact exists_congr fun level => exists_congr fun path =>
    and_iff_left List.nil_suffix

end Ram

namespace Forest

variable {mem : Memory} {roots : List Frame} {held : Finset Frame}
  {root : Frame}

/-- No node is listed twice. -/
theorem nodup_nodes (hforest : Forest mem roots held) (hroot : root ∈ roots)
    {level : Level} {path : List Index} {frame : Frame}
    (hreach : mem.ram.Reach root level path frame) :
    (mem.ram.nodes level.down frame).Nodup := by
  induction level using Level.induction_down generalizing path frame with
  | step level ih =>
      cases hnext : level.next with
      | none =>
          rw [Ram.nodes_of_last hnext]
          exact List.nodup_singleton frame
      | some below =>
          have hon :
              ∀ {i child node}, mem.ram.child level ⟨frame, i⟩ = .table child →
                node ∈ mem.ram.nodes below.down child →
                ∃ level' path',
                  mem.ram.Reach root level' path' node ∧ i :: path <:+ path' :=
            fun hchild hmem =>
              (Ram.mem_nodes_iff (.step hreach hnext hchild)).1 hmem
          rw [Ram.nodes_of_next hnext, List.nodup_cons, List.nodup_flatMap]
          refine ⟨?_, ?_, ?_⟩
          · intro hmem
            obtain ⟨⟨i, e⟩, hlisted, hbehind⟩ := List.mem_flatMap.1 hmem
            obtain ⟨child, hchild, hnode⟩ :=
              (Ram.mem_behind_iff hlisted).1 hbehind
            obtain ⟨level', path', h, hsuffix⟩ := hon hchild hnode
            obtain ⟨-, -, rfl⟩ := hforest.reach_eq hroot hreach hroot h
            have hlength := hsuffix.length_le
            simp only [List.length_cons] at hlength
            omega
          · rintro ⟨i, e⟩ hlisted
            obtain ⟨rfl, hp⟩ := Node.mem_present.1 hlisted
            dsimp only
            split
            · exact List.nodup_nil
            · next hl =>
                exact ih below hnext (.step hreach hnext
                  (Ram.child_of_table hp (Bool.eq_false_iff.2 hl)))
          · have hne := List.pairwise_map.1 (mem.ram.node frame).nodup_present
            apply hne.imp_of_mem
            rintro ⟨i, e⟩ ⟨j, e'⟩ hlisted hlisted' hij node hbehind hbehind'
            obtain ⟨child, hchild, hnode⟩ :=
              (Ram.mem_behind_iff hlisted).1 hbehind
            obtain ⟨child', hchild', hnode'⟩ :=
              (Ram.mem_behind_iff hlisted').1 hbehind'
            obtain ⟨level₁, path₁, h₁, hsuffix₁⟩ := hon hchild hnode
            obtain ⟨level₂, path₂, h₂, hsuffix₂⟩ := hon hchild' hnode'
            obtain ⟨-, -, rfl⟩ := hforest.reach_eq hroot h₁ hroot h₂
            have hsame :=
              List.suffix_of_suffix_length_le hsuffix₁ hsuffix₂ (by simp)
            have heq := hsame.eq_of_length (by simp)
            exact hij (List.cons.inj heq).1

theorem mem_all_nodes_iff {frame : Frame} :
    frame ∈ roots.flatMap (mem.ram.nodes Level.all) ↔
      ∃ root ∈ roots, mem.ram.Owns root frame := by
  simp only [List.mem_flatMap, Ram.mem_nodes_root_iff]

/-- Trees that lie apart have no node in common. -/
theorem nodup_all_nodes (hforest : Forest mem roots held) :
    (roots.flatMap (mem.ram.nodes Level.all)).Nodup := by
  rw [List.nodup_flatMap]
  constructor
  · intro root hroot
    exact hforest.nodup_nodes hroot .root
  · apply hforest.nodup.imp_of_mem
    intro root root' hroot hroot' hne frame hmem hmem'
    obtain ⟨_, _, h⟩ := Ram.mem_nodes_root_iff.1 hmem
    obtain ⟨_, _, h'⟩ := Ram.mem_nodes_root_iff.1 hmem'
    exact hne (hforest.reach_eq hroot' h' hroot h).1

/-- The pool has handed out as many frames as there are nodes in the trees and
frames held by others. -/
theorem allocatedCount_eq (hforest : Forest mem roots held) :
    mem.pool.allocatedCount =
      (roots.map fun root => mem.ram.countNodes Level.all root).sum +
        held.card := by
  have hallocated : mem.pool.allocated =
      (roots.flatMap (mem.ram.nodes Level.all)).toFinset ∪ held := by
    ext frame
    rw [hforest.allocated, Finset.mem_union, List.mem_toFinset,
      mem_all_nodes_iff, or_comm]
  have hapart :
      Disjoint (roots.flatMap (mem.ram.nodes Level.all)).toFinset held := by
    rw [Finset.disjoint_left]
    intro frame hmem
    obtain ⟨root, hroot, howns⟩ :=
      mem_all_nodes_iff.1 (List.mem_toFinset.1 hmem)
    exact hforest.apart hroot howns
  rw [← FramePool.card_allocated hforest.valid, hallocated,
    Finset.card_union_of_disjoint hapart,
    List.toFinset_card_of_nodup hforest.nodup_all_nodes, List.length_flatMap]
  simp only [Ram.length_nodes]

end Forest

end FourLevelPaging
