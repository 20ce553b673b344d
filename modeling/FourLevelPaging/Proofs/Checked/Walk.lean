/-
Reading a tree never leaves memory.  Every node that a look-up or a count comes
by is one of the tree, and a tree has no more nodes than its pool has frames, so
their number is a word.
-/
import FourLevelPaging.Checked.AddressSpace
import FourLevelPaging.Proofs.Checked.Store

namespace FourLevelPaging

open Checked

theorem Level.exists_down (level : Level) :
    ∃ below, level.down = level :: below := by
  cases level <;> exact ⟨_, rfl⟩

theorem Ram.countNodes_of_next {level below : Level}
    (hnext : level.next = some below) (ram : Ram) (frame : Frame) :
    ram.countNodes level.down frame =
      1 + ((ram.node frame).present.map fun (_, e) =>
        if level.isLeaf e then 0
        else ram.countNodes below.down e.tableFrame).sum := by
  cases level <;>
    simp only [Level.next, Option.some.injEq, reduceCtorEq] at hnext <;>
    subst hnext <;> rfl

/-- A sum of words that is itself a word can be taken one by one. -/
theorem Checked.foldlM_eq_ok {α : Type} {step : Nat → α → Checked Nat}
    (term : α → Nat) {xs : List α} {start : Nat}
    (hfits : start + (xs.map term).sum < 2 ^ 64) (hstep : ∀ x ∈ xs,
      ∀ total, total + term x < 2 ^ 64 → step total x = .ok (total + term x)) :
    xs.foldlM step start = .ok (start + (xs.map term).sum) := by
  induction xs generalizing start with
  | nil => rfl
  | cons x rest ih =>
      rw [List.map_cons, List.sum_cons, ← Nat.add_assoc] at hfits ⊢
      rw [List.foldlM_cons, hstep x List.mem_cons_self start (by omega),
        ok_bind]
      exact ih hfits fun y hy => hstep y (List.mem_cons_of_mem x hy)

namespace Forest

variable {mem : Memory} {roots : List Frame} {held : Finset Frame}
  {root : Frame}

/-- A tree has no more nodes than the pool has frames. -/
theorem countNodes_lt (hforest : Forest mem roots held) (hroot : root ∈ roots)
    {level : Level} {path : List Index} {frame : Frame}
    (hreach : mem.ram.Reach root level path frame) :
    mem.ram.countNodes level.down frame < 2 ^ 64 := by
  have hsub :
      (mem.ram.nodes level.down frame).toFinset ⊆ mem.pool.allocated := by
    intro node hmem
    obtain ⟨level', path', hnode, -⟩ :=
      (Ram.mem_nodes_iff hreach).1 (List.mem_toFinset.1 hmem)
    exact hforest.mem_allocated_of_reach hroot hnode
  have hcard := Finset.card_le_card hsub
  rw [List.toFinset_card_of_nodup (hforest.nodup_nodes hroot hreach),
    Ram.length_nodes, FramePool.card_allocated hforest.valid] at hcard
  have hnext := hforest.valid.next_le
  have hframes := FramePool.frames_lt hforest.valid
  rw [FramePool.allocatedCount] at hcard
  omega

end Forest

namespace Store

variable {limit : Nat} {s : Store limit} {roots : List Frame}
  {held : Finset Frame} {root : Frame}

section Lookup

variable {va : VirtAddr}

theorem lookupFrom_eq_ok (hforest : Forest s.view roots held)
    (hroot : root ∈ roots) (level : Level) {frame : Frame}
    (hreach : s.ram.Reach root level (level.pathTo va) frame) :
    s.lookupFrom root va level.down frame =
      .ok ((s.ram.walk va level.down frame).map fun hit => hit.target va) := by
  induction level using Level.induction_down generalizing frame with
  | step level ih =>
      obtain ⟨rest, hdown⟩ := level.exists_down
      have hpeek := peek_eq_ok hforest hroot hreach (level.index va)
      cases hchild : s.ram.child level ⟨frame, level.index va⟩ with
      | created node => exact absurd hchild Ram.child_ne_created
      | absent =>
          rw [Ram.walk_of_absent hchild, hdown, lookupFrom, Level.rawIndex_eq,
            hpeek, hchild]
          rfl
      | leaf e =>
          obtain ⟨size, hsize⟩ := Ram.leafSize_of_child_leaf hchild
          rw [Ram.walk_of_leaf hchild hsize, hdown, lookupFrom,
            Level.rawIndex_eq, hpeek, hchild]
          simp only [ok_bind, hsize]
          rfl
      | table node =>
          obtain ⟨below, hnext⟩ := Ram.next_of_child_table hchild
          rw [Ram.walk_of_table hnext hchild, Level.down_of_next hnext,
            lookupFrom, Level.rawIndex_eq, hpeek, hchild, Option.map_map]
          exact ih below hnext (hreach.along hnext hchild)

theorem lookup_eq_ok (hforest : Forest s.view roots held) {space : AddressSpace}
    (hroot : space.root ∈ roots) (va : VirtAddr) :
    s.lookup space.root va = .ok (space.lookup s.ram va) := by
  rw [lookup, AddressSpace.lookup, AddressSpace.find?]
  split
  · exact lookupFrom_eq_ok hforest hroot .pml4 .root
  · rfl

end Lookup

theorem countNodes_of_next {level below : Level}
    (hnext : level.next = some below) (s : Store limit) (root frame : Frame) :
    s.countNodes root level.down frame = (do
      s.access root frame
      let total ← (s.ram.node frame).present.foldlM (fun total (_, e) => do
        if level.isLeaf e then return total
        else do
          let nodes ← s.countNodes root below.down e.tableFrame
          sum total nodes) 0
      sum 1 total) := by
  cases level <;>
    simp only [Level.next, Option.some.injEq, reduceCtorEq] at hnext <;>
    subst hnext <;> rfl

theorem countNodes_eq_ok (hforest : Forest s.view roots held)
    (hroot : root ∈ roots) (level : Level) {path : List Index} {frame : Frame}
    (hreach : s.ram.Reach root level path frame) :
    s.countNodes root level.down frame =
      .ok (s.ram.countNodes level.down frame) := by
  induction level using Level.induction_down generalizing path frame with
  | step level ih =>
      cases hnext : level.next with
      | none =>
          cases level <;> simp only [Level.next, reduceCtorEq] at hnext
          rfl
      | some below =>
          have hfits := hforest.countNodes_lt hroot hreach
          change s.ram.countNodes level.down frame < 2 ^ 64 at hfits
          rw [Ram.countNodes_of_next hnext] at hfits ⊢
          rw [countNodes_of_next hnext, access_eq_ok hforest hroot hreach,
            ok_bind,
            foldlM_eq_ok (fun (_, e) =>
              if level.isLeaf e then 0
              else s.ram.countNodes below.down e.tableFrame) (by omega),
            ok_bind, Nat.zero_add, sum_eq_ok hfits]
          rintro ⟨i, e⟩ hlisted total htotal
          obtain ⟨rfl, hpresent⟩ := Node.mem_present.1 hlisted
          dsimp only at htotal ⊢
          split at htotal
          · next hleaf =>
              rw [if_pos hleaf, if_pos hleaf]
              rfl
          · next hleaf =>
              have hchild : s.ram.child level ⟨frame, i⟩ =
                  .table ((s.ram.node frame).get i).tableFrame :=
                Ram.child_of_table hpresent (Bool.eq_false_iff.2 hleaf)
              rw [if_neg hleaf, if_neg hleaf,
                ih below hnext (.step hreach hnext hchild), ok_bind,
                sum_eq_ok htotal]

end Store

end FourLevelPaging
