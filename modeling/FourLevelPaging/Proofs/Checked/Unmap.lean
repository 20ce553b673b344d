/-
Unmapping never leaves memory or its array of four.  A way passes at most four
nodes, all of them nodes of the tree; going up again, the node above the one
that is taken out is still one.
-/
import FourLevelPaging.Proofs.AddressSpace.Unmap
import FourLevelPaging.Proofs.Checked.Map
import FourLevelPaging.Proofs.Checked.Walk

namespace FourLevelPaging

open Checked

/-- The place as a frame and a number. -/
def Cell.raw (cell : Cell) : Frame × Nat := (cell.frame, cell.index.val)

theorem Ram.Trail.height_add_length {ram : Ram} {root : Frame} {va : VirtAddr}
    {level : Level} {cells : List Cell} (h : ram.Trail root va level cells) :
    level.height + cells.length = 3 := by
  induction h with
  | root => rfl
  | step _ _ hnext ih =>
      have hheight := Level.height_of_next hnext
      rw [List.length_cons]
      omega

namespace Passed

/-- The note of the places that were passed. -/
def of (root : Frame) (cells : List Cell) : Passed :=
  { cells := noted 4 (root, 0) (cells.map Cell.raw)
    depth := cells.length }

theorem of_nil (root : Frame) : of root [] = none root := by
  rw [of, none, List.map_nil, noted_nil]
  rfl

/-- There is room to note a fourth place. -/
theorem push_of (root : Frame) {cells : List Cell} (hroom : cells.length < 4)
    (cell : Cell) :
    (of root cells).push cell.raw = .ok (of root (cells ++ [cell])) := by
  have hset : setItem (of root cells).cells (of root cells).depth cell.raw =
      .ok (of root (cells ++ [cell])).cells := by
    have hlength : (cells.map Cell.raw).length = cells.length :=
      List.length_map _
    have hnoted := setItem_noted (root, 0) cell.raw (hlength ▸ hroom)
    rw [hlength] at hnoted
    rw [of, hnoted, of, List.map_append]
    rfl
  have hdepth : (of root cells).depth = cells.length := rfl
  rw [push, hset, ok_bind, hdepth, sum_eq_ok (by omega), ok_bind, pure_eq_ok]
  simp only [of, List.length_append, List.length_singleton]

theorem slice_of (root : Frame) {cells : List Cell} (hfits : cells.length ≤ 4) :
    slice (of root cells).cells.toList (of root cells).depth =
      .ok (cells.map Cell.raw) := by
  have hlength : (cells.map Cell.raw).length = cells.length := List.length_map _
  have htake := take_noted (root, 0) (hlength ▸ hfits)
  rw [hlength] at htake
  rw [slice_eq_ok (by rw [Vector.length_toList]; exact hfits), of, htake]

end Passed

/-- What an unmapping knows of the leaf that a walk finds, after the places in
`before`. -/
def Found.of (root : Frame) (before : List Cell) (hit : Hit) : Found :=
  ⟨.of root (before ++ (hit.above ++ [hit.cell])), hit.cell.raw, hit.entry,
    hit.size⟩

namespace Store

variable {limit : Nat} {s : Store limit} {roots : List Frame}
  {held : Finset Frame} {root : Frame} {va : VirtAddr}

theorem find?_eq_ok (hforest : Forest s.view roots held) (hroot : root ∈ roots)
    (level : Level) {frame : Frame}
    (hreach : s.ram.Reach root level (level.pathTo va) frame)
    (before : List Cell) (hroom : before.length + level.height ≤ 3) :
    s.find? root va level.down frame (.of root before) =
      .ok ((s.ram.walk va level.down frame).map (.of root before)) := by
  induction level using Level.induction_down generalizing frame before with
  | step level ih =>
      obtain ⟨rest, hdown⟩ := level.exists_down
      have hpush : (Passed.of root before).push (frame, (level.index va).val) =
          .ok (.of root (before ++ [⟨frame, level.index va⟩])) :=
        Passed.push_of root (by omega) ⟨frame, level.index va⟩
      have hpeek := peek_eq_ok hforest hroot hreach (level.index va)
      cases hchild : s.ram.child level ⟨frame, level.index va⟩ with
      | created node => exact absurd hchild Ram.child_ne_created
      | absent =>
          rw [Ram.walk_of_absent hchild, hdown, find?, Level.rawIndex_eq, hpush,
            ok_bind, hpeek, hchild]
          rfl
      | leaf e =>
          obtain ⟨size, hsize⟩ := Ram.leafSize_of_child_leaf hchild
          rw [Ram.walk_of_leaf hchild hsize, hdown, find?, Level.rawIndex_eq,
            hpush, ok_bind, hpeek, hchild]
          simp only [ok_bind, hsize]
          rfl
      | table node =>
          obtain ⟨below, hnext⟩ := Ram.next_of_child_table hchild
          have hheight := Level.height_of_next hnext
          rw [Ram.walk_of_table hnext hchild, Level.down_of_next hnext, find?,
            Level.rawIndex_eq, hpush, ok_bind, hpeek, hchild, Option.map_map]
          refine (ih below hnext (hreach.along hnext hchild) _ ?_).trans ?_
          · rw [List.length_append, List.length_singleton]
            omega
          · congr 2
            funext hit
            simp [Found.of]

/-- Going up from a node of the way, every node that is emptied or taken out is
one of the tree. -/
theorem carries_reclaim (hsound : s.Sound) (hforest : Forest s.view roots held)
    (hroot : root ∈ roots) {level : Level} {node : Frame} {cells : List Cell}
    (hreach : s.ram.Reach root level (level.pathTo va) node)
    (htrail : s.ram.Trail root va level cells) (i : Index)
    {path tail : List Cell} (hpath : path = cells.reverse ++ ⟨node, i⟩ :: tail)
    (freed : Nat) (hfits : freed + cells.length < 2 ^ 64) :
    Carries view Sound (s.reclaim root (path.map Cell.raw) cells.length freed)
      ((s.view.reclaim (⟨node, i⟩ :: cells)).mapValue (freed + ·)) := by
  induction cells generalizing s level node i tail freed with
  | nil => exact ⟨_, rfl, hsound, rfl⟩
  | cons parent rest ih =>
      rw [List.reverse_cons, List.append_assoc, List.singleton_append] at hpath
      rw [List.length_cons] at hfits ⊢
      have hnode : item (path.map Cell.raw) (rest.length + 1) =
          .ok (node, i.val) := by
        apply item_eq_ok
        simp [hpath, Cell.raw]
      have hparent : item (path.map Cell.raw) rest.length =
          .ok (parent.frame, parent.index.val) := by
        apply item_eq_ok
        simp [hpath, Cell.raw]
      rw [reclaim, hnode, ok_bind]
      dsimp only
      rw [access_eq_ok hforest hroot hreach, ok_bind, Memory.reclaim]
      split
      · next hempty =>
          obtain ⟨hkept, -, upper, hupper, htrail'⟩ :=
            hforest.climb hroot hreach htrail hempty
          have hgiven : Carries view Sound (giveBack { s with
                ram := s.ram.write parent.frame parent.index .empty } node)
              ((s.view.clear parent.frame parent.index).giveBack node) :=
            carries_giveBack (s :=
                { s with ram := s.ram.write parent.frame parent.index .empty })
              hsound hforest.valid node
          obtain ⟨above, way, hreach'⟩ :
              ∃ above way, s.ram.Reach root above way parent.frame := by
            cases htrail with
            | step _ hreach' _ => exact ⟨_, _, hreach'⟩
          have hempty' : (s.view.ram.node (⟨node, i⟩ : Cell).frame).isEmpty =
              true := hempty
          rw [if_pos hempty', difference_eq_ok (by omega), ok_bind,
            Nat.add_sub_cancel, hparent, ok_bind]
          dsimp only
          rw [access_eq_ok hforest hroot hreach', ok_bind, put_eq_ok, ok_bind]
          refine hgiven.bind fun given hsound' hstep => ?_
          rw [← hstep] at hkept hupper htrail' ⊢
          rw [sum_eq_ok (by omega), ok_bind]
          have hrest : Carries view Sound (given.state.reclaim root
                (path.map Cell.raw) rest.length (freed + 1))
              ((given.state.view.reclaim (parent :: rest)).mapValue
                (freed + 1 + ·)) :=
            ih hsound' hkept.forest hupper htrail' parent.index hpath
              (freed + 1) (by omega)
          refine hrest.bind fun others hsound'' hothers =>
            ⟨_, rfl, hsound'', ?_⟩
          simp only [Outcome.mapState, Outcome.mapValue, Outcome.mk.injEq]
            at hothers ⊢
          rcases hothers with ⟨hcount, hstate, hevents⟩
          exact ⟨by omega, hstate, by rw [hevents]⟩
      · next hempty =>
          have hempty' : ¬(s.view.ram.node (⟨node, i⟩ : Cell).frame).isEmpty =
              true := hempty
          rw [if_neg hempty']
          exact ⟨_, rfl, hsound, rfl⟩

/-- Clearing the leaf that was found, and going up from its node. -/
theorem carries_reclaim_hit (hsound : s.Sound)
    (hforest : Forest s.view roots held) {space : AddressSpace}
    (hroot : space.root ∈ roots) {hit : Hit}
    (hfind : space.find? s.view.ram va = some hit) :
    Carries view Sound (reclaim space.root
        ((hit.above ++ [hit.cell]).map Cell.raw) hit.above.length 0
        { s with ram := s.ram.write hit.cell.frame hit.cell.index .empty })
      (Memory.reclaim (hit.cell :: hit.above.reverse)
        (s.view.clear hit.cell.frame hit.cell.index)) := by
  obtain ⟨-, -, hleaf, htrail⟩ := AddressSpace.leafAt_hit hfind
  have hlength := htrail.height_add_length
  rw [List.length_reverse] at hlength
  have hiff : ∀ {level path frame},
      (s.view.clear hit.cell.frame hit.cell.index).ram.Reach space.root level
          path frame ↔
        s.view.ram.Reach space.root level path frame :=
    AddressSpace.reach_cleared_iff hforest hroot hfind hroot
  have hcleared := AddressSpace.forest_cleared hforest hroot hfind
  have hpath : hit.above ++ [hit.cell] =
      hit.above.reverse.reverse ++ [⟨hit.cell.frame, hit.cell.index⟩] := by
    rw [List.reverse_reverse]
  have hclimb := carries_reclaim
    (s := { s with ram := s.ram.write hit.cell.frame hit.cell.index .empty })
    hsound hcleared
    hroot (hiff.2 hleaf.reach) (htrail.congr fun _ h => hiff.2 h) hit.cell.index
    hpath 0 (by rw [List.length_reverse]; omega)
  rw [List.length_reverse] at hclimb
  obtain ⟨out, hrun, hsound', hout⟩ := hclimb
  refine ⟨out, hrun, hsound', hout.trans ?_⟩
  simp only [Outcome.mapValue, Nat.zero_add]
  rfl

theorem carries_unmap (hsound : s.Sound) (hforest : Forest s.view roots held)
    {space : AddressSpace} (hroot : space.root ∈ roots) (va : VirtAddr) :
    Carries view Sound (s.unmap space.root va) (space.unmap s.view va) := by
  rw [unmap]
  split
  · next hcanonical =>
      have hwalk :
          s.find? space.root va Level.all space.root (.of space.root []) = _ :=
        find?_eq_ok hforest hroot .pml4 .root [] (Nat.le_refl 3)
      rw [← Passed.of_nil, hwalk, ok_bind]
      cases hfound : s.ram.walk va Level.pml4.down space.root with
      | none =>
          have hfind : space.find? s.view.ram va = none :=
            (if_pos hcanonical).trans hfound
          rw [AddressSpace.unmap_of_find?_eq_none hfind]
          exact ⟨_, rfl, hsound, rfl⟩
      | some hit =>
          have hfind : space.find? s.view.ram va = some hit :=
            (if_pos hcanonical).trans hfound
          obtain ⟨-, -, hleaf, htrail⟩ := AddressSpace.leafAt_hit hfind
          have hlength := htrail.height_add_length
          rw [List.length_reverse] at hlength
          have hpath : (hit.above ++ [hit.cell]).length =
              hit.above.length + 1 :=
            List.length_append
          rw [AddressSpace.unmap_of_find? hfind]
          simp only [Option.map_some, Found.of, List.nil_append, Cell.raw]
          rw [access_eq_ok hforest hroot hleaf.reach, ok_bind, put_eq_ok,
            ok_bind, Passed.slice_of _ (by omega), ok_bind, List.length_map,
            hpath, Nat.add_sub_cancel]
          refine (carries_reclaim_hit hsound hforest hroot hfind).bind
            fun freed hsound' hfreed => ⟨_, rfl, hsound', ?_⟩
          rw [← hfreed]
          rfl
  · next hcanonical =>
      have hfind : space.find? s.view.ram va = none := if_neg hcanonical
      rw [AddressSpace.unmap_of_find?_eq_none hfind]
      exact ⟨_, rfl, hsound, rfl⟩

end Store

end FourLevelPaging
