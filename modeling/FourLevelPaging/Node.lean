/-
Nodes of the tree: one frame holding 512 entries.  A node is known by the entry
at each index, and every change is described by what it does there.
-/
import FourLevelPaging.Level

namespace FourLevelPaging

structure Node where
  entries : Vector Entry 512

namespace Node

/-- The node with the given entry at each index. -/
def ofFn (entry : Index → Entry) : Node := ⟨Vector.ofFn entry⟩

/-- The node without any entry. -/
def zeroed : Node := ⟨Vector.replicate 512 .empty⟩

def get (node : Node) (i : Index) : Entry := node.entries[i]

def set (node : Node) (i : Index) (e : Entry) : Node :=
  ⟨node.entries.set i e⟩

def clear (node : Node) (i : Index) : Node := node.set i .empty

@[simp]
theorem get_zeroed (i : Index) : zeroed.get i = .empty := by
  simp [zeroed, get]

theorem get_set (node : Node) (i j : Index) (e : Entry) :
    (node.set i e).get j = if i = j then e else node.get j := by
  simp [set, get, Vector.getElem_set, Fin.ext_iff]

@[simp]
theorem get_set_self (node : Node) (i : Index) (e : Entry) :
    (node.set i e).get i = e := by
  simp [get_set]

theorem ext {a b : Node} (h : ∀ i, a.get i = b.get i) : a = b := by
  cases a with
  | mk x =>
      cases b with
      | mk y =>
          congr
          apply Vector.ext
          intro i hi
          exact h ⟨i, hi⟩

/-- The present entries with their indices, lowest index first. -/
def present (node : Node) : List (Index × Entry) :=
  ((List.finRange 512).zip node.entries.toList).filter fun listed =>
    listed.2.present

theorem mem_present {node : Node} {i : Index} {e : Entry} :
    (i, e) ∈ node.present ↔ node.get i = e ∧ e.present = true := by
  simp only [present, List.mem_filter]
  constructor
  · rintro ⟨hmem, hp⟩
    obtain ⟨k, hk, heq⟩ := List.getElem_of_mem hmem
    simp only [List.getElem_zip, List.getElem_finRange, Prod.mk.injEq] at heq
    refine ⟨?_, hp⟩
    rw [← heq.1, ← heq.2]
    simp [get]
  · rintro ⟨rfl, hp⟩
    refine ⟨?_, hp⟩
    rw [List.mem_iff_getElem]
    refine ⟨i.val, by simp, ?_⟩
    simp [get]

/-- No entry is present. -/
def isEmpty (node : Node) : Bool :=
  node.entries.toList.all fun e => !e.present

theorem isEmpty_iff {node : Node} :
    node.isEmpty = true ↔ ∀ i, (node.get i).present = false := by
  simp only [isEmpty, List.all_eq_true, Bool.not_eq_true',
    Vector.mem_toList_iff, Vector.mem_iff_getElem]
  constructor
  · intro h i
    exact h _ ⟨i.val, i.isLt, rfl⟩
  · rintro h e ⟨i, hi, rfl⟩
    exact h ⟨i, hi⟩

/-- How many entries are present. -/
def presentCount (node : Node) : Nat :=
  node.entries.toList.countP fun e => e.present

end Node

end FourLevelPaging
