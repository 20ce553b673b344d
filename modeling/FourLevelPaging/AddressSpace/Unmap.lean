/-
Unmapping one page.  The nodes left without entries are taken out from the leaf
upwards; the root stays.
-/
import FourLevelPaging.AddressSpace.Walk

namespace FourLevelPaging

/-- What an unmapping took away: the leaf, its size and how many nodes went with
it. -/
structure Unmapped where
  size : PageSize
  entry : Entry
  reclaimed : Nat
deriving DecidableEq

/-- Takes out empty nodes along a path that lists its places deepest first, up
to the first node that still has entries. -/
def Memory.reclaim : List Cell → Memory → Reported Memory Nat
  | cell :: parent :: rest, mem =>
      if (mem.ram.node cell.frame).isEmpty then
        let freed := (mem.clear parent.frame parent.index).giveBack cell.frame
        let others := reclaim (parent :: rest) freed.state
        ⟨others.value + 1, others.state,
          freed.events.push (.nodeReclaimed cell.frame) ++ others.events⟩
      else .quiet 0 mem
  | _, mem => .quiet 0 mem

/-- Takes away the leaf that covers `va`, whatever its size. -/
def AddressSpace.unmap (space : AddressSpace) (mem : Memory) (va : VirtAddr) :
    Reported Memory (Option Unmapped) :=
  match space.find? mem.ram va with
  | none => .quiet none mem
  | some hit =>
      let freed := Memory.reclaim (hit.cell :: hit.above.reverse)
        (mem.clear hit.cell.frame hit.cell.index)
      ⟨some ⟨hit.size, hit.entry, freed.value⟩, freed.state,
        #[.leafUnmapped va hit.size] ++ freed.events⟩

end FourLevelPaging
