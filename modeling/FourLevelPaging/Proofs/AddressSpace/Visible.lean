/-
Two spaces that map the same addresses the same way.  Their nodes may lie in
different frames, but the same nodes are missing in both and the same pages are
blocked, and so they answer alike.
-/
import FourLevelPaging.Proofs.AddressSpace.Outcome
import FourLevelPaging.Proofs.AddressSpace.Unmap

namespace FourLevelPaging

/-- What a page that is mapped leaves follows from what was there before. -/
theorem Installs.unique {before after after' : VirtAddr → Option Target}
    {va : VirtAddr} {pa : PhysAddr} {size : PageSize} {flags : Flags}
    {mapped mapped' : Mapped}
    (h : Installs before after va pa size flags mapped)
    (h' : Installs before after' va pa size flags mapped') :
    mapped = mapped' ∧ after = after' := by
  constructor
  · have hinjective :
        Function.Injective fun e : Entry => (e.base, size, e.flags) := by
      intro e e' heq
      obtain ⟨hbase, -, hflags⟩ := by simpa only [Prod.mk.injEq] using heq
      exact Entry.eq_of_base_of_flags hbase hflags
    have hreplaced :=
      Option.map_injective hinjective (h.replaced.trans h'.replaced.symm)
    cases mapped
    cases mapped'
    obtain rfl := h.size_eq.trans h'.size_eq.symm
    obtain rfl := hreplaced
    rfl
  · funext a
    by_cases ha : va.toNat ≤ a.toNat ∧ a.toNat < va.toNat + size.bytes
    · rw [h.inside a ha.1 ha.2, h'.inside a ha.1 ha.2]
    · rw [h.outside a ha, h'.outside a ha]

section Removes

variable {before after after' : VirtAddr → Option Target} {va : VirtAddr}
  {target : Target} {unmapped unmapped' : Unmapped}

/-- What is left when a page is taken away follows from what was there
before. -/
theorem Removes.after_unique (h : Removes before after va target unmapped)
    (h' : Removes before after' va target unmapped') : after = after' := by
  funext a
  by_cases hpage : a.page target.size = va.page target.size
  · rw [h.inside a hpage, h'.inside a hpage]
  · rw [h.outside a hpage, h'.outside a hpage]

/-- So does what is reported of it, but for the nodes that went with it. -/
theorem Removes.unmapped_unique (h : Removes before after va target unmapped)
    (h' : Removes before after' va target unmapped')
    (hreclaimed : unmapped.reclaimed = unmapped'.reclaimed) :
    unmapped = unmapped' := by
  have hsize := h.size_eq.trans h'.size_eq.symm
  have hentry := Entry.eq_of_base_of_flags (h.base_eq.trans h'.base_eq.symm)
    (h.flags_eq.trans h'.flags_eq.symm)
  cases unmapped
  cases unmapped'
  obtain rfl := hsize
  obtain rfl := hentry
  obtain rfl := hreclaimed
  rfl

end Removes

namespace AddressSpace

variable {space space' : AddressSpace} {mem mem' : Memory}
  {pool pool' : FramePool} {roots roots' : List Frame}
  {held held' : Finset Frame} {va : VirtAddr} {pa : PhysAddr} {size : PageSize}
  {level : Level} {reason : MapError}

section Ram

variable {ram ram' : Ram} (hlookup : space.lookup ram = space'.lookup ram')

include hlookup

theorem spans_congr (level : Level) :
    space.spans ram level = space'.spans ram' level := by
  simp only [spans, hlookup]

theorem blocked_congr :
    space.Blocked ram va size level ↔ space'.Blocked ram' va size level := by
  simp only [Blocked, hlookup]

end Ram

variable (htended : mem.Tended pool roots held) (hroot : space.root ∈ roots)
  (htended' : mem'.Tended pool' roots' held') (hroot' : space'.root ∈ roots')
  (hlookup : space.lookup mem.ram = space'.lookup mem'.ram)

include htended hroot htended' hroot' hlookup

/-- The same nodes are missing on the way of an address. -/
theorem missing_congr (hcanonical : va.isCanonical = true) (size : PageSize) :
    space.missing mem.ram va size = space'.missing mem'.ram va size := by
  refine List.filter_congr fun level hmem => ?_
  obtain ⟨upper, -, hnext⟩ := List.mem_filterMap.1 hmem
  rw [decide_eq_decide,
    htended.forest.reach_iff_mem_spans htended.trim hroot hnext hcanonical,
    htended'.forest.reach_iff_mem_spans htended'.trim hroot' hnext hcanonical,
    spans_congr hlookup]

/-- Requests are refused for the same reasons if as many frames are left. -/
theorem refuses_of_visible (hfree : mem.pool.freeCount = mem'.pool.freeCount)
    (hrefuses : space.Refuses mem va pa size reason) :
    space'.Refuses mem' va pa size reason := by
  cases hrefuses with
  | nonCanonical hcanonical => exact .nonCanonical hcanonical
  | unaligned hcanonical haligned => exact .unaligned hcanonical haligned
  | conflict hcanonical haligned hblocked =>
      exact .conflict hcanonical haligned ((blocked_congr hlookup).1 hblocked)
  | outOfMemory hcanonical haligned hunblocked hmissing =>
      refine .outOfMemory hcanonical haligned
        (fun level h => hunblocked level ((blocked_congr hlookup).2 h)) ?_
      rw [← hfree,
        ← missing_congr htended hroot htended' hroot' hlookup hcanonical]
      exact hmissing

end AddressSpace

end FourLevelPaging
