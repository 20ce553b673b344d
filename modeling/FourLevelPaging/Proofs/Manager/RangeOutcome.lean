/-
How a request for a range of pages is answered.  It is refused as a whole, maps
the whole range, or stops at a page; what it leaves then is what a request for
the pages before that one leaves, and there that page is refused for the reason
given.
-/
import FourLevelPaging.Proofs.Manager.History
import FourLevelPaging.Proofs.Manager.Range

namespace FourLevelPaging

/-- The page with the given number among those of a size from `a` on. -/
def Address.nthPage {space : Space} (a : Address space) (size : PageSize)
    (k : Nat) : Address space :=
  .ofNat (a.toNat + k * size.bytes)

namespace Address

variable {space : Space} (a : Address space) (size : PageSize)

theorem nthPage_zero : a.nthPage size 0 = a := by
  rw [nthPage, Nat.zero_mul, Nat.add_zero, ofNat_toNat]

/-- The pages after the first are those from the next address on. -/
theorem nthPage_succ (k : Nat) :
    a.nthPage size (k + 1) =
      (a.wrappingAdd (BitVec.ofNat 64 size.bytes)).nthPage size k := by
  have hbytes : (BitVec.ofNat 64 size.bytes).toNat = size.bytes % 2 ^ 64 :=
    BitVec.toNat_ofNat _ _
  apply toNat_inj.1
  rw [nthPage, nthPage, toNat_ofNat, toNat_ofNat, toNat_wrappingAdd, hbytes,
    Nat.add_one_mul, Nat.add_mod_mod, Nat.mod_add_mod]
  congr 1
  omega

variable {a size}

theorem isAligned_nthPage (haligned : a.isAligned size = true) {k : Nat}
    (hlt : a.toNat + k * size.bytes < 2 ^ 64) :
    (a.nthPage size k).isAligned size = true := by
  rw [isAligned_iff] at haligned ⊢
  rw [nthPage, toNat_ofNat_of_lt hlt, Nat.add_mul_mod_self_right, haligned]

/-- The bytes from `a` on go beyond the last address. -/
def RunsOut (a : Address space) (bytes : Word) : Prop :=
  2 ^ 64 < a.toNat + bytes.toNat

/-- The last of the bytes from `a` on is that of the last address. -/
def EndsLast (a : Address space) (bytes : Word) : Prop :=
  a.toNat + bytes.toNat = 2 ^ 64

theorem runsOut_or_endsLast_iff {bytes : Word} :
    a.RunsOut bytes ∨ a.EndsLast bytes ↔ 2 ^ 64 ≤ a.toNat + bytes.toNat := by
  rw [RunsOut, EndsLast]
  omega

end Address

namespace Manager

variable {vm after : Manager} {pool : FramePool} {held : Finset Frame}
  {va : VirtAddr} {pa : PhysAddr} {bytes : Word} {size : PageSize}
  {flags : Flags} {count : Nat} {events : Array Event}

/-- A request for pages in a row that fails does so at its first page that is
refused, in the state that the pages before it have led to. -/
theorem mapPages_stops {reason : ManagerError}
    (herror : (mapPages size flags count va pa vm events).value =
      .error reason) :
    ∃ k < count, (mapPages size flags k va pa vm events).value = .ok () ∧
      ((mapPages size flags k va pa vm events).state.mapSized
          (va.nthPage size k) (pa.nthPage size k) size flags).value =
        .error reason ∧
      (mapPages size flags count va pa vm events).state =
        ((mapPages size flags k va pa vm events).state.mapSized
          (va.nthPage size k) (pa.nthPage size k) size flags).state := by
  induction count generalizing vm va pa events with
  | zero => cases herror
  | succ count ih =>
      cases hanswer : (vm.mapSized va pa size flags).value with
      | error cause =>
          simp only [Manager.mapPages, hanswer, Except.error.injEq] at herror ⊢
          refine ⟨0, Nat.succ_pos _, rfl, ?_, ?_⟩
          · simp only [Manager.mapPages, Address.nthPage_zero]
            rw [hanswer, herror]
          · simp only [Manager.mapPages, Address.nthPage_zero]
      | ok mapped =>
          simp only [Manager.mapPages, hanswer] at herror ⊢
          obtain ⟨k, hk, hreached, hrefused, hstate⟩ := ih herror
          refine ⟨k + 1, Nat.succ_lt_succ hk, ?_⟩
          simp only [Manager.mapPages, hanswer, Address.nthPage_succ]
          exact ⟨hreached, hrefused, hstate⟩

/-- Once a page is mapped, both addresses are known to be aligned. -/
theorem aligned_of_mapPages (hcount : 0 < count)
    (hok : (mapPages size flags count va pa vm events).value = .ok ()) :
    va.isAligned size = true ∧ pa.isAligned size = true := by
  obtain ⟨count, rfl⟩ :=
    Nat.exists_eq_succ_of_ne_zero (Nat.pos_iff_ne_zero.1 hcount)
  cases hanswer : (vm.mapSized va pa size flags).value with
  | error reason => simp [Manager.mapPages, hanswer] at hok
  | ok mapped =>
      exact (AddressSpace.walk_of_mapSized (afterMap_eq_ok_iff.1 hanswer)).1.2

/-- A request whose length and ends are in order is the request for its
pages. -/
theorem mapRange_of_fits (vm : Manager) (flags : Flags)
    (hva : va.toNat + count * size.bytes < 2 ^ 64)
    (hpa : pa.toNat + count * size.bytes < 2 ^ 64) :
    (vm.mapRange va pa (BitVec.ofNat 64 (count * size.bytes))
          size flags).state =
        (mapPages size flags count va pa vm #[]).state ∧
      (vm.mapRange va pa (BitVec.ofNat 64 (count * size.bytes))
          size flags).value =
        (mapPages size flags count va pa vm #[]).value.map fun _ => count := by
  have hbytes : (BitVec.ofNat 64 (count * size.bytes)).toNat =
      count * size.bytes := by
    rw [BitVec.toNat_ofNat, Nat.mod_eq_of_lt (by omega)]
  rcases vm.mapRange_cases va pa (BitVec.ofNat 64 (count * size.bytes)) size
    flags with
    ⟨⟨-, haligned⟩ | ⟨-, hends⟩, -⟩ | ⟨pages, hpages, -, -, hstate, hvalue⟩
  · have hwhole :
        size.isAligned (BitVec.ofNat 64 (count * size.bytes)) = true :=
      PageSize.isAligned_iff.2 (by rw [hbytes, Nat.mul_mod_left])
    rw [hwhole] at haligned
    cases haligned
  · omega
  · rw [hbytes] at hpages
    obtain rfl := Nat.eq_of_mul_eq_mul_right size.bytes_pos hpages
    exact ⟨hstate, hvalue⟩

/-- A request that is refused as a whole changes nothing and reports nothing. -/
theorem mapRange_eq_quiet {reason : ManagerError}
    (herror : (vm.mapRange va pa bytes size flags).value = .error reason)
    (hstate : (vm.mapRange va pa bytes size flags).state = vm)
    (hrefused : size.isAligned bytes = false ∨ 2 ^ 64 ≤ va.toNat + bytes.toNat ∨
      2 ^ 64 ≤ pa.toNat + bytes.toNat) :
    vm.mapRange va pa bytes size flags = .quiet (.error reason) vm := by
  have hevents : (vm.mapRange va pa bytes size flags).events = #[] := by
    unfold mapRange
    split
    · rfl
    · next haligned =>
        rw [Bool.not_eq_true', Bool.not_eq_false] at haligned
        rw [haligned, ← Address.isNone_checkedAdd, ← Address.isNone_checkedAdd,
          ← Bool.or_eq_true] at hrefused
        rw [if_pos (hrefused.resolve_left Bool.noConfusion)]
        rfl
  rw [Outcome.quiet, ← herror, ← hevents]
  conv => rhs; arg 2; rw [← hstate]

/-- A request for pages in a row, made to `vm`, has stopped at page `k` and left
`after`: what a request for the pages before it leaves, after one more for that
page was refused.  Asked again, that page is refused for the same reason. -/
structure StopsAt (vm after : Manager) (va : VirtAddr) (pa : PhysAddr)
    (size : PageSize) (flags : Flags) (k : Nat) (cause : MapError) : Prop where
  reached :
    (vm.mapRange va pa (BitVec.ofNat 64 (k * size.bytes)) size flags).value =
      .ok k
  refused : ((vm.mapRange va pa (BitVec.ofNat 64 (k * size.bytes))
        size flags).state.mapSized
      (va.nthPage size k) (pa.nthPage size k) size flags).value =
    .error (.map cause)
  state_eq : after =
    ((vm.mapRange va pa (BitVec.ofNat 64 (k * size.bytes))
        size flags).state.mapSized
      (va.nthPage size k) (pa.nthPage size k) size flags).state
  mapped :
    InstallsRange vm.lookup after.lookup va pa (k * size.bytes) size flags
  again :
    (after.mapSized (va.nthPage size k) (pa.nthPage size k) size flags).value =
      .error (.map cause)
  unaligned : ∀ va' pa' size', cause = .unaligned va' pa' size' → k = 0

/-- What a refused page leaves refuses it again, for the same reason. -/
theorem mapSized_again (htended : vm.Tended pool held) {reason : ManagerError}
    (herror : (vm.mapSized va pa size flags).value = .error reason) :
    ((vm.mapSized va pa size flags).state.mapSized va pa size flags).value =
      .error reason := by
  have hunchanged := unchanged_of_refused htended herror
  have htwins : vm.Twins (vm.mapSized va pa size flags).state :=
    ⟨⟨pool, held, htended⟩,
      ⟨pool, held, tended_mapSized htended va pa size flags⟩,
      hunchanged.freeCount_eq.symm,
      (vm.told_mapSized va pa size flags).active_eq.symm,
      hunchanged.lookup_eq.symm⟩
  rw [← (htwins.mapSized va pa size flags).value_eq, herror]

/-- Pages in a row that are all mapped are a range. -/
theorem installsRange_of_reached (htended : vm.Tended pool held)
    (hva : va.toNat + count * size.bytes < 2 ^ 64)
    (hpa : pa.toNat + count * size.bytes < 2 ^ 64)
    (hok : (mapPages size flags count va pa vm events).value = .ok ()) :
    InstallsRange vm.lookup
      (mapPages size flags count va pa vm events).state.lookup va pa
      (count * size.bytes) size flags := by
  obtain ⟨done, -, hrange, hall⟩ :=
    installsRange_mapPages htended hva hpa events
  rw [hall hok] at hrange
  exact hrange

theorem stopsAt_of_mapPages (htended : vm.Tended pool held)
    (hva : va.toNat + count * size.bytes < 2 ^ 64)
    (hpa : pa.toNat + count * size.bytes < 2 ^ 64) {reason : ManagerError}
    (herror : (mapPages size flags count va pa vm #[]).value = .error reason) :
    ∃ k < count, ∃ cause, reason = .map cause ∧
      vm.StopsAt (mapPages size flags count va pa vm #[]).state va pa size
        flags k cause := by
  obtain ⟨k, hk, hreached, hrefused, hstate⟩ := mapPages_stops herror
  have hle : k * size.bytes ≤ count * size.bytes :=
    Nat.mul_le_mul_right _ (Nat.le_of_lt hk)
  have hva' : va.toNat + k * size.bytes < 2 ^ 64 := by omega
  have hpa' : pa.toNat + k * size.bytes < 2 ^ 64 := by omega
  obtain ⟨hmid, hanswer⟩ := vm.mapRange_of_fits flags hva' hpa'
  have htended' :=
    tended_mapRange htended va pa (BitVec.ofNat 64 (k * size.bytes)) size flags
  rw [← hmid] at hrefused hstate
  obtain ⟨cause, rfl, hrefuses⟩ := (mapSized_eq_error_iff htended').1 hrefused
  have hrange := installsRange_of_reached htended hva' hpa' hreached
  rw [← hmid] at hrange
  refine ⟨k, hk, cause, rfl, ⟨?_, hrefused, hstate, ?_, ?_, ?_⟩⟩
  · rw [hanswer, hreached]
    rfl
  · rw [hstate, (unchanged_of_refused htended' hrefused).lookup_eq]
    exact hrange
  · rw [hstate]
    exact mapSized_again htended' hrefused
  · rintro va' pa' size' rfl
    cases hrefuses with
    | unaligned _ haligned =>
        by_contra hfirst
        obtain ⟨halignedVa, halignedPa⟩ :=
          aligned_of_mapPages (Nat.pos_of_ne_zero hfirst) hreached
        rw [Address.isAligned_nthPage halignedVa hva',
          Address.isAligned_nthPage halignedPa hpa'] at haligned
        cases haligned

/-- A request for a range that is carried out maps all of its pages, and nothing
else.  Refused for its length or its ends, it does nothing; refused for a page,
it has mapped the pages before that one, and nothing else. -/
theorem mapRange_outcome (hreachable : vm.Reachable) (va : VirtAddr)
    (pa : PhysAddr) (bytes : Word) (size : PageSize) (flags : Flags) :
    (∀ count, (vm.mapRange va pa bytes size flags).value = .ok count →
        count = bytes.toNat / size.bytes ∧
          InstallsRange vm.lookup
            (vm.mapRange va pa bytes size flags).state.lookup va pa
            bytes.toNat size flags) ∧
      ∀ reason, (vm.mapRange va pa bytes size flags).value = .error reason →
        ((reason = .rangeLength bytes size ∨ reason = .rangeOverflow va bytes) ∧
            vm.mapRange va pa bytes size flags = .quiet (.error reason) vm) ∨
          ∃ k < bytes.toNat / size.bytes, ∃ cause, reason = .map cause ∧
            vm.StopsAt (vm.mapRange va pa bytes size flags).state va pa size
              flags k cause := by
  obtain ⟨pool, held, htended⟩ := hreachable.tended
  rcases vm.mapRange_cases va pa bytes size flags with
    ⟨hrefused, hstate⟩ | ⟨pages, hbytes, hva, hpa, hstate, hvalue⟩
  · rcases hrefused with ⟨herror, haligned⟩ | ⟨herror, hends⟩
    · refine ⟨fun count hok => ?_, fun reason hreason => ?_⟩
      · rw [herror] at hok
        cases hok
      · obtain rfl := Except.error.inj (herror.symm.trans hreason)
        exact Or.inl ⟨Or.inl rfl,
          mapRange_eq_quiet herror hstate (Or.inl haligned)⟩
    · refine ⟨fun count hok => ?_, fun reason hreason => ?_⟩
      · rw [herror] at hok
        cases hok
      · obtain rfl := Except.error.inj (herror.symm.trans hreason)
        exact Or.inl ⟨Or.inr rfl,
          mapRange_eq_quiet herror hstate (Or.inr hends)⟩
  · have hpages : bytes.toNat / size.bytes = pages := by
      rw [hbytes, Nat.mul_div_cancel _ size.bytes_pos]
    rw [hbytes] at hva hpa
    cases hdone : (mapPages size flags pages va pa vm #[]).value with
    | ok _ =>
        have hrange := installsRange_of_reached htended hva hpa hdone
        rw [hvalue, hdone, hstate, hpages, hbytes]
        refine ⟨fun count hok => ⟨(Except.ok.inj hok).symm, hrange⟩,
          fun reason hreason => ?_⟩
        cases hreason
    | error reason =>
        rw [hvalue, hdone, hstate, hpages]
        refine ⟨fun count hok => ?_, fun reason' hreason => ?_⟩
        · cases hok
        · obtain rfl := Except.error.inj hreason
          exact Or.inr (stopsAt_of_mapPages htended hva hpa hdone)

/-- Two pages are mapped; of two more, the second lies above the last canonical
address; and a length that is not a whole number of pages is refused. -/
theorem mapRange_outcome_hole :
    (small.mapRange ⟨0x1000⟩ ⟨0x5000⟩ 0x2000 .fourK .kernelRW).value = .ok 2 ∧
      InstallsRange small.lookup
        (small.mapRange ⟨0x1000⟩ ⟨0x5000⟩ 0x2000 .fourK .kernelRW).state.lookup
        ⟨0x1000⟩ ⟨0x5000⟩ 0x2000 .fourK .kernelRW ∧
      (∃ k < 2, small.StopsAt
        (small.mapRange ⟨0x7ffffffff000⟩ ⟨0x5000⟩ 0x2000 .fourK .kernelRW).state
        ⟨0x7ffffffff000⟩ ⟨0x5000⟩ .fourK .kernelRW k
        (.nonCanonical ⟨0x800000000000⟩)) ∧
      small.mapRange ⟨0x1000⟩ ⟨0x5000⟩ 0x1001 .fourK .kernelRW =
        .quiet (.error (.rangeLength 0x1001 .fourK)) small := by
  have hok : (small.mapRange ⟨0x1000⟩ ⟨0x5000⟩ 0x2000 .fourK .kernelRW).value =
      .ok 2 := by
    decide +kernel
  have hhole :
      (small.mapRange ⟨0x7ffffffff000⟩ ⟨0x5000⟩ 0x2000 .fourK .kernelRW).value =
        .error (.map (.nonCanonical ⟨0x800000000000⟩)) := by
    decide +kernel
  have hlength :
      (small.mapRange ⟨0x1000⟩ ⟨0x5000⟩ 0x1001 .fourK .kernelRW).value =
        .error (.rangeLength 0x1001 .fourK) := by
    decide +kernel
  have hmapped := (mapRange_outcome reachable_small _ _ _ _ _).1 2 hok
  have hstops := (mapRange_outcome reachable_small _ _ _ _ _).2 _ hhole
  have hrefused := (mapRange_outcome reachable_small _ _ _ _ _).2 _ hlength
  refine ⟨hok, hmapped.2, ?_, ?_⟩
  · rcases hstops with ⟨h | h, -⟩ | ⟨k, hk, cause, hcause, hstops⟩
    · cases h
    · cases h
    · obtain rfl := ManagerError.map.inj hcause
      exact ⟨k, hk, hstops⟩
  · rcases hrefused with ⟨-, hquiet⟩ | ⟨_, _, _, h, -⟩
    · exact hquiet
    · cases h

/-- A page is refused for what it is, never for where the range it belongs to
ends. -/
theorem mapPages_ne_rangeOverflow {va' : VirtAddr} :
    (mapPages size flags count va pa vm events).value ≠
      .error (.rangeOverflow va' bytes) := by
  intro herror
  obtain ⟨_, -, -, hrefused, -⟩ := mapPages_stops herror
  obtain ⟨_, hcause, -⟩ := afterMap_eq_error_iff.1 hrefused
  cases hcause

/-- A request for whole pages is refused for its ends exactly if at one of the
two addresses the range goes beyond the last address or ends with it, and then
it does nothing.  Any other is the request for its pages. -/
theorem mapRange_rangeOverflow_iff (vm : Manager) (va : VirtAddr)
    (pa : PhysAddr) (bytes : Word) (size : PageSize) (flags : Flags)
    (haligned : size.isAligned bytes = true) :
    ((vm.mapRange va pa bytes size flags).value =
          .error (.rangeOverflow va bytes) ↔
        (va.RunsOut bytes ∨ pa.RunsOut bytes) ∨ va.EndsLast bytes ∨
          pa.EndsLast bytes) ∧
      ((vm.mapRange va pa bytes size flags).value =
          .error (.rangeOverflow va bytes) →
        vm.mapRange va pa bytes size flags =
          .quiet (.error (.rangeOverflow va bytes)) vm) ∧
      ((vm.mapRange va pa bytes size flags).value ≠
          .error (.rangeOverflow va bytes) →
        (vm.mapRange va pa bytes size flags).state =
            (mapPages size flags (bytes.toNat / size.bytes) va
              pa vm #[]).state ∧
          (vm.mapRange va pa bytes size flags).value =
            (mapPages size flags (bytes.toNat / size.bytes) va
              pa vm #[]).value.map fun _ => bytes.toNat / size.bytes) := by
  rw [or_or_or_comm, Address.runsOut_or_endsLast_iff,
    Address.runsOut_or_endsLast_iff]
  rcases vm.mapRange_cases va pa bytes size flags with
    ⟨⟨-, hlength⟩ | ⟨herror, hends⟩, hstate⟩ |
      ⟨pages, hbytes, hva, hpa, hstate, hvalue⟩
  · rw [haligned] at hlength
    cases hlength
  · have hquiet := mapRange_eq_quiet herror hstate (Or.inr hends)
    exact ⟨⟨fun _ => hends, fun _ => herror⟩, fun _ => hquiet,
      fun h => absurd herror h⟩
  · have hpages : bytes.toNat / size.bytes = pages := by
      rw [hbytes, Nat.mul_div_cancel _ size.bytes_pos]
    have hne : (vm.mapRange va pa bytes size flags).value ≠
        .error (.rangeOverflow va bytes) := by
      rw [hvalue]
      intro herror
      cases hdone : (mapPages size flags pages va pa vm #[]).value with
      | ok _ =>
          rw [hdone] at herror
          cases herror
      | error reason =>
          rw [hdone] at herror
          obtain rfl := Except.error.inj herror
          exact mapPages_ne_rangeOverflow hdone
    rw [hpages]
    exact ⟨⟨fun h => absurd h hne, by omega⟩, fun h => absurd h hne,
      fun _ => ⟨hstate, hvalue⟩⟩

/-- The last page of the address space, as a range, and the page before it. -/
theorem mapRange_rangeOverflow_iff_top :
    small.mapRange ⟨0xfffffffffffff000⟩ ⟨0x5000⟩ 0x1000 .fourK .kernelRW =
        .quiet (.error (.rangeOverflow ⟨0xfffffffffffff000⟩ 0x1000)) small ∧
      (small.mapSized ⟨0xfffffffffffff000⟩ ⟨0x5000⟩ .fourK .kernelRW).value =
        .ok ⟨.fourK, none⟩ ∧
      (small.mapRange ⟨0xffffffffffffe000⟩ ⟨0x5000⟩ 0x1000 .fourK
          .kernelRW).state =
        (mapPages .fourK .kernelRW 1 ⟨0xffffffffffffe000⟩ ⟨0x5000⟩
          small #[]).state := by
  have hlast := mapRange_rangeOverflow_iff small ⟨0xfffffffffffff000⟩ ⟨0x5000⟩
    0x1000 .fourK .kernelRW (by decide)
  have hbefore := mapRange_rangeOverflow_iff small ⟨0xffffffffffffe000⟩ ⟨0x5000⟩
    0x1000 .fourK .kernelRW (by decide)
  have hends : (⟨0xfffffffffffff000⟩ : VirtAddr).EndsLast 0x1000 := by
    rw [Address.EndsLast]
    decide
  have hpage : (small.mapRange ⟨0xffffffffffffe000⟩ ⟨0x5000⟩ 0x1000 .fourK
        .kernelRW).value ≠
      .error (.rangeOverflow ⟨0xffffffffffffe000⟩ 0x1000) := by
    decide +kernel
  exact ⟨hlast.2.1 (hlast.1.2 (Or.inr (Or.inl hends))), by decide +kernel,
    (hbefore.2.2 hpage).1⟩

/-- It is not true that a request for whole pages is refused for its ends only
if one of its ranges goes beyond the last address. -/
theorem not_mapRange_rangeOverflow_iff_runsOut :
    ¬∀ vm : Manager, vm.Reachable →
      ∀ (va : VirtAddr) (pa : PhysAddr) (bytes : Word)
        (size : PageSize) (flags : Flags), size.isAligned bytes = true →
        ((vm.mapRange va pa bytes size flags).value =
            .error (.rangeOverflow va bytes) ↔
          va.RunsOut bytes ∨ pa.RunsOut bytes) := by
  intro h
  have herror : (small.mapRange ⟨0xfffffffffffff000⟩ ⟨0x5000⟩ 0x1000 .fourK
        .kernelRW).value =
      .error (.rangeOverflow ⟨0xfffffffffffff000⟩ 0x1000) := by
    decide +kernel
  have hruns := (h small reachable_small ⟨0xfffffffffffff000⟩ ⟨0x5000⟩ 0x1000
    .fourK .kernelRW (by decide)).1 herror
  rw [Address.RunsOut, Address.RunsOut] at hruns
  exact absurd hruns (by decide)

end Manager

end FourLevelPaging
