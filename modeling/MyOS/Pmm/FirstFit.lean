import MyOS.Pmm.Exclusive

/-!
# The search of the page allocator

The search of `pmm_alloc_pages` is the library's `FirstFit.seek`, so an answer is the least page at
which the run fits. What is left is the guard in front of it, which refuses a count above
`total_pages_count` without a search: as long as the counter covers the clear pages of the range, no
run of that length can exist (`count_le_card_clearPages`). The null pointer is the address of page
0, which the managed range of `pmm_initialize` does not contain (`reachable_consistent`).
-/

namespace MyOS.Pmm

open DisjointSets

/-- The clear pages of the managed range. -/
def clearPages (p : Pmm) : Finset ℕ :=
  (Finset.Ico (p.managedStart.toNat / 4096) (p.managedEnd.toNat / 4096)).filter
    fun k => p.bitmapTest k = false

/-- The pages at which a run of `count` clear pages fits in the managed range. -/
def freeRuns (p : Pmm) (count : UInt32) : Set ℕ :=
  FirstFit.fits p.bitmapTest (p.managedStart.toNat / 4096) (p.managedEnd.toNat / 4096) count.toNat

/-- A run of clear pages has no more pages than are clear. -/
theorem count_le_card_clearPages {p : Pmm} {count : UInt32} (h : (p.freeRuns count).Nonempty) :
    count.toNat ≤ p.clearPages.card := by
  obtain ⟨r, hlo, hhi, hrun⟩ := h
  rw [← card_pageRun r count.toNat]
  refine Finset.card_le_card fun k hk => ?_
  obtain ⟨hk1, hk2⟩ := mem_pageRun.mp hk
  exact Finset.mem_filter.mpr ⟨Finset.mem_Ico.mpr ⟨by omega, by omega⟩, hrun k hk1 hk2⟩

/-- In every state of every run from `pmm_initialize` the managed range begins behind page 0, and
`total_pages_count` covers the clear pages. -/
theorem reachable_consistent (p0 : Pmm) (image : KernelImage) (entries : List E820Entry) {p : Pmm}
    {ledger : List (Finset ℕ)} (h : Reachable (p0.pmmInitialize image.kernelEnd entries) p ledger) :
    4096 ≤ p.managedStart.toNat ∧ p.clearPages.card ≤ p.totalPagesCount.toNat := by
  obtain ⟨usable, hstart, -⟩ := pmmInitialize_tracks p0 image entries
  obtain ⟨htracks, -⟩ := reachable_tracks hstart h
  have hpos := htracks.start_pos
  have halign := htracks.start_aligned
  refine ⟨by omega, ?_⟩
  rw [htracks.total]
  refine Finset.card_le_card fun k hk => ?_
  obtain ⟨hrange, hclear⟩ := Finset.mem_filter.mp hk
  obtain ⟨hlo, hhi⟩ := Finset.mem_Ico.mp hrange
  have hlimit := htracks.limit (by omega)
  exact ((htracks.bit k (by omega)).mp hclear).1

/-- The answer of the search in `pmm_alloc_pages`. -/
theorem seek_finds_managed (p : Pmm) {count : UInt32} (hcount : 1 ≤ count.toNat) :
    FirstFit.Finds p.bitmapTest (p.managedStart.toNat / 4096) (p.managedEnd.toNat / 4096)
      count.toNat (FirstFit.seek p.bitmapTest count.toNat (p.managedEnd / pageSize).toNat
        ((p.managedEnd / pageSize).toNat - (p.managedStart / pageSize).toNat)
        (p.managedStart / pageSize).toNat) := by
  rw [toNat_div_pageSize, toNat_div_pageSize]
  exact FirstFit.seek_finds hcount

/-- **`pmm_alloc_pages` is an exact first fit.** With counters that cover the clear pages of the
managed range, a call takes the least run that fits, sets its bits and no other, and counts its
pages; when no run fits it returns null and changes nothing. The two outcomes are told apart by the
address as long as page 0 is not managed. -/
theorem pmmAllocPages_exact_firstFit (p : Pmm) (count : UInt32)
    (hfree : p.clearPages.card ≤ p.totalPagesCount.toNat) (hcount : 1 ≤ count.toNat) :
    (4096 ≤ p.managedStart.toNat → ((p.pmmAllocPages count).1 ≠ 0 ↔ (p.freeRuns count).Nonempty)) ∧
    ((p.freeRuns count).Nonempty → ∃ page, IsLeast (p.freeRuns count) page ∧
      (p.pmmAllocPages count).1.toNat = page * 4096 ∧
      (∀ k, (p.pmmAllocPages count).2.bitmapTest k = true ↔
        p.bitmapTest k = true ∨ (page ≤ k ∧ k < page + count.toNat)) ∧
      (p.pmmAllocPages count).2 = { p with
          pageBitmap := (p.pmmAllocPages count).2.pageBitmap
          usedPagesCount := p.usedPagesCount + count }) ∧
    (p.freeRuns count = ∅ → p.pmmAllocPages count = (0, p)) := by
  have hfinds := p.seek_finds_managed hcount
  have hne0 : count ≠ 0 := fun h0 => by rw [h0] at hcount; cases hcount
  rcases Set.eq_empty_or_nonempty (p.freeRuns count) with hempty | hne
  · have hfail : p.pmmAllocPages count = (0, p) := by
      unfold pmmAllocPages
      dsimp only
      rw [hfinds.eq_none_iff.mpr hempty]
      exact ite_self _
    rw [hfail, hempty]
    exact ⟨fun _ => ⟨fun h => absurd rfl h, fun h => absurd h Set.not_nonempty_empty⟩,
      fun h => absurd h Set.not_nonempty_empty, fun _ => rfl⟩
  · obtain ⟨page, hseek, hleast⟩ := hfinds.exists_of_nonempty hne
    -- the guard lets every count through for which there is a run
    have hguard : ¬ (count = 0 ∨ count > p.totalPagesCount) := by
      have hle := (count_le_card_clearPages hne).trans hfree
      rw [not_or, gt_iff_lt, UInt32.lt_iff_toNat_lt]
      exact ⟨hne0, by omega⟩
    have hfound : p.pmmAllocPages count = (UInt32.ofNat page * pageSize, { p with
          pageBitmap := WordBitmap.setRun p.pageBitmap page count.toNat
          usedPagesCount := p.usedPagesCount + count }) := by
      unfold pmmAllocPages
      rw [if_neg hguard, hseek]
    obtain ⟨hlo, hhi, -⟩ := hleast.1
    have hend := p.managedEnd.toNat_lt
    -- the run ends below the end of the range, so its address does not wrap
    have haddr : (UInt32.ofNat page * pageSize).toNat = page * 4096 := by
      rw [UInt32.toNat_mul, UInt32.toNat_ofNat']
      change page % 2 ^ 32 * 4096 % 2 ^ 32 = _
      omega
    rw [hfound]
    refine ⟨fun hstart => ⟨fun _ => hne, fun _ h0 => ?_⟩, fun _ => ⟨page, hleast, haddr, ?_, rfl⟩,
      fun hempty => absurd hempty hne.ne_empty⟩
    · have := congrArg UInt32.toNat h0
      rw [haddr, UInt32.toNat_zero] at this
      omega
    · intro k
      unfold bitmapTest
      rw [WordBitmap.test_setRun, Bool.or_eq_true, decide_eq_true_iff]

/-- Four pages do not fit before the hole of `holeMap`, so they are taken behind it. -/
theorem pmmAllocPages_exact_firstFit_hole : (holeStart.pmmAllocPages 4).1 = 0x104000 ∧
    IsLeast (holeStart.freeRuns 4) 260 := by
  have haddr : (holeStart.pmmAllocPages 4).1 = 0x104000 := by decide +kernel
  obtain ⟨hstart, hfree⟩ := reachable_consistent _ smallImage holeMap Reachable.init
  obtain ⟨hnull, hlowest, -⟩ := pmmAllocPages_exact_firstFit holeStart 4 hfree (by decide)
  obtain ⟨page, hleast, hpage, -⟩ := hlowest ((hnull hstart).mp (by rw [haddr]; decide))
  rw [haddr] at hpage
  obtain rfl : page = 260 := by
    change 260 * 4096 = page * 4096 at hpage
    omega
  exact ⟨haddr, hleast⟩

end MyOS.Pmm
