import MyOS.Pmm.Exclusive

/-!
# Arbitrary calls of `pmm_free_pages_block`

`pmm_free_pages_block` guards its argument with a 32-bit sum of a 32-bit product, and then clears
every set bit of the run. Both can go wrong: the sum wraps around for a large count, and the bit of
a page is also set when the page is reserved. `SafeFree` is what a safe call does with the pages it
looks at (`freeIndices`), and `Harmless` is a condition on the arguments and the state before the
call; the two are the same in every state of every run (`safeFree_iff_harmless`).
-/

namespace MyOS.Pmm

open DisjointSets List

/-! ### What a call touches -/

/-- The loop clears the bits of its pages and no others. -/
theorem freePages_test (pages : List ℕ) (p : Pmm) (k : ℕ) :
    (freePages pages p).bitmapTest k = (p.bitmapTest k && decide (k ∉ pages)) := by
  induction pages generalizing p with
  | nil => simp [freePages]
  | cons page pages ih =>
    rw [freePages, ih]
    by_cases hb : p.bitmapTest page = true
    · have hclear : bitmapTest { p with
          pageBitmap := WordBitmap.clear p.pageBitmap page
          usedPagesCount := p.usedPagesCount - 1 } k = (p.bitmapTest k && !decide (page = k)) :=
        WordBitmap.test_clear ..
      rw [if_pos hb, hclear]
      by_cases hk : page = k
      · simp [hk]
      · simp [hk, Ne.symm hk]
    · -- a bit that is already clear stays clear
      rw [if_neg hb]
      by_cases hk : page = k
      · subst hk
        simp [Bool.eq_false_iff.mpr hb]
      · simp [Ne.symm hk]

/-- Only the pages whose bits are set matter to the loop. -/
theorem freePages_filter {pages : List ℕ} (hnodup : pages.Nodup) (p : Pmm) :
    freePages pages p = freePages (pages.filter p.bitmapTest) p := by
  induction pages generalizing p with
  | nil => rfl
  | cons page pages ih =>
    obtain ⟨hnot, hnodup'⟩ := nodup_cons.mp hnodup
    rw [freePages, filter_cons]
    by_cases hb : p.bitmapTest page = true
    · rw [if_pos hb, if_pos hb, ih hnodup', freePages, if_pos hb]
      congr 1
      -- the bits of the other pages are the same after the first one
      refine filter_congr fun k hk => ?_
      have hne : page ≠ k := fun h => hnot (h ▸ hk)
      exact (WordBitmap.test_clear ..).trans (by simp [hne, bitmapTest])
    · rw [if_neg hb, if_neg hb, ih hnodup']

/-! ### Safe calls -/

/-- A call is safe in the state `p` with outstanding allocations `ledger`, after an initialisation
that ended in `start`. -/
structure SafeFree (start p : Pmm) (ledger : List (Finset ℕ)) (address count : UInt32) :
    Prop where
  /-- Only bits of the managed range are accessed. -/
  accesses : ∀ k ∈ p.freeIndices address count,
    p.managedStart.toNat ≤ k * 4096 ∧ (k + 1) * 4096 ≤ p.managedEnd.toNat
  /-- A cleared bit is the bit of a page that is allocated, and that the map calls usable. -/
  clears : ∀ k, p.bitmapTest k = true → (p.pmmFreePagesBlock address count).bitmapTest k = false →
    (∃ pages ∈ ledger, k ∈ pages) ∧ k < 32768 ∧ start.bitmapTest k = false
  /-- `used_pages_count` goes down by the number of the cleared bits, and not below zero. -/
  used : (p.pmmFreePagesBlock address count).usedPagesCount.toNat
    + ((p.freeIndices address count).filter p.bitmapTest).length = p.usedPagesCount.toNat

/-- When the guards let the call through, the end of the run does not wrap around, and each page of
the run with a set bit is allocated. -/
def Harmless (p : Pmm) (ledger : List (Finset ℕ)) (address count : UInt32) : Prop :=
  p.Passes address count → address.toNat + count.toNat * 4096 < 2 ^ 32 ∧
    ∀ k ∈ pageRun (address.toNat / 4096) count.toNat, p.bitmapTest k = true →
      ∃ pages ∈ ledger, k ∈ pages

/-- A run of the allocator from `start` in which `pmm_free_pages_block` is called with arguments
that are harmless at that time. -/
inductive FreeRun (start : Pmm) : Pmm → List (Finset ℕ) → Prop
  | init : FreeRun start start []
  | alloc {p : Pmm} {ledger : List (Finset ℕ)} (h : FreeRun start p ledger) (count : UInt32) :
      FreeRun start (p.pmmAllocPages count).2 (grant (p.pmmAllocPages count).1 count ledger)
  | free {p : Pmm} {ledger : List (Finset ℕ)} (h : FreeRun start p ledger)
      (address count : UInt32) (hharmless : Harmless p ledger address count) :
      FreeRun start (p.pmmFreePagesBlock address count)
        (ledger.map (· \ (p.freeIndices address count).toFinset))

variable {p start : Pmm} {address count : UInt32} {usable : Finset ℕ} {ledger : List (Finset ℕ)}

/-- A set bit that a harmless call looks at is the bit of an allocated page. -/
theorem Harmless.taken (h : Harmless p ledger address count) {k : ℕ}
    (hk : k ∈ p.freeIndices address count) (hb : p.bitmapTest k = true) : k ∈ unions ledger := by
  have hpass : p.Passes address count := by
    by_contra hno
    rw [freeIndices, if_neg hno] at hk
    exact not_mem_nil hk
  obtain ⟨hwrap, hset⟩ := h hpass
  exact mem_unions.mpr (hset k ((mem_freeIndices hpass hwrap).mp hk) hb)

/-- A harmless call gives the pages back whose bits it clears. -/
theorem Harmless.tracks (h : Harmless p ledger address count)
    (ht : Tracks p usable (unions ledger)) :
    Tracks (p.pmmFreePagesBlock address count) usable
      (unions ledger \ ((p.freeIndices address count).filter p.bitmapTest).toFinset) := by
  rw [pmmFreePagesBlock_eq, freePages_filter (freeIndices_nodup p address count)]
  refine freePages_tracks ((freeIndices_nodup p address count).filter _) ht fun k hk => ?_
  obtain ⟨hmem, hb⟩ := mem_filter.mp hk
  exact h.taken hmem hb

/-- The bit of an allocated page is set, so the filter only drops pages that are not allocated. -/
theorem Tracks.sdiff_filter (ht : Tracks p usable (unions ledger)) (pages : List ℕ) :
    unions ledger \ (pages.filter p.bitmapTest).toFinset = unions ledger \ pages.toFinset := by
  ext k
  rw [Finset.mem_sdiff, Finset.mem_sdiff, mem_toFinset, mem_toFinset, mem_filter]
  refine and_congr_right fun hk => not_congr (and_iff_left_of_imp fun _ => ?_)
  refine eq_true_of_ne_false fun hb => ?_
  exact ((ht.bit k (ht.lt_limit (ht.subset hk))).mp hb).2 hk

theorem FreeRun.tracks (hstart : Tracks start usable ∅) (h : FreeRun start p ledger) :
    Tracks p usable (unions ledger) := by
  induction h with
  | init => exact hstart
  | @alloc p ledger _ count ih =>
    rcases ih.pmmAllocPages_cases count with
      hnull | ⟨address, p', heq, hne, -, -, -, htracks, -, -⟩
    · rw [hnull, grant, if_pos rfl]
      exact ih
    · rw [heq, grant, if_neg hne, unions_cons, Finset.union_comm]
      exact htracks
  | @free p ledger _ address count hharmless ih =>
    have hstep := hharmless.tracks ih
    rw [ih.sdiff_filter] at hstep
    rw [unions_map_sdiff]
    exact hstep

/-! ### Safe and harmless are the same -/

/-- A harmless call is safe. -/
theorem Harmless.safe (h : Harmless p ledger address count) (hstart : Tracks start usable ∅)
    (ht : Tracks p usable (unions ledger)) :
    SafeFree start p ledger address count := by
  have hnodup := (freeIndices_nodup p address count).filter p.bitmapTest
  have htaken : ((p.freeIndices address count).filter p.bitmapTest).toFinset ⊆ unions ledger := by
    intro k hk
    obtain ⟨hmem, hb⟩ := mem_filter.mp (mem_toFinset.mp hk)
    exact h.taken hmem hb
  refine ⟨fun k hk => ?_, fun k hb hclear => ?_, ?_⟩
  · by_cases hpass : p.Passes address count
    · obtain ⟨hwrap, -⟩ := h hpass
      have hk' := mem_pageRun.mp ((mem_freeIndices hpass hwrap).mp hk)
      obtain ⟨-, hlo, -, hmod, hend⟩ := hpass
      have hlo' := UInt32.le_iff_toNat_le.mp hlo
      have hend' := UInt32.le_iff_toNat_le.mp hend
      have hmod' := congrArg UInt32.toNat hmod
      rw [UInt32.toNat_mod] at hmod'
      rw [UInt32.toNat_add, UInt32.toNat_mul] at hend'
      change address.toNat % 4096 = 0 at hmod'
      change (address.toNat + count.toNat * 4096 % 2 ^ 32) % 2 ^ 32 ≤ _ at hend'
      omega
    · rw [freeIndices, if_neg hpass] at hk
      cases hk
  · rw [pmmFreePagesBlock_eq, freePages_test, hb, Bool.true_and, decide_eq_false_iff_not,
      not_not] at hclear
    have hmem := h.taken hclear hb
    have hlt := ht.lt_limit (ht.subset hmem)
    exact ⟨mem_unions.mp hmem, hlt, (hstart.bit k hlt).mpr ⟨ht.subset hmem, Finset.notMem_empty k⟩⟩
  · have hcard := Finset.card_le_card htaken
    rw [toFinset_card_of_nodup hnodup] at hcard
    rw [(h.tracks ht).used, ht.used, Finset.card_sdiff_of_subset htaken,
      toFinset_card_of_nodup hnodup]
    omega

/-- A call whose end wraps around looks at the last page of the address space. -/
theorem wraps_accesses (hpass : p.Passes address count)
    (hwrap : 2 ^ 32 ≤ address.toNat + count.toNat * 4096) :
    2 ^ 20 - 1 ∈ p.freeIndices address count := by
  have hlt := address.toNat_lt
  rw [freeIndices, if_pos hpass]
  refine mem_map.mpr ⟨2 ^ 20 - 1 - address.toNat / 4096, mem_range.mpr (by omega), ?_⟩
  rw [UInt32.toNat_add, toNat_div_pageSize, UInt32.toNat_ofNat']
  omega

/-- A safe call is harmless. -/
theorem SafeFree.harmless (h : SafeFree start p ledger address count)
    (ht : Tracks p usable (unions ledger)) : Harmless p ledger address count := by
  intro hpass
  have hwrap : address.toNat + count.toNat * 4096 < 2 ^ 32 := by
    by_contra hno
    have hlast := h.accesses _ (wraps_accesses hpass (by omega))
    have hlo := UInt32.le_iff_toNat_le.mp hpass.2.1
    have hhi := UInt32.lt_iff_toNat_lt.mp hpass.2.2.1
    have hlim := ht.limit (by omega)
    omega
  refine ⟨hwrap, fun k hk hb => (h.clears k hb ?_).1⟩
  rw [pmmFreePagesBlock_eq, freePages_test, hb, Bool.true_and, decide_eq_false_iff_not, not_not]
  exact (mem_freeIndices hpass hwrap).mpr hk

/-- **A call of `pmm_free_pages_block` is safe exactly when it is harmless**, in every state that
allocations of any size and harmless calls reach from `pmm_initialize` on any E820 map. -/
theorem safeFree_iff_harmless (p0 : Pmm) (image : KernelImage) (entries : List E820Entry)
    {p : Pmm} {ledger : List (Finset ℕ)}
    (h : FreeRun (p0.pmmInitialize image.kernelEnd entries) p ledger) (address count : UInt32) :
    SafeFree (p0.pmmInitialize image.kernelEnd entries) p ledger address count ↔
      Harmless p ledger address count := by
  obtain ⟨usable, hstart, -⟩ := pmmInitialize_tracks p0 image entries
  have ht := h.tracks hstart
  exact ⟨fun hsafe => hsafe.harmless ht, fun hharmless => hharmless.safe hstart ht⟩

theorem safeFree_iff_harmless_holeStart :
    SafeFree holeStart (holeStart.pmmAllocPages 3).2 (grant 0x100000 3 []) 0x101000 2 := by
  have haddr : (holeStart.pmmAllocPages 3).1 = 0x100000 := by decide +kernel
  have hrun := (FreeRun.init : FreeRun holeStart holeStart []).alloc 3
  rw [haddr] at hrun
  refine (safeFree_iff_harmless _ smallImage holeMap hrun 0x101000 2).mpr fun _ =>
    ⟨by decide, fun k hk _ => ⟨pageRun 256 3, mem_singleton.mpr rfl, ?_⟩⟩
  have hk' := mem_pageRun.mp hk
  change 257 ≤ k ∧ k < 257 + 2 at hk'
  exact mem_pageRun.mpr (by omega)

/-- On a map with a hole, the reserved page of the hole can be freed: nothing is allocated, its bit
is cleared, and `used_pages_count` wraps below zero. A count of more than 2^20 pages passes the
guard and runs past the end of the managed range. -/
theorem free_hole_unsafe : (holeStart.bitmapTest 259 = true ∧
      (holeStart.pmmFreePagesBlock 0x103000 1).bitmapTest 259 = false ∧
      (holeStart.pmmFreePagesBlock 0x103000 1).usedPagesCount = 0xFFFFFFFF ∧
      ¬ SafeFree holeStart holeStart [] 0x103000 1) ∧
    2 ^ 20 - 1 ∈ holeStart.freeIndices 0x100000 0x100001 ∧
      ¬ SafeFree holeStart holeStart [] 0x100000 0x100001 := by
  have hset : holeStart.bitmapTest 259 = true := by decide +kernel
  have hclear : (holeStart.pmmFreePagesBlock 0x103000 1).bitmapTest 259 = false := by
    decide +kernel
  have hlast : 2 ^ 20 - 1 ∈ holeStart.freeIndices 0x100000 0x100001 :=
    wraps_accesses (by decide +kernel) (by decide)
  refine ⟨⟨hset, hclear, by decide +kernel, fun hsafe => ?_⟩, hlast, fun hsafe => ?_⟩
  · obtain ⟨⟨pages, hmem, -⟩, -⟩ := hsafe.clears 259 hset hclear
    exact not_mem_nil hmem
  · have hend : holeStart.managedEnd.toNat = 0x108000 := by decide +kernel
    have := (hsafe.accesses _ hlast).2
    omega

end MyOS.Pmm
