import MyOS.Pmm.Exclusive

/-!
# The pages that `pmm_initialize` finds

`pmm_initialize` rounds, clips and clamps each entry of the E820 map with 32-bit and 64-bit
arithmetic. What comes out has a description without any of it: a page is free when it begins at or
above the end of the kernel and lies entirely inside one usable entry (`Qualifies`). The bitmap, the
two counters and the end of the managed range follow this description on every map on which some
page qualifies (`pmmInitialize_exact`). `Tracks` has the bitmap and the counters; `Capped` pins down
the end of the managed range.
-/

namespace MyOS.Pmm

/-! ### The description -/

/-- The page `k` below 128 MiB begins at or above `managedStart` and lies inside one usable entry
among those that are looked at. -/
def Qualifies (managedStart : ℕ) (entries : List E820Entry) (k : ℕ) : Prop :=
  k < 32768 ∧ managedStart ≤ k * 4096 ∧
    ∃ entry ∈ entries.take e820MaxEntries, entry.type = 1 ∧
      entry.base.toNat ≤ k * 4096 ∧ (k + 1) * 4096 ≤ entry.base.toNat + entry.length.toNat

instance (managedStart : ℕ) (entries : List E820Entry) (k : ℕ) :
    Decidable (Qualifies managedStart entries k) :=
  inferInstanceAs (Decidable (_ ∧ _ ∧ _))

/-- The pages that one entry makes usable are those that lie inside it. -/
theorem mem_entryPages {managedStart : ℕ} {entry : E820Entry} (halign : managedStart % 4096 = 0)
    (hfit : entry.base.toNat + entry.length.toNat < 2 ^ 64) {k : ℕ} :
    k ∈ entryPages managedStart entry ↔ k < 32768 ∧ managedStart ≤ k * 4096 ∧ entry.type = 1 ∧
        entry.base.toNat ≤ k * 4096 ∧ (k + 1) * 4096 ≤ entry.base.toNat + entry.length.toNat := by
  unfold entryPages regionPages
  by_cases hskip : entry.type ≠ 1 ∨ entry.length = 0 ∨ 32768 * 4096 ≤ entry.base.toNat
  · -- a skipped entry contains no page below the limit
    rw [if_pos hskip]
    refine iff_of_false (Finset.notMem_empty k) ?_
    rintro ⟨hk, -, htype, hbase, hend⟩
    rcases hskip with h | h | h
    · exact h htype
    · rw [h] at hend
      change (k + 1) * 4096 ≤ entry.base.toNat + 0 at hend
      omega
    · omega
  · obtain ⟨htype, -, hbase⟩ : entry.type = 1 ∧ ¬ entry.length = 0 ∧
        ¬ 32768 * 4096 ≤ entry.base.toNat := by
      simpa only [not_or, not_not] using hskip
    rw [if_neg hskip, Finset.mem_Ico, Nat.mod_eq_of_lt hfit]
    simp only [htype, true_and]
    omega

/-! ### The end of the managed range -/

/-- The managed range is empty, or it ends with a usable page. -/
def Capped (p : Pmm) (usable : Finset ℕ) : Prop :=
  p.managedEnd.toNat = p.managedStart.toNat ∨
    ∃ k ∈ usable, p.managedEnd.toNat = (k + 1) * 4096

section

variable {p : Pmm} {usable : Finset ℕ} (h : Capped p usable)
  (halign : p.managedStart.toNat % 4096 = 0)
include h halign

theorem Capped.markUsableRegion (start : UInt32)
    (hfit : start.toNat + 4096 ≤ 2 ^ 32) (stop : UInt32) :
    Capped (p.markUsableRegion start stop)
      (usable ∪ regionPages p.managedStart.toNat start.toNat stop.toNat) := by
  obtain ⟨s, e, hs, he, heq⟩ := markUsableRegion_spec p start hfit stop
  have hkept : Capped p (usable ∪ regionPages p.managedStart.toNat start.toNat stop.toNat) :=
    h.imp_right fun ⟨k, hk, hend⟩ => ⟨k, Finset.mem_union_left _ hk, hend⟩
  rw [heq]
  by_cases hempty : e ≤ s
  · rw [if_pos hempty]
    exact hkept
  · have hlt := UInt32.lt_iff_toNat_lt.mp (UInt32.not_le.mp hempty)
    obtain ⟨hstart, hend⟩ := extend_managed p e
    obtain ⟨hstart', hend'⟩ := markPages_managed (List.range' (s / pageSize).toNat
      ((e / pageSize).toNat - (s / pageSize).toNat))
      (if e > p.managedEnd then { p with managedEnd := e } else p)
    rw [if_neg hempty]
    unfold Capped
    rw [hstart', hend', hstart, hend]
    rcases le_total e.toNat p.managedEnd.toNat with hle | hle
    · rw [max_eq_left hle]
      exact hkept
    · -- the region reaches further: its last page is the new end
      rw [max_eq_right hle]
      refine .inr ⟨e.toNat / 4096 - 1, Finset.mem_union_right _ ?_, ?_⟩
      · rw [regionPages, Finset.mem_Ico]
        omega
      · omega

theorem Capped.markEntry (entry : E820Entry) :
    Capped (p.markEntry entry) (usable ∪ entryPages p.managedStart.toNat entry) := by
  rcases markEntry_spec p entry with ⟨heq, hnone⟩ | ⟨start, stop, hfit, heq, hpages⟩
  · rw [heq, hnone, Finset.union_empty]
    exact h
  · rw [heq, hpages]
    exact h.markUsableRegion halign start hfit stop

end

/-- What the loop over the entries leaves: the bitmap and the counters stand for the pages of the
entries, and the managed range ends with the highest of them. -/
theorem markEntries_capped {p : Pmm} {usable : Finset ℕ} (h : Tracks p usable ∅)
    (hcap : Capped p usable) (entries : List E820Entry) :
    ∃ usable', Tracks (entries.foldl Pmm.markEntry p) usable' ∅ ∧
      Capped (entries.foldl Pmm.markEntry p) usable' ∧
      (entries.foldl Pmm.markEntry p).managedStart = p.managedStart ∧
      ∀ k, k ∈ usable' ↔
        k ∈ usable ∨ ∃ entry ∈ entries, k ∈ entryPages p.managedStart.toNat entry := by
  induction entries generalizing p usable with
  | nil => exact ⟨usable, h, hcap, rfl, fun k => by simp⟩
  | cons entry entries ih =>
    obtain ⟨hstep, hstart⟩ := markEntry_tracks h entry
    obtain ⟨usable', htracks, hcap', hstart', hmem⟩ :=
      ih hstep (hcap.markEntry h.start_aligned entry)
    refine ⟨usable', htracks, hcap', hstart'.trans hstart, fun k => ?_⟩
    rw [hmem, Finset.mem_union, hstart, or_assoc, List.exists_mem_cons_iff]

/-! ### Exactness -/

/-- The state `p` is the one that the map calls for: `managedStart` is the end of the kernel. -/
structure Exact (managedStart : ℕ) (entries : List E820Entry) (p : Pmm) : Prop where
  start : p.managedStart.toNat = managedStart
  /-- The free pages are the qualifying ones. -/
  free : ∀ k < 32768, p.bitmapTest k = false ↔ Qualifies managedStart entries k
  /-- Each is counted once. -/
  total : p.totalPagesCount.toNat
    = ((Finset.range 32768).filter (Qualifies managedStart entries)).card
  /-- The managed range ends with the highest one. -/
  managedEnd : ∃ k, Qualifies managedStart entries k ∧ p.managedEnd.toNat = (k + 1) * 4096 ∧
    ∀ j, Qualifies managedStart entries j → j ≤ k
  used : p.usedPagesCount = 0

/-- **`pmm_initialize` is exact** on every E820 map whose entries do not pass the end of the 64-bit
address space and on which some page qualifies. -/
theorem pmmInitialize_exact (p0 : Pmm) (image : KernelImage) (entries : List E820Entry)
    (hfit : ∀ entry ∈ entries, entry.base.toNat + entry.length.toNat < 2 ^ 64)
    (hsome : ∃ k, Qualifies image.kernelEnd.toNat entries k) :
    Exact image.kernelEnd.toNat entries (p0.pmmInitialize image.kernelEnd entries) := by
  obtain ⟨kernelEnd, halign, habove⟩ := image
  have hreserved := tracks_reserved (p := p0) (show 0 < kernelEnd.toNat by omega) halign
  obtain ⟨usable, htracks, hcap, hmanaged, hmem⟩ :=
    markEntries_capped hreserved (.inl rfl) (entries.take e820MaxEntries)
  -- the pages found are those of the description
  have hqual : ∀ k, k ∈ usable ↔ Qualifies kernelEnd.toNat entries k := by
    intro k
    have hentry : ∀ entry ∈ entries.take e820MaxEntries,
        (k ∈ entryPages kernelEnd.toNat entry ↔ _) := fun entry hin =>
      mem_entryPages halign (hfit entry (List.mem_of_mem_take hin))
    rw [hmem]
    constructor
    · rintro (hk | ⟨entry, hin, hk⟩)
      · exact absurd hk (Finset.notMem_empty k)
      · obtain ⟨hlt, hlo, hin'⟩ := (hentry entry hin).mp hk
        exact ⟨hlt, hlo, entry, hin, hin'⟩
    · rintro ⟨hlt, hlo, entry, hin, hin'⟩
      exact .inr ⟨entry, hin, (hentry entry hin).mpr ⟨hlt, hlo, hin'⟩⟩
  obtain ⟨k0, hk0⟩ := hsome
  have hcard : 0 < usable.card := Finset.card_pos.mpr ⟨k0, (hqual k0).mpr hk0⟩
  obtain ⟨q, hq, hinit⟩ := pmmInitialize_spec p0 ⟨kernelEnd, halign, habove⟩ entries
  rw [← hq] at htracks hcap hmanaged
  -- some page was found, so the first 4 MiB are not taken instead
  have hnonzero : q.totalPagesCount ≠ 0 := by
    intro h0
    have := htracks.total
    rw [h0] at this
    change 0 = usable.card at this
    omega
  rw [if_neg hnonzero] at hinit
  rw [hinit]
  have hstart : q.managedStart.toNat = kernelEnd.toNat := congrArg UInt32.toNat hmanaged
  refine ⟨hstart, fun k hk => ?_, ?_, ?_, UInt32.toNat_inj.mp htracks.used⟩
  · rw [htracks.bit k hk, hqual]
    exact and_iff_left (Finset.notMem_empty k)
  · have hset : usable = (Finset.range 32768).filter (Qualifies kernelEnd.toNat entries) := by
      ext k
      rw [hqual, Finset.mem_filter, Finset.mem_range]
      exact (and_iff_right_of_imp And.left).symm
    rw [htracks.total, hset]
  · rcases hcap with hnone | ⟨k, hk, hend⟩
    · -- a qualifying page lies in the range, which is not empty then
      have := htracks.range k0 ((hqual k0).mpr hk0)
      omega
    · refine ⟨k, (hqual k).mp hk, hend, fun j hj => ?_⟩
      have := htracks.page_le ((hqual j).mpr hj)
      omega

theorem pmmInitialize_exact_holeMap : Qualifies smallImage.kernelEnd.toNat holeMap 263 ∧
      Exact smallImage.kernelEnd.toNat holeMap holeStart := by
  have h : Qualifies smallImage.kernelEnd.toNat holeMap 263 := by decide
  exact ⟨h, pmmInitialize_exact _ smallImage holeMap (by decide) ⟨263, h⟩⟩

end MyOS.Pmm
