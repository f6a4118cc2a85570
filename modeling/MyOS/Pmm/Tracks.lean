import MyOS.Pmm.Basic
import Mathlib.Data.Finset.Card
import Mathlib.Order.Interval.Finset.Nat

/-!
# What the page bitmap stands for

The same bit of the bitmap encodes that a page is reserved and that it is in use. `Pmm.Tracks` takes
the two apart: against a set `usable` of pages that `pmm_initialize` found and a set `taken` of
pages handed out since, a clear bit is a page of `usable \ taken`, and the two counters are the
sizes of the sets.

Each function has one lemma that says what it does to the sets: `markPages_tracks` adds usable
pages, `Tracks.pmmAllocPages_cases` takes a run of them, `Tracks.pmmFreePagesBlock` gives a taken
run back, and `pmmInitialize_tracks` is the state after `pmm_initialize`, on any E820 map.
-/

namespace MyOS

open List

/-- The pages `first, …, first + n - 1`. -/
def pageRun (first n : ℕ) : Finset ℕ := Finset.Ico first (first + n)

@[simp] theorem mem_pageRun {first n k : ℕ} : k ∈ pageRun first n ↔ first ≤ k ∧ k < first + n :=
  Finset.mem_Ico

@[simp] theorem card_pageRun (first n : ℕ) : (pageRun first n).card = n := by
  simp [pageRun]

namespace Pmm

/-- The bitmap and the counters stand for the usable pages `usable`, of which `taken` are in
use. -/
structure Tracks (p : Pmm) (usable taken : Finset ℕ) : Prop where
  start_pos : 0 < p.managedStart.toNat
  start_aligned : p.managedStart.toNat % 4096 = 0
  end_aligned : p.managedEnd.toNat % 4096 = 0
  limit : p.managedStart.toNat < p.managedEnd.toNat → p.managedEnd.toNat ≤ 32768 * 4096
  range : ∀ k ∈ usable, p.managedStart.toNat ≤ k * 4096 ∧ k * 4096 < p.managedEnd.toNat
  bit : ∀ k < 32768, p.bitmapTest k = false ↔ k ∈ usable ∧ k ∉ taken
  subset : taken ⊆ usable
  total : p.totalPagesCount.toNat = usable.card
  used : p.usedPagesCount.toNat = taken.card

namespace Tracks

variable {p : Pmm} {usable taken : Finset ℕ}

variable {k : ℕ}

variable (h : Tracks p usable taken)
include h

theorem lt_limit (hk : k ∈ usable) : k < 32768 := by
  obtain ⟨hlo, hhi⟩ := h.range k hk
  have := h.limit (by omega)
  omega

/-- A usable page whose bit is set is taken. -/
theorem taken_of_set (hlt : k < 32768) (hk : k ∈ usable)
    (hset : p.bitmapTest k = true) : k ∈ taken := by
  by_contra hfree
  have hclear := (h.bit k hlt).mpr ⟨hk, hfree⟩
  rw [hset] at hclear
  cases hclear

/-- A usable page ends inside the managed range. -/
theorem page_le (hk : k ∈ usable) : (k + 1) * 4096 ≤ p.managedEnd.toNat := by
  obtain ⟨-, hhi⟩ := h.range k hk
  have := h.end_aligned
  omega

theorem card_le : usable.card ≤ 32768 := by
  calc usable.card ≤ (Finset.range 32768).card :=
        Finset.card_le_card fun k hk => Finset.mem_range.mpr (h.lt_limit hk)
    _ = 32768 := Finset.card_range _

/-- The clear bits of the bitmap are the usable pages that are not taken. -/
theorem clear_eq :
    (Finset.range 32768).filter (fun k => p.bitmapTest k = false) = usable \ taken := by
  ext k
  rw [Finset.mem_filter, Finset.mem_range, Finset.mem_sdiff]
  constructor
  · rintro ⟨hk, hb⟩
    exact (h.bit k hk).mp hb
  · intro hk
    exact ⟨h.lt_limit hk.1, (h.bit k (h.lt_limit hk.1)).mpr hk⟩

/-- `pmm_free_pages` counts the clear bits. -/
theorem pmmFreePages_toNat : p.pmmFreePages.toNat = (usable \ taken).card := by
  have hle := Finset.card_le_card h.subset
  have htotal := h.total
  have hused := h.used
  rw [Finset.card_sdiff_of_subset h.subset, pmmFreePages, UInt32.toNat_sub_of_le]
  · omega
  · rw [UInt32.le_iff_toNat_le]; omega

end Tracks

/-! ### Initialisation -/

variable {p : Pmm} {usable : Finset ℕ}

/-- One more usable page: the loop body of `mark_usable_region`. -/
theorem Tracks.mark (h : Tracks p usable ∅) {page : ℕ} (hlo : p.managedStart.toNat ≤ page * 4096)
    (hhi : page * 4096 < p.managedEnd.toNat) :
    Tracks (if p.bitmapTest page then
        { p with
          pageBitmap := WordBitmap.clear p.pageBitmap page
          totalPagesCount := p.totalPagesCount + 1 }
      else p) (insert page usable) ∅ := by
  have hpage : page < 32768 := by have := h.limit (by omega); omega
  have hbit : p.bitmapTest page = false ↔ page ∈ usable := by simpa using h.bit page hpage
  by_cases hb : p.bitmapTest page = true
  · have hnew : page ∉ usable := fun hmem => by
      rw [hbit.mpr hmem] at hb; exact Bool.false_ne_true hb
    have hcard := h.card_le
    rw [if_pos hb]
    refine { h with
      range := Finset.forall_mem_insert .. |>.mpr ⟨⟨hlo, hhi⟩, h.range⟩
      bit := ?_
      subset := Finset.empty_subset _
      total := ?_ }
    · intro k hk
      have hold : p.bitmapTest k = false ↔ k ∈ usable := by simpa using h.bit k hk
      unfold bitmapTest at hold ⊢
      rw [WordBitmap.test_clear, Finset.mem_insert, Bool.and_eq_false_iff, hold, or_comm,
        eq_comm (a := k)]
      simp
    · have htotal := h.total
      rw [Finset.card_insert_of_notMem hnew, UInt32.toNat_add, htotal]
      change (usable.card + 1) % 2 ^ 32 = _
      omega
  · rw [if_neg hb, Finset.insert_eq_of_mem (hbit.mp (by simpa using hb))]
    exact h

theorem markPages_tracks {pages : List ℕ} (h : Tracks p usable ∅)
    (hpages : ∀ k ∈ pages, p.managedStart.toNat ≤ k * 4096 ∧ k * 4096 < p.managedEnd.toNat) :
    Tracks (markPages pages p) (usable ∪ pages.toFinset) ∅ := by
  induction pages generalizing p usable with
  | nil => simpa [markPages] using h
  | cons page pages ih =>
    obtain ⟨hlo, hhi⟩ := hpages page mem_cons_self
    have hstep := h.mark hlo hhi
    have hnext := ih hstep (fun k hk => by
      have := hpages k (mem_cons_of_mem _ hk)
      by_cases hb : p.bitmapTest page = true
      · rwa [if_pos hb]
      · rwa [if_neg hb])
    rw [toFinset_cons, Finset.union_insert, ← Finset.insert_union]
    exact hnext

theorem markPages_managed (pages : List ℕ) (p : Pmm) :
    (markPages pages p).managedStart = p.managedStart ∧
    (markPages pages p).managedEnd = p.managedEnd := by
  induction pages generalizing p with
  | nil => exact ⟨rfl, rfl⟩
  | cons page pages ih =>
    rw [markPages]
    by_cases hb : p.bitmapTest page = true
    · rw [if_pos hb]; exact ih _
    · rw [if_neg hb]; exact ih _

theorem managedLimit_toNat : managedLimit.toNat = 32768 * 4096 := rfl

theorem toNat_and_not_pageMask (x : UInt32) :
    (x &&& ~~~ (pageSize - 1)).toNat = x.toNat / 4096 * 4096 :=
  Word.toNat_and_not_mask (k := 12) x rfl

theorem toNat_div_pageSize (x : UInt32) : (x / pageSize).toNat = x.toNat / 4096 :=
  UInt32.toNat_div x pageSize

/-- The whole pages of `[start, stop)` from `managedStart` on and below 128 MiB. -/
def regionPages (managedStart start stop : ℕ) : Finset ℕ :=
  Finset.Ico (max ((start + 4095) / 4096) (managedStart / 4096)) (min (stop / 4096) 32768)

/-- The managed range grows up to a page boundary below the limit. -/
theorem Tracks.extend {taken : Finset ℕ} (h : Tracks p usable taken) {stop : UInt32}
    (halign : stop.toNat % 4096 = 0) (hlimit : stop.toNat ≤ 32768 * 4096) :
    Tracks (if stop > p.managedEnd then { p with managedEnd := stop } else p) usable taken := by
  by_cases hgt : stop > p.managedEnd
  · have hgt' : p.managedEnd.toNat < stop.toNat := UInt32.lt_iff_toNat_lt.mp hgt
    rw [if_pos hgt]
    exact
      { start_pos := h.start_pos, start_aligned := h.start_aligned, end_aligned := halign
        limit := fun _ => hlimit
        range := fun k hk => ⟨(h.range k hk).1, (h.range k hk).2.trans hgt'⟩
        bit := h.bit, subset := h.subset, total := h.total, used := h.used }
  · rw [if_neg hgt]
    exact h

/-- The two ends of `mark_usable_region` after rounding and clipping, and its loop over the pages
between them. -/
theorem markUsableRegion_spec (p : Pmm) (start : UInt32) (hfit : start.toNat + 4096 ≤ 2 ^ 32)
    (stop : UInt32) :
    ∃ s e : UInt32, s.toNat = max ((start.toNat + 4095) / 4096 * 4096) p.managedStart.toNat ∧
      e.toNat = min (stop.toNat / 4096 * 4096) (32768 * 4096) ∧
      p.markUsableRegion start stop =
        if e ≤ s then p
        else markPages (List.range' (s / pageSize).toNat
            ((e / pageSize).toNat - (s / pageSize).toNat))
          (if e > p.managedEnd then { p with managedEnd := e } else p) := by
  refine ⟨if Word.alignUp start pageSize < p.managedStart then p.managedStart
    else Word.alignUp start pageSize, if stop &&& ~~~ (pageSize - 1) > managedLimit then
      managedLimit else stop &&& ~~~ (pageSize - 1), ?_, ?_, rfl⟩
  · have hup : (Word.alignUp start pageSize).toNat = (start.toNat + 4095) / 4096 * 4096 :=
      Word.alignUp_toNat (k := 12) start rfl hfit
    by_cases hlt : Word.alignUp start pageSize < p.managedStart
    · rw [if_pos hlt]
      have := UInt32.lt_iff_toNat_lt.mp hlt
      omega
    · rw [if_neg hlt, hup]
      have := UInt32.not_lt.mp hlt
      rw [UInt32.le_iff_toNat_le] at this
      omega
  · have hdown := toNat_and_not_pageMask stop
    have hlim := managedLimit_toNat
    by_cases hgt : stop &&& ~~~ (pageSize - 1) > managedLimit
    · rw [if_pos hgt]
      have := UInt32.lt_iff_toNat_lt.mp hgt
      omega
    · rw [if_neg hgt, hdown]
      have := UInt32.not_lt.mp hgt
      rw [UInt32.le_iff_toNat_le] at this
      omega

/-- `managed_end` after the clipped region `[s, e)` has been noted. -/
theorem extend_managed (p : Pmm) (stop : UInt32) :
    (if stop > p.managedEnd then { p with managedEnd := stop } else p).managedStart
      = p.managedStart ∧
    (if stop > p.managedEnd then { p with managedEnd := stop } else p).managedEnd.toNat
      = max p.managedEnd.toNat stop.toNat := by
  by_cases hgt : stop > p.managedEnd
  · have := UInt32.lt_iff_toNat_lt.mp hgt
    rw [if_pos hgt]
    exact ⟨rfl, (max_eq_right this.le).symm⟩
  · have := UInt32.le_iff_toNat_le.mp (UInt32.not_lt.mp hgt)
    rw [if_neg hgt]
    exact ⟨rfl, (max_eq_left this).symm⟩

/-- **`mark_usable_region`** makes the whole pages of the region usable. -/
theorem markUsableRegion_tracks (h : Tracks p usable ∅) (start : UInt32)
    (hfit : start.toNat + 4096 ≤ 2 ^ 32) (stop : UInt32) :
    Tracks (p.markUsableRegion start stop)
      (usable ∪ regionPages p.managedStart.toNat start.toNat stop.toNat) ∅ ∧
    (p.markUsableRegion start stop).managedStart = p.managedStart := by
  have hms := h.start_aligned
  obtain ⟨s, e, hs, he, heq⟩ := markUsableRegion_spec p start hfit stop
  rw [heq]
  by_cases hempty : e ≤ s
  · -- nothing is left of the region
    have hle := UInt32.le_iff_toNat_le.mp hempty
    have hnone : regionPages p.managedStart.toNat start.toNat stop.toNat = ∅ := by
      rw [regionPages, Finset.Ico_eq_empty_iff]
      omega
    rw [if_pos hempty, hnone, Finset.union_empty]
    exact ⟨h, rfl⟩
  · have hlt : s.toNat < e.toNat := UInt32.lt_iff_toNat_lt.mp (UInt32.not_le.mp hempty)
    rw [if_neg hempty]
    have hext := h.extend (show e.toNat % 4096 = 0 by omega) (by omega)
    obtain ⟨hstart, hend⟩ := extend_managed p e
    have hpages : (List.range' (s / pageSize).toNat
        ((e / pageSize).toNat - (s / pageSize).toNat)).toFinset
          = regionPages p.managedStart.toNat start.toNat stop.toNat := by
      ext k
      rw [mem_toFinset, mem_range'_1, toNat_div_pageSize, toNat_div_pageSize,
        regionPages, Finset.mem_Ico]
      omega
    refine ⟨?_, ?_⟩
    · rw [← hpages]
      refine markPages_tracks hext (fun k hk => ?_)
      rw [mem_range'_1, toNat_div_pageSize, toNat_div_pageSize] at hk
      rw [hstart]
      omega
    · rw [(markPages_managed _ _).1, hstart]

/-- The pages an E820 entry makes usable: the sum of base and length is a 64-bit one. -/
def entryPages (managedStart : ℕ) (entry : E820Entry) : Finset ℕ :=
  if entry.type ≠ 1 ∨ entry.length = 0 ∨ 32768 * 4096 ≤ entry.base.toNat then ∅
  else regionPages managedStart entry.base.toNat
    (min ((entry.base.toNat + entry.length.toNat) % 2 ^ 64) (32768 * 4096))

/-- One entry is skipped, or it is one call of `mark_usable_region`: clipping before the conversion
to 32 bits loses nothing. -/
theorem markEntry_spec (p : Pmm) (entry : E820Entry) :
    (p.markEntry entry = p ∧ entryPages p.managedStart.toNat entry = ∅) ∨
    ∃ start stop : UInt32, start.toNat + 4096 ≤ 2 ^ 32 ∧
      p.markEntry entry = p.markUsableRegion start stop ∧
      entryPages p.managedStart.toNat entry
        = regionPages p.managedStart.toNat start.toNat stop.toNat := by
  have hlim : managedLimit.toUInt64.toNat = 32768 * 4096 := rfl
  unfold markEntry entryPages
  by_cases htype : entry.type ≠ 1 ∨ entry.length = 0
  · rw [if_pos htype, if_pos (htype.imp_right .inl)]
    exact .inl ⟨rfl, rfl⟩
  · rw [if_neg htype]
    by_cases hbase : entry.base ≥ managedLimit.toUInt64
    · have hbase' := UInt64.le_iff_toNat_le.mp hbase
      rw [if_pos hbase, if_pos (.inr (.inr (hlim ▸ hbase')))]
      exact .inl ⟨rfl, rfl⟩
    · have hlt := UInt64.lt_iff_toNat_lt.mp (UInt64.not_le.mp hbase)
      rw [hlim] at hlt
      have hb32 : entry.base.toUInt32.toNat = entry.base.toNat := by
        rw [UInt64.toNat_toUInt32]; omega
      have hstop : (if entry.base + entry.length > managedLimit.toUInt64 then managedLimit
          else (entry.base + entry.length).toUInt32).toNat
          = min ((entry.base.toNat + entry.length.toNat) % 2 ^ 64) (32768 * 4096) := by
        have hsum := UInt64.toNat_add entry.base entry.length
        by_cases hgt : entry.base + entry.length > managedLimit.toUInt64
        · have := UInt64.lt_iff_toNat_lt.mp hgt
          rw [if_pos hgt, managedLimit_toNat]
          omega
        · have := UInt64.le_iff_toNat_le.mp (UInt64.not_lt.mp hgt)
          rw [if_neg hgt, UInt64.toNat_toUInt32]
          omega
      have hcond : ¬ (entry.type ≠ 1 ∨ entry.length = 0 ∨ 32768 * 4096 ≤ entry.base.toNat) := by
        rintro (h1 | h1 | h1)
        · exact htype (.inl h1)
        · exact htype (.inr h1)
        · omega
      rw [if_neg hbase, if_neg hcond, ← hstop]
      refine .inr ⟨entry.base.toUInt32, _, by omega, rfl, ?_⟩
      rw [hb32]

theorem markEntry_tracks (h : Tracks p usable ∅) (entry : E820Entry) :
    Tracks (p.markEntry entry) (usable ∪ entryPages p.managedStart.toNat entry) ∅ ∧
    (p.markEntry entry).managedStart = p.managedStart := by
  rcases markEntry_spec p entry with ⟨heq, hnone⟩ | ⟨start, stop, hfit, heq, hpages⟩
  · rw [heq, hnone, Finset.union_empty]
    exact ⟨h, rfl⟩
  · rw [heq, hpages]
    exact markUsableRegion_tracks h start hfit stop

theorem markEntries_tracks (h : Tracks p usable ∅) (entries : List E820Entry) :
    ∃ usable', Tracks (entries.foldl markEntry p) usable' ∅ ∧
      (entries.foldl markEntry p).managedStart = p.managedStart := by
  induction entries generalizing p usable with
  | nil => exact ⟨usable, h, rfl⟩
  | cons entry entries ih =>
    obtain ⟨hstep, hstart⟩ := markEntry_tracks h entry
    obtain ⟨usable', htracks, hstart'⟩ := ih hstep
    exact ⟨usable', htracks, hstart'.trans hstart⟩

/-- The state of `pmm_initialize` before it looks at the map. -/
theorem tracks_reserved {start : UInt32} (hpos : 0 < start.toNat) (halign : start.toNat % 4096 = 0)
    :
    Tracks
      { pageBitmap := fun i => if i < bitmapWords then 0xFFFFFFFF else p.pageBitmap i
        managedStart := start, managedEnd := start, totalPagesCount := 0, usedPagesCount := 0 }
      ∅ ∅ where
  start_pos := hpos
  start_aligned := halign
  end_aligned := halign
  limit := fun h => absurd h (lt_irrefl _)
  range := fun k hk => absurd hk (Finset.notMem_empty k)
  bit := by
    intro k hk
    have hword : k / 32 < bitmapWords := by unfold bitmapWords; omega
    have htest : WordBitmap.test
        (fun i => if i < bitmapWords then 0xFFFFFFFF else p.pageBitmap i) k = true :=
      WordBitmap.test_ones (if_pos hword)
    unfold bitmapTest
    rw [htest]
    simp
  subset := Finset.empty_subset _
  total := rfl
  used := rfl

/-- `pmm_initialize` reserves everything, goes through the entries, and takes the memory up to
4 MiB when it found nothing. -/
theorem pmmInitialize_spec (p : Pmm) (image : KernelImage) (entries : List E820Entry) :
    ∃ q, q = (entries.take e820MaxEntries).foldl markEntry
        { pageBitmap := fun i => if i < bitmapWords then 0xFFFFFFFF else p.pageBitmap i
          managedStart := image.kernelEnd, managedEnd := image.kernelEnd, totalPagesCount := 0
          usedPagesCount := 0 } ∧
      p.pmmInitialize image.kernelEnd entries =
        if q.totalPagesCount = 0 then q.markUsableRegion q.managedStart 0x00400000 else q := by
  obtain ⟨kernelEnd, halign, habove⟩ := image
  have hlt : kernelEnd.toNat < 2 ^ 32 := kernelEnd.toNat_lt
  have hup : Word.alignUp kernelEnd pageSize = kernelEnd := by
    apply UInt32.toNat_inj.mp
    have : (Word.alignUp kernelEnd pageSize).toNat = (kernelEnd.toNat + 4095) / 4096 * 4096 :=
      Word.alignUp_toNat (k := 12) kernelEnd rfl (by omega)
    omega
  refine ⟨_, rfl, ?_⟩
  unfold pmmInitialize
  rw [hup]

/-- **After `pmm_initialize`** on any E820 map nothing is in use, and the managed range begins at
the end of the kernel. -/
theorem pmmInitialize_tracks (p : Pmm) (image : KernelImage) (entries : List E820Entry) :
    ∃ usable, Tracks (p.pmmInitialize image.kernelEnd entries) usable ∅ ∧
      (p.pmmInitialize image.kernelEnd entries).managedStart = image.kernelEnd := by
  obtain ⟨q, hq, hinit⟩ := pmmInitialize_spec p image entries
  have habove := image.above_base
  have halign := image.aligned
  have hlt := image.kernelEnd.toNat_lt
  obtain ⟨usable, htracks, hstart⟩ :=
    markEntries_tracks (tracks_reserved (p := p) (by omega) halign)
      (entries.take e820MaxEntries)
  rw [← hq] at htracks hstart
  rw [hinit]
  by_cases hzero : q.totalPagesCount = 0
  · -- no usable page: the memory up to 4 MiB is taken instead
    rw [if_pos hzero, hstart]
    obtain ⟨htracks', hstart'⟩ :=
      markUsableRegion_tracks htracks image.kernelEnd (by omega) 0x00400000
    exact ⟨_, htracks', hstart'.trans hstart⟩
  · rw [if_neg hzero]
    exact ⟨usable, htracks, hstart⟩

/-! ### The pages of a call of `pmm_free_pages_block` -/

/-- The guards of `pmm_free_pages_block` let the call through to its loop. -/
def Passes (p : Pmm) (address count : UInt32) : Prop :=
  count ≠ 0 ∧ p.managedStart ≤ address ∧ address < p.managedEnd ∧ address % pageSize = 0 ∧
    address + count * pageSize ≤ p.managedEnd

instance (p : Pmm) (address count : UInt32) : Decidable (p.Passes address count) :=
  inferInstanceAs (Decidable (_ ∧ _))

/-- The indices at which the loop of `pmm_free_pages_block` tests the bitmap, in order. -/
def freeIndices (p : Pmm) (address count : UInt32) : List ℕ :=
  if p.Passes address count then
    (List.range count.toNat).map fun i => (address / pageSize + UInt32.ofNat i).toNat
  else []

theorem pmmFreePagesBlock_eq (p : Pmm) (address count : UInt32) :
    p.pmmFreePagesBlock address count = freePages (p.freeIndices address count) p := by
  unfold pmmFreePagesBlock freeIndices
  by_cases hpass : p.Passes address count
  · obtain ⟨h0, hlo, hhi, hmod, hend⟩ := id hpass
    have hguard : ¬ (count = 0 ∨ address < p.managedStart ∨ address ≥ p.managedEnd ∨
        address % pageSize ≠ 0) := by
      rintro (h | h | h | h)
      · exact h0 h
      · exact UInt32.not_lt.mpr hlo h
      · exact UInt32.not_lt.mpr h hhi
      · exact h hmod
    rw [if_pos hpass, if_neg hguard, if_neg (UInt32.not_lt.mpr hend)]
  · rw [if_neg hpass]
    by_cases h₁ : count = 0 ∨ address < p.managedStart ∨ address ≥ p.managedEnd ∨
        address % pageSize ≠ 0
    · rw [if_pos h₁, freePages]
    · rw [if_neg h₁, if_pos, freePages]
      simp only [not_or, not_not] at h₁
      obtain ⟨h0, hlo, hhi, hmod⟩ := h₁
      by_contra hend
      exact hpass ⟨h0, UInt32.not_lt.mp hlo, UInt32.not_le.mp hhi, hmod, UInt32.not_lt.mp hend⟩

theorem freeIndices_nodup (p : Pmm) (address count : UInt32) :
    (p.freeIndices address count).Nodup := by
  unfold freeIndices
  by_cases h : p.Passes address count
  · rw [if_pos h]
    refine List.Nodup.map_on (fun i hi j hj hij => ?_) nodup_range
    have hi' := mem_range.mp hi
    have hj' := mem_range.mp hj
    have hc := count.toNat_lt
    rw [UInt32.toNat_add, UInt32.toNat_add, UInt32.toNat_ofNat', UInt32.toNat_ofNat'] at hij
    omega
  · rw [if_neg h]
    exact nodup_nil

/-- The pages of a call whose end does not wrap around. -/
theorem mem_freeIndices {p : Pmm} {address count : UInt32} (hpass : p.Passes address count)
    (hwrap : address.toNat + count.toNat * 4096 < 2 ^ 32) {k : ℕ} :
    k ∈ p.freeIndices address count ↔ k ∈ pageRun (address.toNat / 4096) count.toNat := by
  have hindex : ∀ i < count.toNat,
      (address / pageSize + UInt32.ofNat i).toNat = address.toNat / 4096 + i := by
    intro i hi
    rw [Word.toNat_add_ofNat (by rw [toNat_div_pageSize]; omega), toNat_div_pageSize]
  rw [freeIndices, if_pos hpass, mem_map, mem_pageRun]
  constructor
  · rintro ⟨i, hi, rfl⟩
    rw [hindex i (mem_range.mp hi)]
    have := mem_range.mp hi
    omega
  · rintro ⟨hlo, hhi⟩
    exact ⟨k - address.toNat / 4096, mem_range.mpr (by omega), by
      rw [hindex _ (by omega)]; omega⟩

/-! ### Allocation and release -/

section Alloc

variable {p : Pmm} {usable taken : Finset ℕ}

/-- **What `pmm_alloc_pages` does**: it changes nothing and returns null, or it takes a run of
usable pages that are not taken, and returns its address. -/
theorem Tracks.pmmAllocPages_cases (h : Tracks p usable taken) (count : UInt32) :
    p.pmmAllocPages count = (0, p) ∨
    ∃ address p', p.pmmAllocPages count = (address, p') ∧ address ≠ 0 ∧
      address.toNat % 4096 = 0 ∧ 0 < count.toNat ∧
      (∀ k ∈ pageRun (address.toNat / 4096) count.toNat, k ∈ usable ∧ k ∉ taken) ∧
      Tracks p' usable (taken ∪ pageRun (address.toNat / 4096) count.toNat) ∧
      p'.managedStart = p.managedStart ∧ p'.managedEnd = p.managedEnd := by
  unfold pmmAllocPages
  by_cases hcount : count = 0 ∨ count > p.totalPagesCount
  · left; rw [if_pos hcount]
  · rw [if_neg hcount]
    obtain ⟨hne, -⟩ := not_or.mp hcount
    have hpos : 0 < count.toNat := Nat.pos_of_ne_zero fun h0 => hne (UInt32.toNat_inj.mp h0)
    have hfirst := toNat_div_pageSize p.managedStart
    have hlast := toNat_div_pageSize p.managedEnd
    cases hseek : FirstFit.seek p.bitmapTest count.toNat (p.managedEnd / pageSize).toNat
        ((p.managedEnd / pageSize).toNat - (p.managedStart / pageSize).toNat)
        (p.managedStart / pageSize).toNat with
    | none => left; rfl
    | some page =>
      right
      obtain ⟨hlo, hhi, hrun, -⟩ := FirstFit.seek_some hpos hseek
      have hsp := h.start_pos
      have hsa := h.start_aligned
      have hlim := h.limit (by omega)
      -- the bits of the run are clear, so its pages are usable and free
      have hmem : ∀ k ∈ pageRun page count.toNat, k ∈ usable ∧ k ∉ taken := by
        intro k hk
        obtain ⟨hk1, hk2⟩ := mem_pageRun.mp hk
        exact (h.bit k (by omega)).mp (hrun k hk1 hk2)
      have haddr : (UInt32.ofNat page * pageSize).toNat = page * 4096 :=
        Word.toNat_ofNat_mul (show page * 4096 < 2 ^ 32 by omega)
      have hne : UInt32.ofNat page * pageSize ≠ 0 := by
        intro h0
        rw [h0, UInt32.toNat_zero] at haddr
        omega
      refine ⟨_, _, rfl, hne, by rw [haddr, Nat.mul_mod_left], hpos, ?_⟩
      rw [haddr, Nat.mul_div_cancel _ (by decide)]
      refine ⟨hmem, ?_, rfl, rfl⟩
      have hdisj : Disjoint taken (pageRun page count.toNat) :=
        Finset.disjoint_right.mpr fun k hk => (hmem k hk).2
      have hsub : taken ∪ pageRun page count.toNat ⊆ usable :=
        Finset.union_subset h.subset fun k hk => (hmem k hk).1
      refine { h with bit := ?_, subset := hsub, used := ?_ }
      · intro k hk
        have hold := h.bit k hk
        unfold bitmapTest at hold ⊢
        rw [WordBitmap.test_setRun, Bool.or_eq_false_iff, hold, decide_eq_false_iff_not,
          Finset.mem_union, mem_pageRun, not_or, and_assoc]
      · have hcard := (Finset.card_le_card hsub).trans h.card_le
        have hused := h.used
        rw [Finset.card_union_of_disjoint hdisj, card_pageRun] at hcard ⊢
        rw [UInt32.toNat_add, hused]
        omega

/-- One taken page is given back: the loop body of `pmm_free_pages_block`. -/
theorem Tracks.release (h : Tracks p usable taken) {page : ℕ} (hpage : page ∈ taken) :
    Tracks (if p.bitmapTest page then
        { p with
          pageBitmap := WordBitmap.clear p.pageBitmap page
          usedPagesCount := p.usedPagesCount - 1 }
      else p) usable (taken.erase page) := by
  have hlt := h.lt_limit (h.subset hpage)
  have hb : p.bitmapTest page = true := by
    refine eq_true_of_ne_false fun hb => ?_
    exact ((h.bit page hlt).mp hb).2 hpage
  rw [if_pos hb]
  refine { h with bit := ?_, subset := (Finset.erase_subset _ _).trans h.subset, used := ?_ }
  · intro k hk
    have hold := h.bit k hk
    unfold bitmapTest at hold ⊢
    rw [WordBitmap.test_clear, Bool.and_eq_false_iff, hold, Finset.mem_erase, Bool.not_eq_false',
      decide_eq_true_eq]
    -- the bit of the page itself is clear now, and the page is usable
    by_cases hkp : page = k
    · subst hkp
      simp [h.subset hpage]
    · simp [hkp, Ne.symm hkp]
  · have hcard := Finset.card_pos.mpr ⟨page, hpage⟩
    have hused := h.used
    have hone : (1 : UInt32).toNat = 1 := rfl
    rw [Finset.card_erase_of_mem hpage, UInt32.toNat_sub_of_le]
    · omega
    · rw [UInt32.le_iff_toNat_le]; omega

theorem freePages_tracks {pages : List ℕ} (hnodup : pages.Nodup) {p : Pmm} {taken : Finset ℕ}
    (h : Tracks p usable taken) (hpages : ∀ k ∈ pages, k ∈ taken) :
    Tracks (freePages pages p) usable (taken \ pages.toFinset) := by
  induction pages generalizing p taken with
  | nil => simpa [freePages] using h
  | cons page pages ih =>
    obtain ⟨hnot, hnodup'⟩ := nodup_cons.mp hnodup
    have hstep := h.release (hpages page mem_cons_self)
    have hrest := ih hnodup' hstep (fun k hk =>
      Finset.mem_erase.mpr ⟨fun he => hnot (he ▸ hk), hpages k (mem_cons_of_mem _ hk)⟩)
    rw [toFinset_cons, Finset.sdiff_insert, ← Finset.erase_sdiff_comm]
    exact hrest

theorem freePages_managed (pages : List ℕ) (p : Pmm) :
    (freePages pages p).managedStart = p.managedStart ∧
    (freePages pages p).managedEnd = p.managedEnd := by
  induction pages generalizing p with
  | nil => exact ⟨rfl, rfl⟩
  | cons page pages ih =>
    rw [freePages]
    by_cases hb : p.bitmapTest page = true
    · rw [if_pos hb]; exact ih _
    · rw [if_neg hb]; exact ih _

theorem pmmFreePagesBlock_managed (p : Pmm) (address count : UInt32) :
    (p.pmmFreePagesBlock address count).managedStart = p.managedStart ∧
    (p.pmmFreePagesBlock address count).managedEnd = p.managedEnd := by
  rw [pmmFreePagesBlock_eq]
  exact freePages_managed _ p

/-- **What `pmm_free_pages_block` does** on a run of taken pages: they are free again. -/
theorem Tracks.pmmFreePagesBlock (h : Tracks p usable taken) {address count : UInt32}
    (halign : address.toNat % 4096 = 0)
    (hrun : pageRun (address.toNat / 4096) count.toNat ⊆ taken) :
    Tracks (p.pmmFreePagesBlock address count) usable
      (taken \ pageRun (address.toNat / 4096) count.toNat) := by
  rw [pmmFreePagesBlock_eq]
  by_cases hzero : count = 0
  · -- an empty run
    have hempty : pageRun (address.toNat / 4096) count.toNat = ∅ := by
      subst hzero; simp [pageRun]
    rw [freeIndices, if_neg fun hpass => hpass.1 hzero, hempty, Finset.sdiff_empty, freePages]
    exact h
  · have hpos : 0 < count.toNat := Nat.pos_of_ne_zero fun h0 => hzero (UInt32.toNat_inj.mp h0)
    -- the first and the last page of the run are usable, so the guards pass
    have hfirst := h.range _ (h.subset (hrun (mem_pageRun.mpr ⟨le_refl _, by omega⟩)))
    have hlast := h.page_le (h.subset (hrun
      (mem_pageRun.mpr
        ⟨show address.toNat / 4096 ≤ address.toNat / 4096 + (count.toNat - 1) by omega,
        by omega⟩)))
    have hlim := h.limit (by omega)
    have hsum : (address + count * pageSize).toNat = address.toNat + count.toNat * 4096 := by
      rw [UInt32.toNat_add, UInt32.toNat_mul]
      change (address.toNat + count.toNat * 4096 % 2 ^ 32) % 2 ^ 32 = _
      omega
    have hpass : p.Passes address count := by
      refine ⟨hzero, UInt32.le_iff_toNat_le.mpr (by omega), UInt32.lt_iff_toNat_lt.mpr (by omega),
        UInt32.toNat_inj.mp ?_, UInt32.le_iff_toNat_le.mpr (by omega)⟩
      rw [UInt32.toNat_mod]
      exact halign
    have hmem := fun k => mem_freeIndices (k := k) hpass (by omega)
    have hpages : (p.freeIndices address count).toFinset
        = pageRun (address.toNat / 4096) count.toNat := by
      ext k
      rw [mem_toFinset, hmem]
    rw [← hpages]
    exact freePages_tracks (freeIndices_nodup ..) h fun k hk => hrun ((hmem k).mp hk)

theorem pageRun_one (first : ℕ) : pageRun first 1 = {first} := by
  ext k
  rw [mem_pageRun, Finset.mem_singleton]
  omega

/-- **What `pmm_alloc_page` does**: it changes nothing and returns null, or it takes a page. -/
theorem Tracks.pmmAllocPage_cases (h : Tracks p usable taken) :
    p.pmmAllocPage = (0, p) ∨
    ∃ page p', p.pmmAllocPage = (page, p') ∧ page ≠ 0 ∧ page.toNat % 4096 = 0 ∧
      page.toNat / 4096 ∈ usable ∧ page.toNat / 4096 ∉ taken ∧
      Tracks p' usable (insert (page.toNat / 4096) taken) ∧ p'.managedStart = p.managedStart := by
  rcases h.pmmAllocPages_cases 1 with hnull | ⟨page, p', heq, hne, halign, -, hmem, htracks, hs, -⟩
  · exact .inl hnull
  · have hone : (1 : UInt32).toNat = 1 := rfl
    rw [hone, pageRun_one] at hmem htracks
    obtain ⟨husable, hfree⟩ := hmem _ (Finset.mem_singleton_self _)
    rw [Finset.union_comm] at htracks
    exact .inr ⟨page, p', heq, hne, halign, husable, hfree, htracks, hs⟩

/-- `pmm_alloc_page` returns a page as long as one is free. -/
theorem Tracks.pmmAllocPage_ne (h : Tracks p usable taken) (hfree : (usable \ taken).Nonempty) :
    p.pmmAllocPage.1 ≠ 0 := by
  obtain ⟨k, hk⟩ := hfree
  obtain ⟨hku, hkt⟩ := Finset.mem_sdiff.mp hk
  have hfirst := toNat_div_pageSize p.managedStart
  have hlast := toNat_div_pageSize p.managedEnd
  have hone : (1 : UInt32).toNat = 1 := rfl
  have hcount : ¬ ((1 : UInt32) = 0 ∨ (1 : UInt32) > p.totalPagesCount) := by
    have hpos : 0 < usable.card := Finset.card_pos.mpr ⟨k, hku⟩
    rw [not_or, gt_iff_lt, UInt32.lt_iff_toNat_lt, h.total, hone]
    exact ⟨by decide, by omega⟩
  -- a free page is a free run of one page
  have hrun : FirstFit.Run p.bitmapTest k 1 := fun k' h₁ h2 => by
    obtain rfl : k' = k := by omega
    exact (h.bit k' (h.lt_limit hku)).mpr ⟨hku, hkt⟩
  rcases h.pmmAllocPage_cases with hnull | ⟨page, p', heq, hne, -⟩
  · exfalso
    unfold pmmAllocPage pmmAllocPages at hnull
    rw [if_neg hcount, hone] at hnull
    cases hseek : FirstFit.seek p.bitmapTest 1 (p.managedEnd / pageSize).toNat
        ((p.managedEnd / pageSize).toNat - (p.managedStart / pageSize).toNat)
        (p.managedStart / pageSize).toNat with
    | none =>
      have hrange := h.range k hku
      have hend := h.page_le hku
      exact FirstFit.seek_none (by omega) hseek k (by omega) (by omega) hrun
    | some page =>
      rw [hseek] at hnull
      have hused := congrArg (fun r => r.2.usedPagesCount) hnull
      exact absurd hused (by simp)
  · rw [heq]
    exact hne

/-- **What `pmm_free_page` does** with a taken page. -/
theorem Tracks.pmmFreePage (h : Tracks p usable taken) {page : UInt32}
    (halign : page.toNat % 4096 = 0) (hpage : page.toNat / 4096 ∈ taken) :
    Tracks (p.pmmFreePage page) usable (taken.erase (page.toNat / 4096)) := by
  have hone : (1 : UInt32).toNat = 1 := rfl
  have hrun : pageRun (page.toNat / 4096) (1 : UInt32).toNat ⊆ taken := by
    rw [hone, pageRun_one]
    exact Finset.singleton_subset_iff.mpr hpage
  have hfree := h.pmmFreePagesBlock halign hrun
  rwa [hone, pageRun_one, Finset.sdiff_singleton_eq_erase] at hfree

/-- `pmm_free_page` ignores an address inside a page. -/
theorem pmmFreePage_of_unaligned (p : Pmm) {address : UInt32} (h : address.toNat % 4096 ≠ 0) :
    p.pmmFreePage address = p := by
  refine if_pos (.inr (.inr (.inr fun h0 => h ?_)))
  have := congrArg UInt32.toNat h0
  rwa [UInt32.toNat_mod] at this

end Alloc

end Pmm

end MyOS
