import MyOS.Lib.DisjointSets
import MyOS.Pmm.Tracks

/-!
# Exclusive allocation of pages

`Pmm.Reachable start` is a run of the page allocator from the state `start`: calls to
`pmm_alloc_pages` with any count, and calls to `pmm_free_pages_block` on page runs all of whose
pages are allocated at that time. The run keeps the list of outstanding allocations, each as the set
of its pages that are not yet freed. `page_exclusive` is the safety of such a run: the outstanding
pages are the taken ones of the usable pages (`reachable_tracks`), and a page is only handed out
when its bit is clear.
-/

namespace MyOS.Pmm

open DisjointSets

/-! ### Outstanding allocations -/

/-- The outstanding allocations after `pmm_alloc_pages(count)` has returned `address`. -/
def grant (address count : UInt32) (ledger : List (Finset ℕ)) : List (Finset ℕ) :=
  if address = 0 then ledger else pageRun (address.toNat / 4096) count.toNat :: ledger

/-! ### Runs -/

/-- A run of the allocator from `start`, with its outstanding allocations. -/
inductive Reachable (start : Pmm) : Pmm → List (Finset ℕ) → Prop
  | init : Reachable start start []
  | alloc {p : Pmm} {ledger : List (Finset ℕ)} (h : Reachable start p ledger) (count : UInt32) :
      Reachable start (p.pmmAllocPages count).2 (grant (p.pmmAllocPages count).1 count ledger)
  | free {p : Pmm} {ledger : List (Finset ℕ)} (h : Reachable start p ledger)
      (address count : UInt32) (halign : address.toNat % 4096 = 0)
      (hrun : ∀ k ∈ pageRun (address.toNat / 4096) count.toNat, ∃ pages ∈ ledger, k ∈ pages) :
      Reachable start (p.pmmFreePagesBlock address count)
        (ledger.map (· \ pageRun (address.toNat / 4096) count.toNat))

/-- What a run preserves: the outstanding pages are the taken ones, and no page is in two
allocations. -/
theorem reachable_tracks {start p : Pmm} {usable : Finset ℕ} {ledger : List (Finset ℕ)}
    (hstart : Tracks start usable ∅) (h : Reachable start p ledger) :
    Tracks p usable (unions ledger) ∧ ledger.Pairwise Disjoint ∧
      p.managedStart = start.managedStart ∧ p.managedEnd = start.managedEnd := by
  induction h with
  | init => exact ⟨hstart, List.Pairwise.nil, rfl, rfl⟩
  | @alloc p ledger _ count ih =>
    obtain ⟨htracks, hdisj, hs, he⟩ := ih
    rcases htracks.pmmAllocPages_cases count with
      hnull | ⟨address, p', heq, hne, -, -, hmem, htracks', hs', he'⟩
    · rw [hnull, grant, if_pos rfl]
      exact ⟨htracks, hdisj, hs, he⟩
    · rw [heq, grant, if_neg hne]
      refine ⟨?_, List.pairwise_cons.mpr ⟨disjoint_unions.mp ?_, hdisj⟩, hs'.trans hs, he'.trans he⟩
      · rw [unions_cons, Finset.union_comm]
        exact htracks'
      · -- the new run was clear, the outstanding pages are not
        exact Finset.disjoint_left.mpr fun k hk => (hmem k hk).2
  | @free p ledger _ address count halign hrun ih =>
    obtain ⟨htracks, hdisj, hs, he⟩ := ih
    have hsub : pageRun (address.toNat / 4096) count.toNat ⊆ unions ledger :=
      fun k hk => mem_unions.mpr (hrun k hk)
    obtain ⟨hs', he'⟩ := pmmFreePagesBlock_managed p address count
    refine ⟨?_, hdisj.map _ fun a b hab => ?_, hs'.trans hs, he'.trans he⟩
    · rw [unions_map_sdiff]
      exact htracks.pmmFreePagesBlock halign hsub
    · exact hab.mono Finset.sdiff_subset Finset.sdiff_subset

/-- Exclusive use of the pages, in the state `p` with outstanding allocations `ledger`, after an
initialisation that ended in `start`. -/
structure Exclusive (start p : Pmm) (ledger : List (Finset ℕ)) : Prop where
  /-- No page is part of two outstanding allocations. -/
  disjoint : ledger.Pairwise Disjoint
  /-- Every page handed out was marked usable by `pmm_initialize`. -/
  usable : ∀ pages ∈ ledger, ∀ k ∈ pages, k < 32768 ∧ start.bitmapTest k = false
  /-- It lies in the managed range, which does not change. -/
  managed : ∀ pages ∈ ledger, ∀ k ∈ pages,
    p.managedStart.toNat ≤ k * 4096 ∧ (k + 1) * 4096 ≤ p.managedEnd.toNat
  range : p.managedStart = start.managedStart ∧ p.managedEnd = start.managedEnd
  /-- `used_pages_count` counts the outstanding pages. -/
  used : p.usedPagesCount.toNat = (ledger.map Finset.card).sum
  /-- `total_pages_count - used_pages_count` counts the clear bits. -/
  clear : p.pmmFreePages.toNat
    = ((Finset.range 32768).filter fun k => p.bitmapTest k = false).card

/-- **Page allocator exclusivity.** After `pmm_initialize` on any E820 map, pages are used
exclusively in every state of every run. -/
theorem page_exclusive (p0 : Pmm) (image : KernelImage) (entries : List E820Entry) {p : Pmm}
    {ledger : List (Finset ℕ)} (h : Reachable (p0.pmmInitialize image.kernelEnd entries) p ledger) :
    Exclusive (p0.pmmInitialize image.kernelEnd entries) p ledger := by
  obtain ⟨usable, hstart, -⟩ := pmmInitialize_tracks p0 image entries
  obtain ⟨htracks, hdisj, hs, he⟩ := reachable_tracks hstart h
  have hmem : ∀ pages ∈ ledger, ∀ k ∈ pages, k ∈ usable :=
    fun pages hp k hk => htracks.subset (mem_unions.mpr ⟨pages, hp, hk⟩)
  refine ⟨hdisj, fun pages hp k hk => ?_, fun pages hp k hk => ?_, ⟨hs, he⟩, ?_, ?_⟩
  · have hlt := hstart.lt_limit (hmem pages hp k hk)
    exact ⟨hlt, (hstart.bit k hlt).mpr ⟨hmem pages hp k hk, Finset.notMem_empty k⟩⟩
  · exact ⟨(htracks.range k (hmem pages hp k hk)).1, htracks.page_le (hmem pages hp k hk)⟩
  · rw [htracks.used, card_unions hdisj]
  · rw [htracks.pmmFreePages_toNat, htracks.clear_eq]

/-- A kernel that ends at 1 MiB. -/
def smallImage : KernelImage := ⟨0x100000, by decide, by decide⟩

/-- Three usable pages behind it, a hole of one page, and four more. -/
def holeMap : List E820Entry := [⟨0x100000, 0x3000, 1⟩, ⟨0x104000, 0x4000, 1⟩]

/-- The allocator on this map. -/
def holeStart : Pmm := (⟨fun _ => 0, 0, 0, 0, 0⟩ : Pmm).pmmInitialize smallImage.kernelEnd holeMap

theorem page_exclusive_holeStart : (holeStart.pmmAllocPages 3).1 = 0x100000 ∧
    Exclusive holeStart ((holeStart.pmmAllocPages 3).2.pmmFreePagesBlock 0x101000 1)
      ((grant (holeStart.pmmAllocPages 3).1 3 []).map (· \ pageRun 257 1)) := by
  have haddr : (holeStart.pmmAllocPages 3).1 = 0x100000 := by decide +kernel
  refine ⟨haddr, page_exclusive _ smallImage holeMap
    ((Reachable.init.alloc 3).free 0x101000 1 (by decide) fun k hk => ?_)⟩
  refine ⟨pageRun 256 3, ?_, ?_⟩
  · change pageRun 256 3 ∈ grant (holeStart.pmmAllocPages 3).1 3 []
    rw [haddr]
    exact List.mem_singleton.mpr rfl
  · have hk' := mem_pageRun.mp hk
    change 257 ≤ k ∧ k < 257 + 1 at hk'
    exact mem_pageRun.mpr (by omega)

end MyOS.Pmm
