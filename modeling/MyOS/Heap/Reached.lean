import MyOS.Heap.Pages
import MyOS.Pmm.Free

/-!
# The states that the heap reaches

`Reached` are the states of the runs of `kmalloc` and `kfree` on the page allocator of `pmm.c`, for
requests of any size and any contents of the memory. A page count that `split_block` has left
unwritten can lose pages (`pages_exact_staleMem`). What stays true is `Owned`: the list lies in
pages that the heap has obtained and not returned.

One thing ends a run. A stale page count of `2^20` or more can pass the test of
`release_whole_region_if_possible`, because the product with the page size wraps around, and
`pmm_free_pages_block` then runs past the end of `page_bitmap`, which has no meaning in the
language. So `Reached` asks that the calls made so far stay inside the bitmap (`InBitmap`).
-/

namespace MyOS

open Block Pmm List

variable {start : Pmm} {s : Pmm × List PageCall} {calls : List PageCall}
variable {h h' h1 : Traced} {blocks blocks' blocks1 l1 l2 news : List Block} {b : Block}
variable {n p size : UInt32} {live : List UInt32} {calls' : List PageCall}

/-- Every bit that the calls to `pmm_free_pages_block` have tested is a bit of `page_bitmap`. The
bounds of the managed range are those of the initialisation. -/
def InBitmap (start : Pmm) (calls : List PageCall) : Prop :=
  ∀ address count, PageCall.free address count ∈ calls →
    ∀ k ∈ start.freeIndices address count, k < bitmapWords * 32

/-- The heap `h`, with the pointers `live` handed out and not given back, is reached from the
initialised page allocator `start`. -/
structure Reached (start : Pmm) (h : Traced) (live : List UInt32) : Prop where
  run : TracedRun (fun _ _ => True) start h live
  inside : InBitmap start h.pages.2

theorem InBitmap.of_suffix (h : InBitmap start calls')
    (hsuffix : calls <:+ calls') : InBitmap start calls :=
  fun address count hmem => h address count (hsuffix.mem hmem)

theorem InBitmap.onlyAllocs (h : InBitmap start calls)
    (honly : OnlyAllocs calls calls') : InBitmap start calls' := by
  obtain ⟨news, rfl, hall⟩ := honly
  intro address count hmem
  rcases mem_append.mp hmem with hmem | hmem
  · obtain ⟨address', count', heq⟩ := hall _ hmem
    cases heq
  · exact h address count hmem

/-! ### The record grows -/

section Record

theorem Heap.blockFromPages_pages {page count : UInt32}
    (heq : h.blockFromPages page count = some h') : h'.pages = h.pages := by
  unfold Heap.blockFromPages at heq
  dsimp only at heq
  split at heq
  · exact Option.some.inj heq ▸ rfl
  · split at heq
    · cases heq
    · exact Option.some.inj heq ▸ rfl

/-- A heap that has just been initialised is reached. -/
theorem Reached.fresh {m : Mem} (hinit : Heap.heapInitialize traced m (start, []) = some h) :
    Reached start h [] := by
  have hpages : h.pages = (traced.allocPages (start, []) 1).2 := by
    unfold Heap.heapInitialize at hinit
    dsimp only at hinit
    split at hinit
    · exact Heap.blockFromPages_pages hinit
    · exact Option.some.inj hinit ▸ rfl
  refine ⟨.init .init hinit, fun address count hmem => ?_⟩
  rw [hpages] at hmem
  exact absurd (mem_singleton.mp hmem) (by simp)

/-- The search only asks for pages. -/
theorem Heap.obtainBlock_suffix {fuel : ℕ} {block : UInt32}
    (heq : Heap.obtainBlock traced fuel h size = some (block, h')) :
    h.pages.2 <:+ h'.pages.2 := by
  induction fuel generalizing h with
  | zero => exact absurd heq (by simp [Heap.obtainBlock])
  | succ fuel ih =>
    have hcall : h.pages.2 <:+ (traced.allocPages h.pages (Heap.pagesNeeded size)).2.2 :=
      suffix_cons _ _
    unfold Heap.obtainBlock at heq
    split at heq
    · cases heq
    · split at heq
      · obtain ⟨-, rfl⟩ := Prod.mk.inj (Option.some.inj heq)
        exact suffix_rfl
      · dsimp only at heq
        split at heq
        · obtain ⟨-, rfl⟩ := Prod.mk.inj (Option.some.inj heq)
          exact hcall
        · split at heq
          · cases heq
          · rename_i h2 hblock
            have hpages := Heap.blockFromPages_pages hblock
            have hrest := ih heq
            rw [hpages] at hrest
            exact hcall.trans hrest

theorem Heap.splitBlock_pages (h : Traced) (block size : UInt32) :
    (h.splitBlock block size).pages = h.pages := by
  unfold Heap.splitBlock
  split_ifs <;> rfl

theorem Heap.kmalloc_suffix (heq : h.kmalloc traced n = some (p, h')) :
    h.pages.2 <:+ h'.pages.2 := by
  unfold Heap.kmalloc at heq
  split at heq
  · obtain ⟨-, rfl⟩ := Prod.mk.inj (Option.some.inj heq)
    exact suffix_rfl
  · dsimp only at heq
    split at heq
    · cases heq
    · rename_i block h1 hobtain
      have hsuffix := Heap.obtainBlock_suffix hobtain
      split at heq
      · obtain ⟨-, rfl⟩ := Prod.mk.inj (Option.some.inj heq)
        exact hsuffix
      · obtain ⟨-, rfl⟩ := Prod.mk.inj (Option.some.inj heq)
        have hpages := Heap.splitBlock_pages h1 block (Word.alignUp n 8)
        exact (congrArg (fun s => h.pages.2 <:+ s.2) hpages).mpr hsuffix

theorem Heap.coalesceNext_pages (h : Traced) (block : UInt32) :
    (h.coalesceNext block).pages = h.pages := by
  unfold Heap.coalesceNext
  dsimp only
  split_ifs <;> rfl

theorem Heap.release_suffix (h : Traced) (block : UInt32) :
    h.pages.2 <:+ (h.releaseWholeRegionIfPossible traced block).pages.2 := by
  unfold Heap.releaseWholeRegionIfPossible
  dsimp only
  split_ifs
  · exact suffix_rfl
  · exact suffix_rfl
  · exact suffix_cons _ _

theorem Heap.freeBlock_suffix (h : Traced) (block : UInt32) :
    h.pages.2 <:+ (h.freeBlock traced block).pages.2 := by
  unfold Heap.freeBlock
  dsimp only
  split_ifs
  · refine List.IsSuffix.trans ?_ (Heap.release_suffix _ _)
    rw [Heap.coalesceNext_pages, Heap.coalesceNext_pages]
  · refine List.IsSuffix.trans ?_ (Heap.release_suffix _ _)
    rw [Heap.coalesceNext_pages]

theorem Heap.kfreeFrom_suffix {fuel : ℕ} (heq : Heap.kfreeFrom traced fuel h p = some h') :
    h.pages.2 <:+ h'.pages.2 := by
  induction fuel generalizing h p with
  | zero => exact absurd heq (by simp [Heap.kfreeFrom])
  | succ fuel ih =>
    unfold Heap.kfreeFrom at heq
    dsimp only at heq
    split at heq
    · exact Option.some.inj heq ▸ suffix_rfl
    · split at heq
      · have hrest := ih heq
        exact hrest
      · split at heq
        · exact Option.some.inj heq ▸ suffix_rfl
        · split at heq
          · exact Option.some.inj heq ▸ suffix_rfl
          · exact Option.some.inj heq ▸ Heap.freeBlock_suffix _ _

end Record

/-! ### What `kfree` gives back -/

namespace Owned

/-- A call that stays inside the bitmap gets a page count that does no harm, if it gets the start
of a page at all. -/
theorem harmless (ho : Owned start s (l1 ++ b :: l2)) (hcount : b.pageCount ≠ 0)
    (hsize : b.size = b.pageCount * pageSize - headerSize)
    (hinside : InBitmap start (.free b.addr b.pageCount :: calls))
    (halign : b.addr.toNat % 4096 = 0) : HarmlessCount b.addr b.pageCount := by
  by_contra hharm
  have hlarge : 2 ^ 20 ≤ b.pageCount.toNat := by
    unfold HarmlessCount at hharm
    omega
  obtain ⟨hlo, hhi, hlimit⟩ := ho.range (b := b) (by simp)
  rw [ho.managed.1] at hlo
  rw [ho.managed.2] at hhi
  have hproduct := congrArg UInt32.toNat hsize
  simp only [UInt32.toNat_sub, UInt32.toNat_mul, headerSize_toNat,
    show pageSize.toNat = 4096 from rfl] at hproduct
  rw [hi_eq, lo] at hhi hlimit
  rw [lo] at hlo
  -- the product wraps around to the size of the block, which lies in the managed range
  have hpass : start.Passes b.addr b.pageCount := by
    refine ⟨hcount, UInt32.le_iff_toNat_le.mpr (by omega), UInt32.lt_iff_toNat_lt.mpr (by omega),
      UInt32.toNat_inj.mp ?_, UInt32.le_iff_toNat_le.mpr ?_⟩
    · rw [UInt32.toNat_mod]
      exact halign
    · rw [UInt32.toNat_add, UInt32.toNat_mul, show pageSize.toNat = 4096 from rfl]
      omega
  have hlast := hinside _ _ mem_cons_self _ (wraps_accesses hpass (by omega))
  exact absurd hlast (by decide)

/-- `kfree` releases a block: its pages go back, or, when it does not begin a page, none. -/
theorem release (ho : Owned start s (l1 ++ b :: l2)) (hp : Placed (l1 ++ b :: l2))
    (hcount : b.pageCount ≠ 0) (hsize : b.size = b.pageCount * pageSize - headerSize)
    (hinside : InBitmap start (.free b.addr b.pageCount :: calls)) :
    Owned start (traced.freePagesBlock s b.addr b.pageCount) (l1 ++ l2) := by
  by_cases halign : b.addr.toNat % 4096 = 0
  · have hw := ho.harmless hcount hsize hinside halign
    exact ho.release_whole hp halign (hw.release hp.fits_self hcount hsize).2
  · have hsame : s.1.pmmFreePagesBlock b.addr b.pageCount = s.1 := by
      have hpass : ¬ s.1.Passes b.addr b.pageCount := fun hpass => by
        have hmod := congrArg UInt32.toNat hpass.2.2.2.1
        rw [UInt32.toNat_mod] at hmod
        exact halign hmod
      rw [pmmFreePagesBlock_eq, freeIndices, if_neg hpass]
      rfl
    refine ⟨?_, fun k hk => ?_, ?_⟩
    · simp only [traced, pmmSource, hsame, obtained, if_neg halign]
      exact ho.tracks
    · simp only [traced, obtained, if_neg halign]
      exact ho.cover k ((covered_remove hp).mp hk).1
    · simp only [traced, pmmSource, hsame]
      exact ho.managed

end Owned

/-! ### `kmalloc` -/

/-- The search of `kmalloc` has appended the regions `news` to the list. -/
structure Growing (start : Pmm) (h : Traced) (blocks : List Block) (size : UInt32) (h1 : Traced)
    (blocks1 news : List Block) : Prop where
  ok : h1.Ok blocks1
  owned : Owned start h1.pages blocks1
  calls : OnlyAllocs h.pages.2 h1.pages.2
  list : blocks1 = blocks ++ news
  regions : ∀ b ∈ news, ∃ page, PageRun page (Heap.pagesNeeded size) ∧
    b = ofPages page (Heap.pagesNeeded size)
  /-- The first region came from the page allocator as it was before the call. -/
  first : (h1 = h ∧ news = []) ∨
    (news ≠ [] ∧ (h.pages.1.pmmAllocPages (Heap.pagesNeeded size)).1 ≠ 0)

theorem Growing.begin (ok : h.Ok blocks) (ho : Owned start h.pages blocks) :
    Growing start h blocks size h blocks [] :=
  ⟨ok, ho, .refl _, (append_nil _).symm, fun _ hb => absurd hb not_mem_nil,
    .inl ⟨rfl, rfl⟩⟩

theorem Growing.inUse_eq (hg : Growing start h blocks size h1 blocks1 news) :
    inUse blocks1 = inUse blocks := by
  have hnews : inUse news = [] := by
    refine eq_nil_iff_forall_not_mem.mpr fun b hb => ?_
    obtain ⟨hmem, hfree⟩ := mem_inUse.mp hb
    obtain ⟨page, -, rfl⟩ := hg.regions b hmem
    exact absurd hfree (by simp [ofPages])
  rw [hg.list, inUse_append, hnews, append_nil]

theorem grows_growing (start : Pmm) (h : Traced) (blocks : List Block) (size : UInt32) :
    Grows traced size fun h1 blocks1 => ∃ news, Growing start h blocks size h1 blocks1 news := by
  refine ⟨fun ⟨_, hg⟩ => hg.ok, ?_, ?_⟩
  · rintro h1 blocks1 ⟨news, hg⟩ - hne
    obtain ⟨hrun, hdis, -⟩ := (hg.owned.alloc _).resolve_left fun hnull => hne hnull.1
    exact ⟨hrun, hdis⟩
  rintro h1 h2 blocks1 page ⟨news, hg⟩ hnone hne halloc ok2 -
  have hres := hg.owned.alloc (Heap.pagesNeeded size)
  rw [halloc] at hres
  replace hres := hres.resolve_left fun hnull => hne hnull.1
  refine ⟨news ++ [ofPages page (Heap.pagesNeeded size)], ok2, hres.2.2, hg.calls.next halloc, ?_,
    forall_mem_append.mpr ⟨hg.regions, forall_mem_singleton.mpr ⟨page, hres.1, rfl⟩⟩,
    .inr ⟨by simp, ?_⟩⟩
  · rw [hg.list, append_assoc]
  · rcases hg.first with ⟨rfl, -⟩ | ⟨-, hfirst⟩
    · have hpage := congrArg Prod.fst halloc
      exact fun h0 => hne (hpage.symm.trans h0)
    · exact hfirst

/-- `kmalloc` returns and keeps the list inside the pages of the heap. -/
theorem Owned.kmalloc (n : UInt32) (hh : Held h (unsized live) blocks)
    (ho : Owned start h.pages blocks) :
    ∃ p h', h.kmalloc traced n = some (p, h') ∧ OnlyAllocs h.pages.2 h'.pages.2 ∧
      ∃ blocks', Held h' (unsized (if p = 0 then live else p :: live)) blocks' ∧
        Owned start h'.pages blocks' := by
  by_cases hn0 : n = 0
  · refine ⟨0, h, if_pos hn0, .refl _, blocks, ?_, ho⟩
    rw [if_pos rfl]
    exact hh
  obtain ⟨p, h', heq, hres⟩ := (grows_growing start h blocks (Word.alignUp n 8)).kmalloc
    ⟨[], .begin hh.ok ho⟩ hn0
  refine ⟨p, h', heq, ?_⟩
  rcases hres with ⟨rfl, h1, blocks1, ⟨news, hg⟩, -, hnull, rfl⟩ |
    ⟨h1, l1, b, l2, b', rest, ⟨news, hg⟩, hserves, -, rfl, hcarved, ok', hpages⟩
  · refine ⟨hg.calls.cons _ _, blocks1, ?_, ?_⟩
    · rw [if_pos rfl]
      exact hh.of_inUse (hg.ok.withPages _) fun b hb => hg.inUse_eq ▸ hb
    · rcases hg.owned.alloc (Heap.pagesNeeded (Word.alignUp n 8)) with ⟨-, -, ho'⟩ | ⟨hrun, -⟩
      · exact ho'
      · exact absurd hnull hrun.ne_zero
  · have hp0 := hg.owned.payload_ne_zero (b := b) (by simp)
    rw [hpages, if_neg hp0]
    refine ⟨hg.calls, _, hh.take hg.ok (serves_iff.mp hserves).1 hg.inUse_eq hcarved ok' hp0
      (Nat.zero_le _), hg.owned.mono fun k => ?_⟩
    rw [covered_append, covered_append]
    exact Or.imp_right (hcarved.covered hg.ok.placed.fits_self).mp

/-! ### `kfree` -/

/-- `kfree` on a live pointer returns and keeps the list inside the pages of the heap. -/
theorem Owned.kfree (hh : Held h (unsized live) blocks) (ho : Owned start h.pages blocks)
    (hp : p ∈ live) :
    ∃ h' blocks', h.kfree traced p = some h' ∧ Held h' (unsized (live.erase p)) blocks' ∧
      (InBitmap start h'.pages.2 → Owned start h'.pages blocks') := by
  obtain ⟨h', blocks', heq, hh', l1, b, l2, rfl, hplaced, hfreed⟩ :=
    hh.kfree (P := traced) (e := (p, 0)) (mem_map_of_mem hp)
  rw [unsized_erase] at hh'
  refine ⟨h', blocks', heq, hh', fun hinside => ?_⟩
  have ho1 : Owned start h.pages (l1 ++ { b with free := true } :: l2) := ho.mono fun k hk => by
    rw [covered_append, covered_cons] at hk ⊢
    exact hk
  rcases hfreed with ⟨hm, hpages⟩ | ⟨k1, c, k2, hm, rfl, -, hcount, hsize, hpages⟩
  · rw [hpages]
    exact ho1.mono fun k => ((hm.placed_covered hplaced).2 k).mp
  · obtain ⟨hp', hcov⟩ := hm.placed_covered hplaced
    rw [hpages] at hinside ⊢
    exact (ho1.mono fun k => (hcov k).mp).release hp' hcount hsize hinside

/-! ### Runs -/

/-- **In every reached state the list lies in pages of the heap**, and every live pointer is the
payload of a block in use. -/
theorem Reached.owned {image : KernelImage} {entries : List E820Entry} {p0 : Pmm}
    (hreached : Reached (p0.pmmInitialize image.kernelEnd entries) h live) :
    ∃ blocks, Held h (unsized live) blocks ∧
      Owned (p0.pmmInitialize image.kernelEnd entries) h.pages blocks := by
  obtain ⟨hrun, hinside⟩ := hreached
  induction hrun with
  | init hreach hinit =>
    obtain ⟨-, blocks, -, hh, -, ho⟩ := heapInitialize_owned hreach hinit
    exact ⟨blocks, hh, ho⟩
  | alloc _ _ hcall ih =>
    obtain ⟨blocks, hh, ho⟩ := ih (hinside.of_suffix (Heap.kmalloc_suffix hcall))
    obtain ⟨p', h', heq, -, hres⟩ := ho.kmalloc _ hh
    obtain ⟨rfl, rfl⟩ : p' = _ ∧ h' = _ := by simpa using heq.symm.trans hcall
    exact hres
  | free _ hp hcall ih =>
    obtain ⟨blocks, hh, ho⟩ := ih (hinside.of_suffix (Heap.kfreeFrom_suffix hcall))
    obtain ⟨h', blocks', heq, hh', ho'⟩ := ho.kfree hh hp
    obtain rfl : h' = _ := by simpa using heq.symm.trans hcall
    exact ⟨blocks', hh', ho' hinside⟩
  | write _ hw ih =>
    obtain ⟨blocks, hh, ho⟩ := ih hinside
    exact ⟨blocks, hh.write hw, ho⟩
  | otherAlloc count _ ih =>
    obtain ⟨blocks, hh, ho⟩ := ih hinside
    exact ⟨blocks, ⟨hh.ok.withPages _, hh.nodup, hh.block⟩, ho.otherAlloc count⟩
  | otherFree _ halign hpages ih =>
    obtain ⟨blocks, hh, ho⟩ := ih hinside
    exact ⟨blocks, ⟨hh.ok.withPages _, hh.nodup, hh.block⟩, ho.otherFree halign hpages⟩

end MyOS
