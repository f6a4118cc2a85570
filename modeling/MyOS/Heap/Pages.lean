import MyOS.Heap.Integrity
import MyOS.Pmm.Exclusive

/-!
# Pages between the heap and the page allocator

The heap takes its regions from `pmm_alloc_pages` and gives a block back with `pmm_free_pages_block`
when the block's page count says that it is a whole region. `PagesExact` is what one expects of
this: the pages held are the pages that the list covers, and only whole, free, page-aligned blocks
go back.

It does not hold of every run. `split_block` does not write the page count of the header that it
puts behind the block, so the field keeps what the memory held there, and
`release_whole_region_if_possible` believes it (`pages_exact_staleMem`). It does hold along every
run in which `kmalloc` cuts blocks only where the stale word does no harm (`SafeSplit`,
`pages_exact`).

The invariant is `Backed`: the bytes of the list are the bytes of the pages held, and the page count
of every header is harmless at its address. Sizes are arbitrary, so `kmalloc` may add many regions
that are too small, because the number of pages that it asks for is computed with a sum that wraps;
`Stage` follows that search.
-/

namespace MyOS

open Block Pmm List

variable {blocks l l1 l2 : List Block} {b c : Block} {k : ℕ}

/-! ### The calls of the heap to the page allocator -/

/-- A call to the page allocator. -/
inductive PageCall
  /-- `pmm_alloc_pages(count)`, which returned `address`. -/
  | alloc (address count : UInt32)
  /-- `pmm_free_pages_block(address, count)`. -/
  | free (address count : UInt32)
deriving DecidableEq, Repr

/-- The allocator of `pmm.c` with a record of the calls, the latest first. -/
def traced : PageSource (Pmm × List PageCall) where
  allocPages s count :=
    let r := pmmSource.allocPages s.1 count
    (r.1, r.2, .alloc r.1 count :: s.2)
  freePagesBlock s address count :=
    (pmmSource.freePagesBlock s.1 address count, .free address count :: s.2)

/-- A heap on this allocator. -/
abbrev Traced := Heap (Pmm × List PageCall)

/-- The pages obtained and not returned. A call on an address that is not the start of a page
returns none. -/
def obtained : List PageCall → Finset ℕ
  | [] => ∅
  | .alloc address count :: calls =>
    if address = 0 then obtained calls
    else obtained calls ∪ pageRun (address.toNat / 4096) count.toNat
  | .free address count :: calls =>
    if address.toNat % 4096 = 0 then obtained calls \ pageRun (address.toNat / 4096) count.toNat
    else obtained calls

/-! ### The bytes of a list -/

/-- The byte `k` belongs to a block. -/
def Covered (blocks : List Block) (k : ℕ) : Prop := ∃ b ∈ blocks, b.lo ≤ k ∧ k < b.hi

theorem covered_cons : Covered (b :: l) k ↔ (b.lo ≤ k ∧ k < b.hi) ∨ Covered l k := by
  simp [Covered]

theorem covered_append : Covered (l1 ++ l2) k ↔ Covered l1 k ∨ Covered l2 k := by
  simp only [Covered, mem_append, or_and_right, exists_or]

theorem not_covered_nil : ¬ Covered [] k := fun ⟨_, hb, _⟩ => not_mem_nil hb

/-- Carving a block keeps its bytes. -/
theorem Carved.covered {m : Mem} {size : UInt32} {b' : Block} {rest : List Block}
    (hc : Carved m size b b' rest) (hb : b.Fits) :
    Covered (b' :: (rest ++ l)) k ↔ Covered (b :: l) k := by
  cases hc with
  | whole =>
    rw [covered_cons, covered_cons, nil_append]
    rfl
  | split hsize =>
    have hfit : size.toNat + 24 ≤ b.size.toNat := by omega
    rw [covered_cons, singleton_append, covered_cons, covered_cons, rest_lo hb hfit,
      rest_hi hb hfit, ← or_assoc]
    refine or_congr_left ?_
    unfold hi lo
    simp only
    omega

/-- A block that leaves the list takes its own bytes with it. -/
theorem covered_remove (hp : Placed (l1 ++ b :: l2)) :
    Covered (l1 ++ l2) k ↔ Covered (l1 ++ b :: l2) k ∧ ¬ (b.lo ≤ k ∧ k < b.hi) := by
  have happend : Covered (l1 ++ b :: l2) k ↔ Covered l1 k ∨ Covered (b :: l2) k := covered_append
  rw [happend, covered_cons, covered_append]
  have hdis : ∀ l, (∀ c ∈ l, c ∈ l1 ++ l2) → Covered l k → ¬ (b.lo ≤ k ∧ k < b.hi) := by
    rintro l hl ⟨c, hc, hck⟩ hbk
    have := hp.disjoint_of_mem (hl c hc)
    unfold Block.Disjoint at this
    omega
  have h1 := hdis l1 (fun c hc => mem_append_left _ hc)
  have h2 := hdis l2 (fun c hc => mem_append_right _ hc)
  constructor
  · rintro (hk | hk)
    · exact ⟨.inl hk, h1 hk⟩
    · exact ⟨.inr (.inr hk), h2 hk⟩
  · rintro ⟨hk | hk | hk, hout⟩
    · exact .inl hk
    · exact absurd hk hout
    · exact .inr hk

/-- So does merging. -/
theorem Merged.placed_covered {l' : List Block} (hm : Merged l l') (hp : Placed l) :
    Placed l' ∧ ∀ k, Covered l' k ↔ Covered l k := by
  induction hm with
  | refl => exact ⟨hp, fun _ => Iff.rfl⟩
  | @step l1 l2 b c _ _ _ hbc ih =>
    obtain ⟨hp', hk⟩ := ih
    refine ⟨hp'.absorb hbc, fun k => Iff.trans ?_ (hk k)⟩
    have hb := hp'.fits b (by simp)
    have hc := hp'.fits c (by simp)
    rw [covered_append, covered_append, covered_cons, covered_cons, covered_cons,
      absorb_hi hb hc hbc, ← or_assoc (b := c.lo ≤ k ∧ k < c.hi)]
    refine or_congr_right (or_congr_left ?_)
    have := hi_eq b
    have := hi_eq c
    show b.lo ≤ k ∧ k < c.hi ↔ _
    omega

/-! ### Page counts -/

/-- The page count `w` of a header at `a` does no harm: `w * PMM_PAGE_SIZE` is zero, or the header
begins a page and the product does not wrap. -/
def HarmlessCount (a w : UInt32) : Prop :=
  w.toNat % 2 ^ 20 = 0 ∨ (a.toNat % 4096 = 0 ∧ w.toNat < 2 ^ 20)

instance (a w : UInt32) : Decidable (HarmlessCount a w) :=
  inferInstanceAs (Decidable (_ ∨ _))

theorem PageRun.harmless {page count : UInt32} (h : PageRun page count) :
    HarmlessCount page count := by
  have := h.page_ge
  have := h.bound
  exact .inr ⟨h.aligned, by omega⟩

/-- A block that passes the test of `release_whole_region_if_possible` is a run of pages. -/
theorem HarmlessCount.release (hw : HarmlessCount b.addr b.pageCount) (hb : b.Fits)
    (hcount : b.pageCount ≠ 0) (hsize : b.size = b.pageCount * pageSize - headerSize) :
    b.addr.toNat % 4096 = 0 ∧ b.hi = b.lo + b.pageCount.toNat * 4096 := by
  have hpos : b.pageCount.toNat ≠ 0 := fun h0 => hcount (UInt32.toNat_inj.mp h0)
  have hlow := hb.low
  have hbound := hb.bound
  have hs := congrArg UInt32.toNat hsize
  simp only [UInt32.toNat_sub, UInt32.toNat_mul, headerSize_toNat,
    show pageSize.toNat = 4096 from rfl] at hs
  rw [hi_eq] at hbound ⊢
  unfold HarmlessCount at hw
  omega

/-! ### Regions -/

/-- The pages of a region, in bytes. -/
theorem mem_pageRun_iff {page : UInt32} (count : UInt32) (halign : page.toNat % 4096 = 0) :
    k / 4096 ∈ pageRun (page.toNat / 4096) count.toNat ↔
      page.toNat ≤ k ∧ k < page.toNat + count.toNat * 4096 := by
  rw [mem_pageRun]
  omega

theorem PageRun.mem_obtained {page count : UInt32} (hrun : PageRun page count)
    (calls : List PageCall) : k / 4096 ∈ obtained (.alloc page count :: calls) ↔
      k / 4096 ∈ obtained calls ∨ (page.toNat ≤ k ∧ k < page.toNat + count.toNat * 4096) := by
  rw [obtained, if_neg hrun.ne_zero, Finset.mem_union, mem_pageRun_iff _ hrun.aligned]

/-- The pages of a block that is a whole run of them. -/
theorem mem_pageRun_block (halign : b.addr.toNat % 4096 = 0)
    (hhi : b.hi = b.lo + b.pageCount.toNat * 4096) (k : ℕ) :
    k / 4096 ∈ pageRun (b.addr.toNat / 4096) b.pageCount.toNat ↔ b.lo ≤ k ∧ k < b.hi := by
  rw [mem_pageRun_iff _ halign, hhi]
  rfl

/-- **What `pmm_alloc_pages` gives to the heap**: nothing, or a region outside the list, when the
list lies in pages that are taken. -/
theorem alloc_region {p : Pmm} {usable taken : Finset ℕ} (htracks : Tracks p usable taken)
    (hcover : ∀ k, Covered blocks k → k / 4096 ∈ taken) (count : UInt32) :
    p.pmmAllocPages count = (0, p) ∨
    ∃ page p', p.pmmAllocPages count = (page, p') ∧ PageRun page count ∧
      (∀ b ∈ blocks, b.Disjoint (ofPages page count)) ∧
      Tracks p' usable (taken ∪ pageRun (page.toNat / 4096) count.toNat) ∧
      p'.managedStart = p.managedStart ∧ p'.managedEnd = p.managedEnd := by
  rcases htracks.pmmAllocPages_cases count with
    hnull | ⟨page, p', heq, hne, halign, hcount, hmem, htracks', hmanaged⟩
  · exact .inl hnull
  · have hlast := htracks.lt_limit (hmem (page.toNat / 4096 + (count.toNat - 1)) (by simp; omega)).1
    have hrun : PageRun page count := ⟨hne, halign, hcount, by omega⟩
    refine .inr ⟨page, p', heq, hrun, fun b hb => ?_, htracks', hmanaged⟩
    -- a common byte would lie in a page that is both taken and clear
    by_contra hdis
    unfold Block.Disjoint at hdis
    rw [hrun.hi_eq] at hdis
    have hlo : (ofPages page count).lo = page.toNat := rfl
    have hbe := hi_eq b
    have hcov := hcover (max b.lo page.toNat) ⟨b, hb, by omega, by omega⟩
    exact (hmem _ ((mem_pageRun_iff count halign).mpr (by omega))).2 hcov

/-! ### The list lies in pages of the heap -/

/-- The bytes of the list lie in pages obtained and not returned, which the allocator has marked as
used. -/
structure Owned (start : Pmm) (s : Pmm × List PageCall) (blocks : List Block) : Prop where
  tracks : ∃ usable taken, Tracks s.1 usable taken ∧ obtained s.2 ⊆ taken ∧
    ∀ k < 32768, start.bitmapTest k = false ↔ k ∈ usable
  cover : ∀ k, Covered blocks k → k / 4096 ∈ obtained s.2
  managed : s.1.managedStart = start.managedStart ∧ s.1.managedEnd = start.managedEnd

namespace Owned

variable {start p : Pmm} {s : Pmm × List PageCall} {blocks' : List Block}

section

variable (ho : Owned start s blocks)
include ho

/-- Cutting, merging and the flags bring no new bytes. -/
theorem mono (hsub : ∀ k, Covered blocks' k → Covered blocks k) :
    Owned start s blocks' :=
  ⟨ho.tracks, fun k hk => ho.cover k (hsub k hk), ho.managed⟩

/-- A block lies inside the managed range. -/
theorem range (hmem : b ∈ blocks) :
    s.1.managedStart.toNat ≤ b.lo / 4096 * 4096 ∧ b.hi ≤ s.1.managedEnd.toNat ∧ b.hi ≤ 2 ^ 27 := by
  obtain ⟨usable, taken, htracks, hsub, -⟩ := ho.tracks
  have husable : ∀ k, b.lo ≤ k → k < b.hi → k / 4096 ∈ usable := fun k hlo hhi =>
    htracks.subset (hsub (ho.cover k ⟨b, hmem, hlo, hhi⟩))
  have hhi := hi_eq b
  have hfirst := htracks.range _ (husable b.lo le_rfl (by omega))
  have hlast := htracks.page_le (husable (b.hi - 1) (by omega) (by omega))
  have hlimit := htracks.limit (by omega)
  omega

/-- A payload does not begin at the null pointer. -/
theorem payload_ne_zero (hmem : b ∈ blocks) :
    b.addr + headerSize ≠ 0 := by
  obtain ⟨-, -, hhi⟩ := ho.range hmem
  rw [hi_eq] at hhi
  exact payload_ne_zero_of_lt (by omega)

/-- A refused request leaves the page allocator as it is, and new pages are outside the list. -/
theorem alloc (count : UInt32) :
    ((traced.allocPages s count).1 = 0 ∧ (traced.allocPages s count).2.1 = s.1 ∧
      Owned start (traced.allocPages s count).2 blocks) ∨
    (PageRun (traced.allocPages s count).1 count ∧
      (∀ b ∈ blocks, b.Disjoint (ofPages (traced.allocPages s count).1 count)) ∧
      Owned start (traced.allocPages s count).2
        (blocks ++ [ofPages (traced.allocPages s count).1 count])) := by
  obtain ⟨usable, taken, htracks, hsub, hstart⟩ := ho.tracks
  rcases alloc_region htracks (fun k hk => hsub (ho.cover k hk)) count with
    hnull | ⟨page, p', heq, hrun, hdis, htracks', hs, he⟩
  · refine .inl ⟨congrArg Prod.fst hnull, congrArg Prod.snd hnull,
      ⟨usable, taken, ?_, ?_, hstart⟩, ?_, ?_⟩
    all_goals simp only [traced, pmmSource, hnull, obtained, if_true]
    · exact htracks
    · exact hsub
    · exact ho.cover
    · exact ho.managed
  · simp only [traced, pmmSource, heq]
    refine .inr ⟨hrun, hdis, ⟨usable, _, htracks', ?_, hstart⟩, fun k hk => ?_,
      hs.trans ho.managed.1, he.trans ho.managed.2⟩
    · rw [obtained, if_neg hrun.ne_zero]
      exact Finset.union_subset_union_left hsub
    · rw [covered_append, covered_cons, or_iff_left not_covered_nil, hrun.hi_eq] at hk
      exact (hrun.mem_obtained _).mpr (hk.imp_left (ho.cover k))

end

/-- A block that is a whole run of pages leaves the list, and its pages go back. -/
theorem release_whole (ho : Owned start s (l1 ++ b :: l2)) (hp : Placed (l1 ++ b :: l2))
    (halign : b.addr.toNat % 4096 = 0) (hhi : b.hi = b.lo + b.pageCount.toNat * 4096) :
    Owned start (traced.freePagesBlock s b.addr b.pageCount) (l1 ++ l2) := by
  obtain ⟨usable, taken, htracks, hsub, hstart⟩ := ho.tracks
  obtain ⟨hs, he⟩ := pmmFreePagesBlock_managed s.1 b.addr b.pageCount
  have hin := mem_pageRun_block halign hhi
  have hrun : pageRun (b.addr.toNat / 4096) b.pageCount.toNat ⊆ obtained s.2 := by
    intro q hq
    have hk := (hin (q * 4096)).mp (by rwa [Nat.mul_div_cancel _ (by decide)])
    have := ho.cover (q * 4096) ⟨b, by simp, hk⟩
    rwa [Nat.mul_div_cancel _ (by decide)] at this
  refine ⟨⟨usable, _, htracks.pmmFreePagesBlock halign (hrun.trans hsub), ?_, hstart⟩,
    fun k hk => ?_, hs.trans ho.managed.1, he.trans ho.managed.2⟩
  · simp only [traced, obtained, if_pos halign]
    exact Finset.sdiff_subset_sdiff hsub (Finset.Subset.refl _)
  · obtain ⟨hcov, hout⟩ := (covered_remove hp).mp hk
    simp only [traced, obtained, if_pos halign, Finset.mem_sdiff, hin]
    exact ⟨ho.cover k hcov, hout⟩

/-- The rest of the kernel takes pages. -/
theorem otherAlloc (ho : Owned start s blocks) (count : UInt32) :
    Owned start ((s.1.pmmAllocPages count).2, s.2) blocks := by
  obtain ⟨usable, taken, htracks, hsub, hstart⟩ := ho.tracks
  rcases htracks.pmmAllocPages_cases count with
    hnull | ⟨page, p', heq, -, -, -, -, htracks', hs, he⟩
  · rw [hnull]
    exact ho
  · rw [heq]
    exact ⟨⟨usable, _, htracks', hsub.trans Finset.subset_union_left, hstart⟩, ho.cover,
      hs.trans ho.managed.1, he.trans ho.managed.2⟩

/-- The rest of the kernel gives pages back that the heap does not hold. -/
theorem otherFree {address count : UInt32} (ho : Owned start s blocks)
    (halign : address.toNat % 4096 = 0)
    (hpages : ∀ k ∈ pageRun (address.toNat / 4096) count.toNat, k < 32768 ∧
      start.bitmapTest k = false ∧ s.1.bitmapTest k = true ∧ k ∉ obtained s.2) :
    Owned start (s.1.pmmFreePagesBlock address count, s.2) blocks := by
  obtain ⟨usable, taken, htracks, hsub, hstart⟩ := ho.tracks
  obtain ⟨hs, he⟩ := pmmFreePagesBlock_managed s.1 address count
  refine ⟨⟨usable, _, htracks.pmmFreePagesBlock halign fun k hk => ?_, fun k hk => ?_, hstart⟩,
    ho.cover, hs.trans ho.managed.1, he.trans ho.managed.2⟩
  · obtain ⟨hlt, hus, hset, -⟩ := hpages k hk
    exact htracks.taken_of_set hlt ((hstart k hlt).mp hus) hset
  · exact Finset.mem_sdiff.mpr ⟨hsub hk, fun hr => (hpages k hr).2.2.2 hk⟩

/-- Before `heap_initialize` the list is empty. -/
theorem empty {image : KernelImage} {entries : List E820Entry} {p0 : Pmm} {ledger : List (Finset ℕ)}
    (hreach : Reachable (p0.pmmInitialize image.kernelEnd entries) p ledger) :
    Owned (p0.pmmInitialize image.kernelEnd entries) (p, []) [] := by
  obtain ⟨usable, hstart, -⟩ := pmmInitialize_tracks p0 image entries
  obtain ⟨htracks, -, hmanaged⟩ := reachable_tracks hstart hreach
  exact ⟨⟨usable, _, htracks, Finset.empty_subset _, fun k hk => by simp [hstart.bit k hk]⟩,
    fun k hk => absurd hk not_covered_nil, hmanaged⟩

end Owned

/-! ### The list is backed by pages -/

/-- The bytes of the list are those of the pages obtained and not returned, which the allocator has
marked as used, and no page count does harm. -/
structure Backed (start : Pmm) (s : Pmm × List PageCall) (blocks : List Block) : Prop where
  owned : Owned start s blocks
  held : ∀ k, k / 4096 ∈ obtained s.2 → Covered blocks k
  harmless : ∀ b ∈ blocks, HarmlessCount b.addr b.pageCount

namespace Backed

variable {start : Pmm} {s : Pmm × List PageCall}

theorem cover (hb : Backed start s blocks) (k : ℕ) : Covered blocks k ↔ k / 4096 ∈ obtained s.2 :=
  ⟨hb.owned.cover k, hb.held k⟩

/-- New pages are outside the list. -/
theorem alloc (hb : Backed start s blocks) (count : UInt32) :
    ((traced.allocPages s count).1 = 0 ∧ Backed start (traced.allocPages s count).2 blocks) ∨
    (PageRun (traced.allocPages s count).1 count ∧
      (∀ b ∈ blocks, b.Disjoint (ofPages (traced.allocPages s count).1 count)) ∧
      Backed start (traced.allocPages s count).2
        (blocks ++ [ofPages (traced.allocPages s count).1 count])) := by
  rcases hb.owned.alloc count with ⟨hnull, -, ho⟩ | ⟨hrun, hdis, ho⟩
  · refine .inl ⟨hnull, ho, fun k hk => hb.held k ?_, hb.harmless⟩
    change _ ∈ obtained (.alloc (traced.allocPages s count).1 _ :: _) at hk
    rwa [obtained, if_pos hnull] at hk
  · refine .inr ⟨hrun, hdis, ho, fun k hk => ?_,
      forall_mem_append.mpr ⟨hb.harmless, forall_mem_singleton.mpr hrun.harmless⟩⟩
    rw [covered_append, covered_cons, or_iff_left not_covered_nil, hrun.hi_eq]
    exact ((hrun.mem_obtained _).mp hk).imp_left (hb.held k)

/-- The list changes, but not the bytes of it. -/
theorem congr {blocks' : List Block} (hb : Backed start s blocks)
    (hcov : ∀ k, Covered blocks' k ↔ Covered blocks k)
    (hharm : ∀ b ∈ blocks', HarmlessCount b.addr b.pageCount) : Backed start s blocks' :=
  ⟨hb.owned.mono fun k => (hcov k).mp, fun k hk => (hcov k).mpr (hb.held k hk), hharm⟩

/-- `kmalloc` carves a block. -/
theorem carve {m : Mem} {size : UInt32} {b' : Block} {rest : List Block}
    (hb : Backed start s (l1 ++ b :: l2)) (hfits : b.Fits) (hc : Carved m size b b' rest)
    (hrest : ∀ c ∈ rest, HarmlessCount c.addr c.pageCount) :
    Backed start s (l1 ++ b' :: (rest ++ l2)) := by
  have hcov : ∀ k, Covered (l1 ++ b' :: (rest ++ l2)) k ↔ Covered (l1 ++ b :: l2) k := fun k => by
    rw [covered_append, covered_append, hc.covered hfits]
  refine hb.congr hcov (forall_mem_replace (b' :: rest) hb.harmless
    (forall_mem_cons.mpr ⟨?_, hrest⟩))
  have hself := hb.harmless b (by simp)
  cases hc <;> exact hself

/-- The flag of a block plays no role. -/
theorem setFree {v : Bool} (hb : Backed start s (l1 ++ b :: l2)) :
    Backed start s (l1 ++ { b with free := v } :: l2) := by
  refine hb.congr (fun k => ?_) (forall_mem_replace [{ b with free := v }] hb.harmless
    (forall_mem_singleton.mpr (hb.harmless b (by simp))))
  rw [covered_append, covered_append, covered_cons, covered_cons]
  rfl

/-- `kfree` merges blocks. -/
theorem merged {l' : List Block} (hb : Backed start s l) (hp : Placed l) (hm : Merged l l') :
    Backed start s l' :=
  hb.congr (hm.placed_covered hp).2 (hm.forall_mem (fun _ _ h => h) hb.harmless)

/-- `kfree` releases a block: its bytes are those of the pages that go back. -/
theorem release (hb : Backed start s (l1 ++ b :: l2)) (hp : Placed (l1 ++ b :: l2))
    (hcount : b.pageCount ≠ 0) (hsize : b.size = b.pageCount * pageSize - headerSize) :
    b.addr.toNat % 4096 = 0 ∧ b.hi = b.lo + b.pageCount.toNat * 4096 ∧
      Backed start (traced.freePagesBlock s b.addr b.pageCount) (l1 ++ l2) := by
  obtain ⟨halign, hhi⟩ := (hb.harmless b (by simp)).release hp.fits_self hcount hsize
  refine ⟨halign, hhi, hb.owned.release_whole hp halign hhi, fun k hk => ?_,
    fun c hc => hb.harmless c (mem_of_mem_around hc)⟩
  simp only [traced, obtained, if_pos halign, Finset.mem_sdiff, mem_pageRun_block halign hhi] at hk
  exact (covered_remove hp).mpr ⟨hb.held k hk.1, hk.2⟩

end Backed

/-! ### `kmalloc` -/

/-- `kmalloc(n)` would put the header of what it cuts off at `c`: the first free block that is large
enough, or else the new region, is long enough to be split. -/
def Cut (h : Traced) (n c : UInt32) : Prop :=
  (∃ b, findFreeBlock loopBound h.mem h.head (Word.alignUp n 8) = some b ∧ b ≠ 0 ∧
    (Word.alignUp n 8).toNat + 56 ≤ (header h.mem b).size.toNat ∧
    c = b + headerSize + Word.alignUp n 8) ∨
  (∃ page, findFreeBlock loopBound h.mem h.head (Word.alignUp n 8) = some 0 ∧
    (h.pages.1.pmmAllocPages (Heap.pagesNeeded (Word.alignUp n 8))).1 = page ∧ page ≠ 0 ∧
    (Word.alignUp n 8).toNat + 80 ≤ (Heap.pagesNeeded (Word.alignUp n 8)).toNat * 4096 ∧
    c = page + headerSize + Word.alignUp n 8)

/-- Where `kmalloc(n)` would cut a block, the memory holds a page count that does no harm in a
header at that place. -/
def SafeSplit (h : Traced) (n : UInt32) : Prop :=
  ∀ c, Cut h n c → HarmlessCount c (header h.mem c).pageCount

/-- The calls that were made from `calls` to `calls'` only asked for pages. -/
def OnlyAllocs (calls calls' : List PageCall) : Prop :=
  ∃ news, calls' = news ++ calls ∧ ∀ call ∈ news, ∃ address count, call = .alloc address count

theorem OnlyAllocs.refl (calls : List PageCall) : OnlyAllocs calls calls :=
  ⟨[], rfl, fun _ hc => absurd hc not_mem_nil⟩

theorem OnlyAllocs.cons {calls calls' : List PageCall} (h : OnlyAllocs calls calls')
    (address count : UInt32) : OnlyAllocs calls (.alloc address count :: calls') := by
  obtain ⟨news, rfl, hall⟩ := h
  exact ⟨.alloc address count :: news, rfl, forall_mem_cons.mpr ⟨⟨address, count, rfl⟩, hall⟩⟩

theorem OnlyAllocs.next {calls : List PageCall} {s s' : Pmm × List PageCall} {page count : UInt32}
    (h : OnlyAllocs calls s.2) (halloc : traced.allocPages s count = (page, s')) :
    OnlyAllocs calls s'.2 := by
  have hcalls := congrArg (fun r => r.2.2) halloc
  simp only [traced] at hcalls
  rw [← hcalls]
  exact h.cons _ _

section Search

variable {start : Pmm} {h h1 : Traced} {size : UInt32} {blocks1 : List Block}

/-- How far the search of `kmalloc` has come: it has just begun, has added one region, or has added
regions that do not serve the request and never will. -/
inductive Stage (h : Traced) (blocks : List Block) (size : UInt32) (h1 : Traced) :
    List Block → Prop
  | begin : h1 = h → Stage h blocks size h1 blocks
  | one {page : UInt32} : blocks.find? (Block.Serves size) = none →
      (h.pages.1.pmmAllocPages (Heap.pagesNeeded size)).1 = page →
      PageRun page (Heap.pagesNeeded size) →
      (∀ a, Apart page a → (∀ b ∈ blocks, Apart b.addr a) → header h1.mem a = header h.mem a) →
      Stage h blocks size h1 (blocks ++ [ofPages page (Heap.pagesNeeded size)])
  | stuck {blocks1 : List Block} : (∀ b ∈ blocks1, b.Serves size = false) →
      (∀ page, (ofPages page (Heap.pagesNeeded size)).Serves size = false) →
      Stage h blocks size h1 blocks1

/-- What the search keeps. -/
structure Searching (start : Pmm) (h : Traced) (blocks : List Block) (size : UInt32) (h1 : Traced)
    (blocks1 : List Block) : Prop where
  ok : h1.Ok blocks1
  backed : Backed start h1.pages blocks1
  inUse_eq : inUse blocks1 = inUse blocks
  calls : OnlyAllocs h.pages.2 h1.pages.2
  stage : Stage h blocks size h1 blocks1

theorem grows_searching (start : Pmm) (h : Traced) (blocks : List Block) (size : UInt32) :
    Grows traced size (Searching start h blocks size) := by
  refine ⟨fun hs => hs.ok, fun hs _ hne => ?_, ?_⟩
  · obtain ⟨hrun, hdis, -⟩ := (hs.backed.alloc _).resolve_left fun hnull => hne hnull.1
    exact ⟨hrun, hdis⟩
  intro h1 h2 blocks1 page hs hnone hne halloc ok2 hframe
  have hres := hs.backed.alloc (Heap.pagesNeeded size)
  rw [halloc] at hres
  replace hres := hres.resolve_left fun hnull => hne hnull.1
  have hnoserve : ∀ b ∈ blocks1, b.Serves size = false := fun b hb => by
    simpa using List.find?_eq_none.mp hnone b hb
  refine ⟨ok2, hres.2.2, ?_, ?_, ?_⟩
  · rw [inUse_append, inUse_cons_of_free rfl, ← hs.inUse_eq]
    exact append_nil _
  · exact hs.calls.next halloc
  · rcases hs.stage with rfl | ⟨-, -, -, -⟩ | ⟨hall, hpages⟩
    · exact .one hnone (congrArg Prod.fst halloc) hres.1 hframe
    · -- the first region did not serve the request, and this one has the same size
      have hpages := hnoserve _ (mem_append_right _ (mem_singleton_self _))
      exact .stuck (forall_mem_append.mpr ⟨hnoserve, forall_mem_singleton.mpr hpages⟩)
        fun page => hpages
    · exact .stuck (forall_mem_append.mpr ⟨hall, forall_mem_singleton.mpr (hpages _)⟩) hpages

/-- The header that is cut off a new region lies outside the other blocks and the region's own
header, so it holds what the memory held before the call. -/
theorem fresh_header_eq {page count : UInt32} (hp : Placed (blocks ++ [ofPages page count]))
    (hrun : PageRun page count) (hsize : size.toNat + 24 ≤ (ofPages page count).size.toNat)
    (hframe : ∀ a, Apart page a → (∀ b ∈ blocks, Apart b.addr a) →
      header h1.mem a = header h.mem a) :
    header h1.mem (page + headerSize + size) = header h.mem (page + headerSize + size) := by
  have hcut : (page + headerSize + size).toNat = page.toNat + 24 + size.toNat :=
    rest_lo (b := ofPages page count) (w := 0) hrun.fits hsize
  have hsz := hrun.size_eq
  refine hframe _ (.inl (by omega)) fun d hd => ?_
  have hdis := (pairwise_append.mp hp.disjoint).2.2 d hd _ (mem_singleton_self _)
  unfold Block.Disjoint at hdis
  rw [hrun.hi_eq] at hdis
  change d.hi ≤ page.toNat ∨ _ ≤ d.addr.toNat at hdis
  unfold hi at hdis
  unfold Apart
  omega

section

variable {n : UInt32} (ok : h.Ok blocks)
  (hs : Searching start h blocks (Word.alignUp n 8) h1 blocks1) (hbm : b ∈ blocks1)
  (hfind : blocks1.find? (Block.Serves (Word.alignUp n 8)) = some b)
include ok hs hbm hfind

/-- What `kmalloc(n)` cuts off is put where the state before the call says, and keeps the page count
that the memory held there. -/
theorem Searching.rest_cut {b' : Block} {rest : List Block}
    (hc : Carved h1.mem (Word.alignUp n 8) b b' rest) :
    ∀ c ∈ rest, Cut h n c.addr ∧ c.pageCount = (header h.mem c.addr).pageCount := by
  unfold Cut
  generalize Word.alignUp n 8 = size at *
  cases hc with
  | whole => exact fun c hc => absurd hc not_mem_nil
  | split hsize =>
    intro c hc
    obtain rfl := mem_singleton.mp hc
    show _ ∧ (header h1.mem (b.addr + headerSize + size)).pageCount = _
    cases hs.stage with
    | begin heq =>
      subst heq
      refine ⟨.inl ⟨b.addr, ?_, (ok.placed.fits b hbm).addr_ne_zero, ?_, rfl⟩, rfl⟩
      · rw [ok.findFreeBlock, hfind]
        rfl
      · rw [(ok.repr.nodes b hbm).size]
        exact hsize
    | @one page hnone hpage hrun hframe =>
      -- no old block serves the request, so the block is the new region
      obtain rfl : ofPages page (Heap.pagesNeeded size) = b := by
        rw [List.find?_append, hnone] at hfind
        simp only [Option.none_or, List.find?_singleton] at hfind
        split at hfind
        · exact Option.some.inj hfind
        · cases hfind
      have hsz := hrun.size_eq
      have hfit : size.toNat + 24 ≤ (ofPages page (Heap.pagesNeeded size)).size.toNat := by omega
      have heq := fresh_header_eq hs.ok.placed hrun hfit hframe
      refine ⟨.inr ⟨page, ?_, hpage, hrun.ne_zero, by omega, rfl⟩, ?_⟩
      · rw [ok.findFreeBlock, hnone]
        rfl
      · exact congrArg Header.pageCount heq
    | stuck hall => exact absurd (List.find?_some hfind) (by simp [hall b hbm])

/-- What `kmalloc` cuts off has a page count that does no harm. -/
theorem Searching.rest_harmless {b' : Block} {rest : List Block}
    (hc : Carved h1.mem (Word.alignUp n 8) b b' rest) (hsafe : SafeSplit h n) :
    ∀ c ∈ rest, HarmlessCount c.addr c.pageCount := by
  intro c hrest
  obtain ⟨hcut, hcount⟩ := hs.rest_cut ok hbm hfind hc c hrest
  rw [hcount]
  exact hsafe c.addr hcut

end

end Search

/-! ### Runs -/

/-- The byte `k` belongs to a block on the list. -/
def Covers (h : Traced) (k : ℕ) : Prop :=
  ∃ a, Listed h.mem h.head a ∧ a.toNat ≤ k ∧ k < a.toNat + 24 + (header h.mem a).size.toNat

/-- `TracedRun allow start h live`: the heap `h`, with the pointers `live` handed out and not given
back, is reached by calls of `kmalloc(n)` from states `g` with `allow g n` and by calls of `kfree`.
The page allocator has been initialised to `start`; the rest of the kernel takes and gives back
pages of its own and writes anywhere but to the headers of the list. -/
inductive TracedRun (allow : Traced → UInt32 → Prop) (start : Pmm) : Traced → List UInt32 → Prop
  | init {p : Pmm} {ledger : List (Finset ℕ)} {m : Mem} {h : Traced} :
      Reachable start p ledger → Heap.heapInitialize traced m (p, []) = some h →
      TracedRun allow start h []
  | alloc {h h' : Traced} {live : List UInt32} {n p : UInt32} : TracedRun allow start h live →
      allow h n → h.kmalloc traced n = some (p, h') →
      TracedRun allow start h' (if p = 0 then live else p :: live)
  | free {h h' : Traced} {live : List UInt32} {p : UInt32} : TracedRun allow start h live →
      p ∈ live → h.kfree traced p = some h' → TracedRun allow start h' (live.erase p)
  | write {h : Traced} {live : List UInt32} {m : Mem} : TracedRun allow start h live →
      (∀ a, Listed h.mem h.head a → ∀ k < 24, m (a.toNat + k) = h.mem (a.toNat + k)) →
      TracedRun allow start { h with mem := m } live
  | otherAlloc {h : Traced} {live : List UInt32} (count : UInt32) : TracedRun allow start h live →
      TracedRun allow start { h with pages := ((h.pages.1.pmmAllocPages count).2, h.pages.2) } live
  | otherFree {h : Traced} {live : List UInt32} {address count : UInt32} :
      TracedRun allow start h live → address.toNat % 4096 = 0 →
      (∀ k ∈ pageRun (address.toNat / 4096) count.toNat, k < 32768 ∧
        start.bitmapTest k = false ∧ h.pages.1.bitmapTest k = true ∧ k ∉ obtained h.pages.2) →
      TracedRun allow start
        { h with pages := (h.pages.1.pmmFreePagesBlock address count, h.pages.2) } live

/-- The call of `kfree` that led from `h` to `h'` made no call to `pmm_free_pages_block`, or one
with a page-aligned run that consists of the bytes that have left the list and contains none of the
allocations `live`. -/
def ReleaseExact (h h' : Traced) (live : List UInt32) : Prop :=
  h'.pages.2 = h.pages.2 ∨
  ∃ address count, h'.pages.2 = .free address count :: h.pages.2 ∧ address.toNat % 4096 = 0 ∧
    (∀ k, (address.toNat ≤ k ∧ k < address.toNat + count.toNat * 4096) ↔
      Covers h k ∧ ¬ Covers h' k) ∧
    ∀ p ∈ live, p.toNat + (header h'.mem (p - headerSize)).size.toNat ≤ address.toNat ∨
      address.toNat + count.toNat * 4096 ≤ (p - headerSize).toNat

/-- No page is lost or given back wrongly. -/
structure PagesExact (h : Traced) (live : List UInt32) : Prop where
  /-- The pages obtained and not returned are the pages that the list covers. -/
  held : ∀ q, q ∈ obtained h.pages.2 ↔ ∃ k, Covers h k ∧ k / 4096 = q
  /-- `kmalloc` comes to an end and gives no page back. -/
  kmalloc : ∀ n, ∃ p h', h.kmalloc traced n = some (p, h') ∧ OnlyAllocs h.pages.2 h'.pages.2
  /-- `kfree` comes to an end and gives back what it takes off the list. -/
  kfree : ∀ p ∈ live, ∃ h', h.kfree traced p = some h' ∧ ReleaseExact h h' (live.erase p)

section Runs

variable {start : Pmm} {h h' : Traced} {live : List UInt32} {entries : List E820Entry}

/-- The pointers with no claim on their size. -/
def unsized (live : List UInt32) : List (UInt32 × UInt32) := live.map fun p => (p, 0)

theorem unsized_erase (live : List UInt32) (p : UInt32) :
    (unsized live).erase (p, 0) = unsized (live.erase p) :=
  (map_erase (fun _ _ h => (Prod.mk.inj h).1) live).symm

theorem Heap.Ok.covers_iff (ok : h.Ok blocks) {k : ℕ} : Covers h k ↔ Covered blocks k := by
  constructor
  · rintro ⟨a, ha, hlo, hhi⟩
    obtain ⟨b, hb, rfl⟩ := mem_map.mp ((ok.repr.listed_iff ok.placed.fits).mp ha)
    rw [(ok.repr.nodes b hb).size] at hhi
    exact ⟨b, hb, hlo, hhi⟩
  · rintro ⟨b, hb, hlo, hhi⟩
    refine ⟨b.addr, (ok.repr.listed_iff ok.placed.fits).mpr (mem_map_of_mem hb), hlo, ?_⟩
    rw [(ok.repr.nodes b hb).size]
    exact hhi

/-- `kmalloc` returns and keeps the list backed by pages. -/
theorem Backed.kmalloc {n : UInt32} (hh : Held h (unsized live) blocks)
    (hb : Backed start h.pages blocks) :
    ∃ p h', h.kmalloc traced n = some (p, h') ∧ OnlyAllocs h.pages.2 h'.pages.2 ∧
      (SafeSplit h n → ∃ blocks', Held h' (unsized (if p = 0 then live else p :: live)) blocks' ∧
        Backed start h'.pages blocks') := by
  by_cases hn0 : n = 0
  · refine ⟨0, h, if_pos hn0, .refl _, fun _ => ⟨blocks, ?_, hb⟩⟩
    rw [if_pos rfl]
    exact hh
  obtain ⟨p, h', heq, hres⟩ := (grows_searching start h blocks (Word.alignUp n 8)).kmalloc
    ⟨hh.ok, hb, rfl, .refl _, .begin rfl⟩ hn0
  refine ⟨p, h', heq, ?_⟩
  rcases hres with ⟨rfl, h1, blocks1, hs, -, hnull, rfl⟩ |
    ⟨h1, l1, b, l2, b', rest, hs, hserves, hfind, rfl, hcarved, ok', hpages⟩
  · refine ⟨hs.calls.cons _ _, fun _ => ⟨blocks1, ?_, ?_⟩⟩
    · rw [if_pos rfl]
      exact hh.of_inUse (hs.ok.withPages _) fun b hb => hs.inUse_eq ▸ hb
    · rcases hs.backed.alloc (Heap.pagesNeeded (Word.alignUp n 8)) with ⟨-, hb'⟩ | ⟨hrun, -⟩
      · exact hb'
      · exact absurd hnull hrun.ne_zero
  · rw [hpages]
    refine ⟨hs.calls, fun hsafe => ⟨_, ?_, hs.backed.carve hs.ok.placed.fits_self hcarved
      (hs.rest_harmless hh.ok (by simp) hfind hcarved hsafe)⟩⟩
    have hp0 := hs.backed.owned.payload_ne_zero (b := b) (by simp)
    rw [if_neg hp0]
    exact hh.take hs.ok (serves_iff.mp hserves).1 hs.inUse_eq hcarved ok' hp0 (Nat.zero_le _)

/-- `kfree` on a live pointer returns, keeps the list backed by pages, and returns exactly what it
takes off the list. -/
theorem Backed.kfree {p : UInt32} (hh : Held h (unsized live) blocks)
    (hb : Backed start h.pages blocks) (hp : p ∈ live) :
    ∃ h' blocks', h.kfree traced p = some h' ∧ Held h' (unsized (live.erase p)) blocks' ∧
      Backed start h'.pages blocks' ∧ ReleaseExact h h' (live.erase p) := by
  obtain ⟨h', blocks', heq, hh', l1, b, l2, rfl, hplaced, hfreed⟩ :=
    hh.kfree (P := traced) (e := (p, 0)) (mem_map_of_mem hp)
  rw [unsized_erase] at hh'
  have ok' := hh'.ok
  refine ⟨h', blocks', heq, hh', ?_⟩
  rcases hfreed with ⟨hm, hpages⟩ | ⟨k1, c, k2, hm, rfl, hfree, hcount, hsize, hpages⟩
  · rw [hpages]
    exact ⟨hb.setFree.merged hplaced hm, .inl (by rw [hpages])⟩
  · -- a whole region is given back: its pages are those that are covered no more
    obtain ⟨hp', hcov⟩ := hm.placed_covered hplaced
    obtain ⟨halign, hhi, hb'⟩ := (hb.setFree.merged hplaced hm).release hp' hcount hsize
    rw [hpages]
    refine ⟨hb', .inr ⟨c.addr, c.pageCount, by rw [hpages]; rfl, halign, fun k => ?_, ?_⟩⟩
    · have hflag : Covered (l1 ++ { b with free := true } :: l2) k ↔ Covered (l1 ++ b :: l2) k := by
        rw [covered_append, covered_append, covered_cons, covered_cons]
        rfl
      have hin : c.lo ≤ k ∧ k < c.hi → Covered (k1 ++ c :: k2) k := fun hk => ⟨c, by simp, hk⟩
      rw [hh.ok.covers_iff, ok'.covers_iff, covered_remove hp', ← hflag, ← hcov]
      change c.lo ≤ k ∧ k < c.lo + c.pageCount.toNat * 4096 ↔ _
      rw [← hhi]
      refine ⟨fun hk => ⟨hin hk, fun hout => hout.2 hk⟩, ?_⟩
      rintro ⟨hcov, hnot⟩
      by_contra hk
      exact hnot ⟨hcov, hk⟩
    · -- what is still live lies beside it
      intro q hq
      obtain ⟨hq0, d, hd, hdaddr, -⟩ := hh'.block (q, 0) (mem_map_of_mem hq)
      have hdm := (mem_inUse.mp hd).1
      have hdis := hp'.disjoint_of_mem hdm
      have hdq : q - headerSize = d.addr := by
        rw [← show d.addr + headerSize = q from hdaddr, UInt32.add_sub_cancel]
      have hq : q.toNat = d.addr.toNat + 24 := by
        rw [← show d.addr + headerSize = q from hdaddr] at hq0 ⊢
        exact (ok'.placed.fits d hdm).payload_toNat hq0
      rw [hdq, (ok'.repr.nodes d hdm).size, hq]
      unfold Block.Disjoint at hdis
      rw [hhi] at hdis
      exact hdis.symm

/-- `heap_initialize` asks for one page, and gets it or leaves the heap empty. -/
theorem heapInitialize_owned {image : KernelImage} {p0 p : Pmm} {ledger : List (Finset ℕ)} {m : Mem}
    (hreach : Reachable (p0.pmmInitialize image.kernelEnd entries) p ledger)
    (hinit : Heap.heapInitialize traced m (p, []) = some h) :
    ∃ page blocks, ((page = 0 ∧ blocks = []) ∨ (PageRun page 1 ∧ blocks = [ofPages page 1])) ∧
      Held h (unsized []) blocks ∧ h.pages.2 = [.alloc page 1] ∧
      Owned (p0.pmmInitialize image.kernelEnd entries) h.pages blocks := by
  have hpages := (Owned.empty hreach).alloc 1
  obtain ⟨h', heq, hstate, hres⟩ := Heap.Ok.heapInitialize (P := traced) m (p, [])
    fun hne => (hpages.resolve_left fun hnull => hne hnull.1).1
  obtain rfl : h' = h := by simpa using heq.symm.trans hinit
  have hheld : ∀ blocks, h'.Ok blocks → Held h' (unsized []) blocks := fun blocks ok =>
    ⟨ok, nodup_nil, fun e he => absurd he not_mem_nil⟩
  refine ⟨(traced.allocPages (p, []) 1).1, ?_⟩
  rw [hstate]
  rcases hres with ⟨hnull, -, ok⟩ | ⟨hne, ok, -⟩
  · exact ⟨[], .inl ⟨hnull, rfl⟩, hheld _ ok, rfl,
      (hpages.resolve_right fun hrun => hrun.1.ne_zero hnull).2.2⟩
  · obtain ⟨hrun, -, ho⟩ := hpages.resolve_left fun hnull => hne hnull.1
    exact ⟨_, .inr ⟨hrun, rfl⟩, hheld _ ok, rfl, ho⟩

/-- The invariant holds along every run whose calls of `kmalloc` cut only where the memory is safe.
-/
theorem TracedRun.backed {image : KernelImage} {p0 : Pmm}
    (hrun : TracedRun SafeSplit (p0.pmmInitialize image.kernelEnd entries) h live) :
    ∃ blocks, Held h (unsized live) blocks ∧
      Backed (p0.pmmInitialize image.kernelEnd entries) h.pages blocks := by
  induction hrun with
  | @init p ledger m h hreach hinit =>
    obtain ⟨page, blocks, hres, hh, hcalls, ho⟩ := heapInitialize_owned hreach hinit
    refine ⟨blocks, hh, ho, fun k hk => ?_, fun b hb => ?_⟩
    · rw [hcalls] at hk
      rcases hres with ⟨rfl, -⟩ | ⟨hpage, rfl⟩
      · simp [obtained] at hk
      · rw [hpage.mem_obtained] at hk
        refine ⟨_, mem_singleton_self _, ?_⟩
        rw [hpage.hi_eq]
        exact hk.resolve_left (by simp [obtained])
    · rcases hres with ⟨-, rfl⟩ | ⟨hpage, rfl⟩
      · cases hb
      · exact mem_singleton.mp hb ▸ hpage.harmless
  | alloc _ hsafe hcall ih =>
    obtain ⟨blocks, hh, hb⟩ := ih
    obtain ⟨p', h', heq, -, hres⟩ := hb.kmalloc hh
    obtain ⟨rfl, rfl⟩ : p' = _ ∧ h' = _ := by simpa using heq.symm.trans hcall
    exact hres hsafe
  | free _ hp hcall ih =>
    obtain ⟨blocks, hh, hb⟩ := ih
    obtain ⟨h', blocks', heq, hh', hb', -⟩ := hb.kfree hh hp
    obtain rfl : h' = _ := by simpa using heq.symm.trans hcall
    exact ⟨blocks', hh', hb'⟩
  | write _ hw ih =>
    obtain ⟨blocks, hh, hb⟩ := ih
    exact ⟨blocks, hh.write hw, hb⟩
  | otherAlloc count _ ih =>
    obtain ⟨blocks, hh, hb⟩ := ih
    exact ⟨blocks, ⟨hh.ok.withPages _, hh.nodup, hh.block⟩, hb.owned.otherAlloc count, hb.held,
      hb.harmless⟩
  | otherFree _ halign hpages ih =>
    obtain ⟨blocks, hh, hb⟩ := ih
    exact ⟨blocks, ⟨hh.ok.withPages _, hh.nodup, hh.block⟩, hb.owned.otherFree halign hpages,
      hb.held, hb.harmless⟩

/-- **No page is lost or given back wrongly**, as long as `split_block` cuts only where the memory
holds a page count that does no harm. -/
theorem pages_exact {image : KernelImage} {entries : List E820Entry} {p0 : Pmm}
    (hrun : TracedRun SafeSplit (p0.pmmInitialize image.kernelEnd entries) h live) :
    PagesExact h live := by
  obtain ⟨blocks, hh, hb⟩ := hrun.backed
  refine ⟨fun q => ?_, fun n => ?_, fun p hp => ?_⟩
  · constructor
    · intro hq
      refine ⟨q * 4096, hh.ok.covers_iff.mpr ((hb.cover _).mpr ?_), by omega⟩
      rwa [Nat.mul_div_cancel _ (by decide)]
    · rintro ⟨k, hk, rfl⟩
      exact (hb.cover k).mp (hh.ok.covers_iff.mp hk)
  · obtain ⟨p, h', heq, hcalls, -⟩ := hb.kmalloc (n := n) hh
    exact ⟨p, h', heq, hcalls⟩
  · obtain ⟨h', -, heq, -, -, hexact⟩ := hb.kfree hh hp
    exact ⟨h', heq, hexact⟩

end Runs

/-! ### Runs on given calls -/

/-- A call to the heap. -/
inductive HeapCall
  | kmalloc (size : UInt32)
  | kfree (ptr : UInt32)

/-- The heap and the live pointers after a call; `kfree` is called on live pointers only. -/
def HeapCall.apply (s : Traced × List UInt32) : HeapCall → Option (Traced × List UInt32)
  | .kmalloc size =>
    (s.1.kmalloc traced size).map fun r => (r.2, if r.1 = 0 then s.2 else r.1 :: s.2)
  | .kfree ptr =>
    if ptr ∈ s.2 then (s.1.kfree traced ptr).map fun h => (h, s.2.erase ptr) else none

section

variable {start : Pmm} {s s' : Traced × List UInt32}
  (hrun : TracedRun (fun _ _ => True) start s.1 s.2)
include hrun

theorem TracedRun.apply {call : HeapCall} (hcall : call.apply s = some s') :
    TracedRun (fun _ _ => True) start s'.1 s'.2 := by
  cases call with
  | kmalloc size =>
    obtain ⟨r, hr, rfl⟩ := Option.map_eq_some_iff.mp hcall
    exact hrun.alloc trivial hr
  | kfree ptr =>
    simp only [HeapCall.apply] at hcall
    by_cases hmem : ptr ∈ s.2
    · rw [if_pos hmem] at hcall
      obtain ⟨h, hh, rfl⟩ := Option.map_eq_some_iff.mp hcall
      exact hrun.free hmem hh
    · rw [if_neg hmem] at hcall
      cases hcall

theorem TracedRun.applyAll {calls : List HeapCall}
    (hcalls : calls.foldlM HeapCall.apply s = some s') :
    TracedRun (fun _ _ => True) start s'.1 s'.2 := by
  induction calls generalizing s with
  | nil => exact Option.some.inj hcalls ▸ hrun
  | cons call calls ih =>
    rw [foldlM_cons] at hcalls
    obtain ⟨s1, hs1, hrest⟩ := Option.bind_eq_some_iff.mp hcalls
    exact ih (hrun.apply hs1) hrest

end

/-- A memory in which the word at `0x100028` is 1, from some earlier use of its page. -/
def staleMem : Mem := Mem.store32 ⟨fun _ => 0⟩ 0x100028 1

/-- The first page is cut behind 8 bytes, the rest of it is taken, and two more blocks of 8 bytes
are taken from a second page, which happens to follow it. The rest of the first page is given back.
-/
def staleCalls : List HeapCall :=
  [.kmalloc 8, .kmalloc 4040, .kmalloc 8, .kmalloc 8, .kfree 0x100038]

/-- **Why the condition is needed.** The header at `0x100020` has kept the stale word as its page
count. When the 8 bytes behind its block are given back too, the block has the size of one page and
is released, with an address that begins no page. -/
theorem pages_exact_staleMem : ∃ h live, TracedRun (fun _ _ => True) holeStart h live ∧
    (h.kfree traced 0x101018).map (fun h' => h'.pages.2) = some (.free 0x100020 1 :: h.pages.2) ∧
    ¬ PagesExact h live := by
  have heval : ((Heap.heapInitialize traced staleMem (holeStart, [])).bind fun h =>
      staleCalls.foldlM HeapCall.apply (h, [])).map
        (fun s => (s.2, s.1.pages.2, (s.1.kfree traced 0x101018).map fun h' => h'.pages.2))
      = some ([0x101038, 0x101018, 0x100018], [.alloc 0x101000 1, .alloc 0x100000 1],
        some [.free 0x100020 1, .alloc 0x101000 1, .alloc 0x100000 1]) := by
    decide +kernel
  obtain ⟨s, hs, hres⟩ := Option.map_eq_some_iff.mp heval
  obtain ⟨h, hinit, hcalls⟩ := Option.bind_eq_some_iff.mp hs
  obtain ⟨hlive, hlog, hfree⟩ : _ ∧ _ ∧ _ := by simpa only [Prod.mk.injEq] using hres
  have hrun : TracedRun (fun _ _ => True) holeStart s.1 s.2 :=
    TracedRun.applyAll (s := (h, [])) (.init .init hinit) hcalls
  refine ⟨s.1, s.2, hrun, by rw [hfree, hlog], fun hexact => ?_⟩
  obtain ⟨h1, hh1, hrelease⟩ := hexact.kfree 0x101018 (by rw [hlive]; decide)
  obtain ⟨h', hh', hlog'⟩ := Option.map_eq_some_iff.mp hfree
  obtain rfl : h1 = h' := Option.some.inj (hh1.symm.trans hh')
  rcases hrelease with hsame | ⟨a, c, heq, halign, -⟩
  · rw [hlog', hlog] at hsame
    cases hsame
  · rw [hlog', hlog] at heq
    obtain ⟨rfl, -⟩ : 0x100020 = a ∧ 1 = c := by simpa using heq
    cases halign

/-- A block of 8 bytes is cut from the first page of a memory of zeros, and given back. -/
theorem firstBlock : ∃ h h1 h2, Heap.heapInitialize traced ⟨fun _ => 0⟩ (holeStart, []) = some h ∧
    h.kmalloc traced 8 = some (0x100018, h1) ∧ h1.kfree traced 0x100018 = some h2 ∧
    (∀ c, Cut h 8 c → (header h.mem c).pageCount = 0) ∧ h1.pages.2 = [.alloc 0x100000 1] ∧
    (header h1.mem 0x100000).next = 0x100020 ∧ (header h1.mem 0x100000).prev = 0 ∧
    h2.pages.2 = [.free 0x100000 1, .alloc 0x100000 1] := by
  have heval : ((Heap.heapInitialize traced ⟨fun _ => 0⟩ (holeStart, [])).bind fun h =>
      (h.kmalloc traced 8).bind fun r => (r.2.kfree traced 0x100018).map fun h2 =>
        (findFreeBlock loopBound h.mem h.head (Word.alignUp 8 8),
          [r.1, (header h.mem 0x100020).pageCount, (header r.2.mem 0x100000).next,
            (header r.2.mem 0x100000).prev], r.2.pages.2, h2.pages.2))
      = some (some 0x100000, [0x100018, 0, 0x100020, 0], [.alloc 0x100000 1],
        [.free 0x100000 1, .alloc 0x100000 1]) := by
    decide +kernel
  obtain ⟨h, hinit, heval⟩ := Option.bind_eq_some_iff.mp heval
  obtain ⟨⟨p, h1⟩, hcall, heval⟩ := Option.bind_eq_some_iff.mp heval
  obtain ⟨h2, hfree, hres⟩ := Option.map_eq_some_iff.mp heval
  obtain ⟨hfind, ⟨rfl, hcount, hnext, hprev⟩, hlog, hlog2⟩ :
      _ ∧ (p = _ ∧ _ ∧ _ ∧ _) ∧ _ ∧ _ := by
    simpa only [Prod.mk.injEq, cons.injEq, and_true] using hres
  refine ⟨h, h1, h2, hinit, hcall, hfree, ?_, hlog, hnext, hprev, hlog2⟩
  rintro c (⟨b, hb, -, -, rfl⟩ | ⟨page, h0, -⟩)
  · obtain rfl : 0x100000 = b := by simpa using hfind.symm.trans hb
    exact hcount
  · exact nomatch hfind.symm.trans h0

/-- With the block given back its page goes back, and none is held. -/
theorem pages_exact_zeroMem : ∃ h1 h2, TracedRun SafeSplit holeStart h1 [0x100018] ∧
    PagesExact h1 [0x100018] ∧ h1.kfree traced 0x100018 = some h2 ∧
    h2.pages.2 = [.free 0x100000 1, .alloc 0x100000 1] ∧
    TracedRun SafeSplit holeStart h2 [] ∧ PagesExact h2 [] := by
  obtain ⟨h, h1, h2, hinit, hcall, hfree, hcount, -, -, -, hlog⟩ := firstBlock
  have hsafe : SafeSplit h 8 := fun c hc =>
    .inl (congrArg (fun w : UInt32 => w.toNat % 2 ^ 20) (hcount c hc))
  have hstart : TracedRun SafeSplit holeStart h [] := .init .init hinit
  have hrun1 : TracedRun SafeSplit holeStart h1 [0x100018] := hstart.alloc hsafe hcall
  have hrun2 : TracedRun SafeSplit holeStart h2 [] := hrun1.free (mem_singleton_self _) hfree
  exact ⟨h1, h2, hrun1, @pages_exact _ _ smallImage holeMap _ hrun1, hfree, hlog, hrun2,
    @pages_exact _ _ smallImage holeMap _ hrun2⟩

end MyOS
