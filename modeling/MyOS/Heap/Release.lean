import MyOS.Heap.Regions

/-!
# The release of whole regions

`kfree` should return a region to the page allocator as soon as all of its blocks are free. It does
not always: two regions that `pmm_alloc_pages` placed side by side become one block, whose size
matches no page count, and the region behind is kept (`whole_region_kept`). Moreover, where the
previous block of the list is free, the test is made on that block, also when nothing could be
merged into it.

Both need a free block of another region beside the block that is given back. Along the runs that
never meet one (`Separate`), and in which `kmalloc` cuts only where the memory holds no page count
(`CleanSplit`), every region is released by the call that empties it, and a heap without allocations
holds no page of a region that a `kfree` has touched (`whole_region_release`).

The proof follows `Tiled` along the run. A step concerns the blocks of one region, the others are
carried along (`Tiled.Around`). `RegionRun` records the regions that have been touched, since a
region is only tested when something in it is freed: one that was added in vain is kept.
-/

namespace MyOS

open Block Pmm List

variable {blocks l l1 l2 s s1 s2 k : List Block} {b b' c e t : Block} {a y z : ℕ}

/-! ### What the calls may meet -/

/-- Where `kmalloc(n)` would cut a block, the memory holds a page count whose product with the page
size is 0, so that the new block is never taken for a region. -/
def CleanSplit (h : Traced) (n : UInt32) : Prop :=
  ∀ c, Cut h n c → (header h.mem c).pageCount.toNat % 2 ^ 20 = 0

theorem CleanSplit.safe {h : Traced} {n : UInt32} (hc : CleanSplit h n) : SafeSplit h n :=
  fun c hcut => .inl (hc c hcut)

/-- `kfree(p)` takes no free block of another region for a neighbour: where the next block is free
and adjacent it does not begin a region, and where the previous block is free the block of `p` does
not begin one. -/
structure Separate (h : Traced) (p : UInt32) : Prop where
  next : (header h.mem (p - headerSize)).next ≠ 0 →
    (header h.mem (header h.mem (p - headerSize)).next).free = true →
    p.toNat + (header h.mem (p - headerSize)).size.toNat
      = (header h.mem (p - headerSize)).next.toNat →
    ∀ w, ((header h.mem (p - headerSize)).next, w) ∉ heldRegions h.pages.2
  prev : (header h.mem (p - headerSize)).prev ≠ 0 →
    (header h.mem (header h.mem (p - headerSize)).prev).free = true →
    ∀ w, (p - headerSize, w) ∉ heldRegions h.pages.2

/-- The address `a` lies in the region `r`. -/
def Inside (r : UInt32 × UInt32) (a : UInt32) : Prop :=
  r.1.toNat ≤ a.toNat ∧ a.toNat < r.1.toNat + r.2.toNat * 4096

instance (r : UInt32 × UInt32) (a : UInt32) : Decidable (Inside r a) :=
  inferInstanceAs (Decidable (_ ∧ _))

section Steps

variable {h : Traced} {touched : List (UInt32 × UInt32)} {r : UInt32 × UInt32}
variable {rs1 rs2 : List (UInt32 × UInt32)} {segs1 segs2 : List (List Block)}

/-- A region that is more than one free block has a block in use. -/
theorem RegionBlocks.exists_used (hr : RegionBlocks r (k ++ t :: s)) (hfree : t.free = true)
    (hmore : ¬ (k = [] ∧ s = [])) : ∃ d ∈ k ++ t :: s, d.free = false := by
  obtain ⟨-, -, hlast, hhead⟩ := noFreePair_mid.mp hr.pairs
  cases s with
  | cons y s =>
    refine ⟨y, by simp, ?_⟩
    simpa [hfree] using hhead y rfl
  | nil =>
    have hk : k ≠ [] := fun hk => hmore ⟨hk, rfl⟩
    refine ⟨k.getLast hk, mem_append_left _ (getLast_mem hk), ?_⟩
    simpa [hfree] using hlast _ (List.getLast?_eq_some_getLast hk)

section

variable (hsep : Separate h (b.addr + headerSize))
  (ha : Tiled.Around touched h.pages.2 rs1 rs2 r segs1 segs2)
include hsep ha

/-- The block behind the last one of a region begins another region, so it is not merged. -/
theorem Separate.next_apart (ok : h.Ok (l1 ++ b :: l2))
    (h0 : b.addr + headerSize ≠ 0) (hl2 : l2 = segs2.flatten) {k : List Block}
    (hflat : segs2.flatten = c :: k) : ¬ (c.free = true ∧ b.hi = c.lo) := by
  rintro ⟨hfree, hadj⟩
  have hsepn := hsep.next
  rw [UInt32.add_sub_cancel] at hsepn
  have hafter := ha.after
  have hregion : ∃ w, (c.addr, w) ∈ heldRegions h.pages.2 := by
    cases hafter with
    | nil => cases hflat
    | @cons r' seg rs segs hseg _ =>
      obtain ⟨d, l, rfl, haddr⟩ := hseg.1.first
      obtain ⟨rfl, -⟩ : d = c ∧ _ := List.cons.inj (by simpa using hflat)
      refine ⟨r'.2, ?_⟩
      rw [ha.regions, haddr]
      simp
  obtain ⟨w, hw⟩ := hregion
  rw [hflat] at hl2
  subst hl2
  have hcm : c ∈ l1 ++ b :: c :: k := by simp
  have hn : (header h.mem b.addr).next = c.addr := ok.repr.next_eq
  rw [hn, ok.repr.describes.size, (ok.repr.nodes c hcm).free,
    ok.placed.fits_self.payload_toNat h0] at hsepn
  exact hsepn (ok.placed.fits c hcm).addr_ne_zero hfree hadj w hw

/-- The block before the first one of a region is in use, so the test is made in the region. -/
theorem Separate.prev_used (hr : RegionBlocks r (b :: s))
    (ok : h.Ok (l1 ++ b :: l2)) {k : List Block} (hl1 : l1 = k ++ [e]) : e.free = false := by
  subst hl1
  have hsepp := hsep.prev
  rw [UInt32.add_sub_cancel] at hsepp
  obtain ⟨d, l, hd, haddr⟩ := hr.first
  obtain ⟨rfl, -⟩ : b = d ∧ _ := List.cons.inj hd
  have hp : (header h.mem b.addr).prev = e.addr := by
    rw [ok.repr.prev_eq]
    simp
  have hem : e ∈ k ++ [e] ++ b :: l2 := by simp
  by_contra hfree
  rw [hp, (ok.repr.nodes e hem).free] at hsepp
  refine hsepp (ok.placed.fits e hem).addr_ne_zero (by simpa using hfree) r.2 ?_
  rw [ha.regions, haddr]
  simp

end

/-- **`kfree` of a block in a region**: the region stays and has a block in use, or its pages go
back. The second is the case when all its other blocks are free. -/
theorem Tiled.Around.kfree (ha : Tiled.Around touched h.pages.2 rs1 rs2 r segs1 segs2)
    (hr : Region touched r (s1 ++ b :: s2))
    (ok : h.Ok ((segs1.flatten ++ s1) ++ b :: (s2 ++ segs2.flatten))) (hused : b.free = false)
    (h0 : b.addr + headerSize ≠ 0) (hsep : Separate h (b.addr + headerSize)) :
    (∃ seg, RegionBlocks r seg ∧ (∃ d ∈ seg, d.free = false) ∧
      (h.freeBlock traced b.addr).Ok (segs1.flatten ++ (seg ++ segs2.flatten)) ∧
      (h.freeBlock traced b.addr).pages.2 = h.pages.2 ∧ ¬ ∀ d ∈ s1 ++ s2, d.free = true) ∨
    ((h.freeBlock traced b.addr).Ok (segs1.flatten ++ segs2.flatten) ∧
      (h.freeBlock traced b.addr).pages.2 = .free r.1 r.2 :: h.pages.2) := by
  have hnext : s2 = [] → ∀ c k, segs2.flatten = c :: k → ¬ (c.free = true ∧ b.hi = c.lo) := by
    rintro rfl c k hflat
    exact hsep.next_apart ha ok h0 rfl hflat
  have hprev : s1 = [] → ∀ k e, segs1.flatten = k ++ [e] → e.free = false := by
    rintro rfl k e hflat
    exact hsep.prev_used ha hr.1 ok (by rw [append_nil, hflat])
  obtain ⟨k, t, s, g, hblocks, hfree, hall, okg, hpages, heq⟩ :=
    freeBlock_region ok hused hr.1 hnext hprev
  -- the test of `release_whole_region_if_possible` asks whether `t` is the whole region
  have hiff := hblocks.release_iff okg.placed.fits_self hfree
  rw [heq]
  rcases okg.releaseWholeRegionIfPossible (P := traced) with
    ⟨hsame, hnot⟩ | ⟨hf, hcount, hsize, hfreed, ok'⟩
  · rw [hiff] at hnot
    refine .inl ⟨k ++ t :: s, hblocks, hblocks.exists_used hfree hnot, ?_, ?_,
      fun hothers => hnot (hall hothers)⟩
    · rw [hsame]
      simpa using okg
    · rw [hsame, hpages]
  · obtain ⟨rfl, rfl⟩ := hiff.mp ⟨hf, hcount, hsize⟩
    obtain ⟨d, l, hd, haddr⟩ := hblocks.first
    obtain ⟨rfl, -⟩ : t = d ∧ _ := List.cons.inj hd
    have hcounts : t.pageCount = r.2 := hblocks.counts.1
    refine .inr ⟨by simpa using ok', ?_⟩
    rw [hfreed, hpages, haddr, hcounts]
    rfl

/-- The search of `kmalloc` appends regions. -/
theorem grows_tiled (start : Pmm) (h : Traced) (blocks : List Block) (size : UInt32)
    (touched : List (UInt32 × UInt32)) :
    Grows traced size fun h1 blocks1 => Searching start h blocks size h1 blocks1 ∧
      Tiled touched h1.pages.2 blocks1 := by
  have hgrows := grows_searching start h blocks size
  refine ⟨fun hI => hI.1.ok, fun hI => hgrows.run hI.1, ?_⟩
  rintro h1 h2 blocks1 page ⟨hs, ht⟩ hnone hne halloc ok2 hframe
  obtain ⟨hrun, hdis⟩ := hgrows.run hs hnone (by rw [halloc]; exact hne)
  rw [halloc] at hrun hdis
  refine ⟨hgrows.step hs hnone hne halloc ok2 hframe, ?_⟩
  have hcalls := congrArg (fun r => r.2.2) halloc
  simp only [traced] at hcalls
  have hpage : (pmmSource.allocPages h1.pages.1 (Heap.pagesNeeded size)).1 = page :=
    congrArg Prod.fst halloc
  have hheld : heldRegions h2.pages.2
      = heldRegions h1.pages.2 ++ [(page, Heap.pagesNeeded size)] := by
    rw [← hcalls, hpage, heldRegions, if_neg hne]
  obtain ⟨segs, rfl, hall⟩ := ht.split
  refine ⟨⟨segs ++ [[ofPages page (Heap.pagesNeeded size)]], by simp, ?_⟩, fun r hr => ?_⟩
  · rw [hheld]
    refine rel_append hall (.cons ⟨.ofPages hrun, fun hr => ?_⟩ .nil)
    -- a touched region has its blocks on the list, and the new one lies outside
    obtain ⟨-, -, segs1, segs2, seg, -, hseg, hflat⟩ := ht.around_region (ht.held _ hr)
    obtain ⟨d, l, rfl, haddr⟩ := hseg.1.first
    exact absurd haddr (hdis d (by rw [hflat]; simp)).addr_ne
  · rw [hheld]
    exact mem_append_left _ (ht.held r hr)

/-- The regions that `kfree(p)` leaves touched: those touched before and that of `p`, as far as they
are still held. -/
def touch (h : Traced) (p : UInt32) (h' : Traced) (touched : List (UInt32 × UInt32)) :
    List (UInt32 × UInt32) :=
  ((heldRegions h.pages.2).filter (Inside · (p - headerSize)) ++ touched).filter
    (· ∈ heldRegions h'.pages.2)

variable {h' : Traced} {rs : List (UInt32 × UInt32)} {segs : List (List Block)} {live : List UInt32}

theorem mem_touch {p : UInt32} : r ∈ touch h p h' touched ↔
    ((r ∈ heldRegions h.pages.2 ∧ Inside r (p - headerSize)) ∨ r ∈ touched) ∧
      r ∈ heldRegions h'.pages.2 := by
  unfold touch
  rw [mem_filter, mem_append, mem_filter]
  simp only [decide_eq_true_eq]

section

variable (hall : List.Forall₂ (Region touched) rs segs)
include hall

/-- A block outside the blocks of some regions lies in none of them. -/
theorem not_inside (hdis : ∀ d ∈ segs.flatten, b.Disjoint d) (hr : r ∈ rs) : ¬ Inside r b.addr := by
  obtain ⟨segs1, seg, segs2, -, -, rfl, -, -, hseg, -⟩ := forall₂_split hall.flip hr
  rintro ⟨hlo, hhi⟩
  obtain ⟨d, hd, hdlo, hdhi⟩ := hseg.1.tiles.cover hlo hhi
  have hbd := hdis d (by simp [hd])
  have hb := hi_eq b
  unfold Block.Disjoint at hbd
  unfold Block.lo at *
  omega

theorem region_mono {touched' : List (UInt32 × UInt32)}
    (hsub : ∀ r ∈ rs, r ∈ touched' → r ∈ touched) :
    List.Forall₂ (Region touched') rs segs := by
  induction hall with
  | nil => exact .nil
  | cons hr _ ih =>
    exact .cons ⟨hr.1, fun ht => hr.2 (hsub _ mem_cons_self ht)⟩
      (ih fun r hr' => hsub r (mem_cons_of_mem _ hr'))

/-- In the regions that `p` is not in, touched means touched before. -/
theorem touch_other (hdis : ∀ d ∈ segs.flatten, b.Disjoint d) :
    List.Forall₂ (Region (touch h (b.addr + headerSize) h' touched)) rs segs := by
  refine region_mono hall fun r hr hmem => (mem_touch.mp hmem).1.resolve_left fun hin => ?_
  rw [UInt32.add_sub_cancel] at hin
  exact not_inside hall hdis hr hin.2

end

/-- `kfree` keeps the regions. -/
theorem Tiled.kfree (ht : Tiled touched h.pages.2 blocks) (ok : h.Ok blocks) (hb : b ∈ blocks)
    (hused : b.free = false) (h0 : b.addr + headerSize ≠ 0)
    (hsep : Separate h (b.addr + headerSize)) :
    ∃ blocks', (h.freeBlock traced b.addr).Ok blocks' ∧
      Tiled (touch h (b.addr + headerSize) (h.freeBlock traced b.addr) touched)
        (h.freeBlock traced b.addr).pages.2 blocks' := by
  obtain ⟨rs1, rs2, r, segs1, segs2, s1, s2, ha, hr, rfl⟩ := ht.around hb
  have hfr := ha.kfree hr ok hused h0 hsep
  obtain ⟨hr1, -⟩ := ha.not_mem hr.1 (by simpa using ok.placed)
  generalize h.freeBlock traced b.addr = h' at hfr ⊢
  have hheld : ∀ r' ∈ touch h (b.addr + headerSize) h' touched, r' ∈ heldRegions h'.pages.2 :=
    fun r' hr' => (mem_touch.mp hr').2
  have hbefore : List.Forall₂ (Region (touch h (b.addr + headerSize) h' touched)) rs1 segs1 :=
    touch_other ha.before fun d hd => ok.placed.disjoint_of_mem (by simp [mem_flatten.mp hd])
  have hafter : List.Forall₂ (Region (touch h (b.addr + headerSize) h' touched)) rs2 segs2 :=
    touch_other ha.after fun d hd => ok.placed.disjoint_of_mem (by simp [mem_flatten.mp hd])
  rcases hfr with ⟨seg, hseg, hsome, ok', hcalls, -⟩ | ⟨ok', hcalls⟩
  · have ha' : Tiled.Around (touch h (b.addr + headerSize) h' touched) h'.pages.2 rs1 rs2 r segs1
        segs2 := ⟨by rw [hcalls]; exact ha.regions, hbefore, hafter⟩
    exact ⟨_, ok', ha'.replace hheld ⟨hseg, fun _ => hsome⟩⟩
  · refine ⟨_, ok', ⟨segs1 ++ segs2, by simp, ?_⟩, hheld⟩
    rw [hcalls, heldRegions, ha.regions, erase_append_right _ hr1, erase_cons_head]
    exact rel_append hbefore hafter

/-- Every block in use belongs to a live pointer. -/
def AllLive (live : List UInt32) (blocks : List Block) : Prop :=
  ∀ b ∈ inUse blocks, b.addr + headerSize ∈ live

/-- The block that `kmalloc` takes is the only one that comes into use. -/
theorem AllLive.carve {m : Mem} {size : UInt32} {rest : List Block}
    (hlive : AllLive live (l1 ++ b :: l2)) (hfree : b.free = true)
    (hcarved : Carved m size b b' rest) :
    AllLive ((b.addr + headerSize) :: live) (l1 ++ b' :: (rest ++ l2)) := by
  unfold AllLive at hlive ⊢
  rw [inUse_append, inUse_cons_of_free hfree, forall_mem_append] at hlive
  rw [inUse_append, hcarved.inUse_eq, forall_mem_append, forall_mem_cons, hcarved.addr_eq]
  exact ⟨fun c hc => mem_cons_of_mem _ (hlive.1 c hc), mem_cons_self,
    fun c hc => mem_cons_of_mem _ (hlive.2 c hc)⟩

/-- `kmalloc` keeps the regions. -/
theorem Tiled.kmalloc {start : Pmm} {n p : UInt32} (ht : Tiled touched h.pages.2 blocks)
    (ok : h.Ok blocks) (hb : Backed start h.pages blocks) (hlive : AllLive live blocks)
    (hclean : CleanSplit h n) (hcall : h.kmalloc traced n = some (p, h')) :
    ∃ blocks', h'.Ok blocks' ∧ Tiled touched h'.pages.2 blocks' ∧
      AllLive (if p = 0 then live else p :: live) blocks' := by
  have hweak : ∀ q, q ∈ live → q ∈ if p = 0 then live else p :: live := by
    intro q hq
    split
    · exact hq
    · exact mem_cons_of_mem _ hq
  by_cases hn0 : n = 0
  · rw [Heap.kmalloc, if_pos hn0] at hcall
    obtain ⟨-, rfl⟩ := Prod.mk.inj (Option.some.inj hcall)
    exact ⟨blocks, ok, ht, fun b hb => hweak _ (hlive b hb)⟩
  obtain ⟨p', h₀, heq, hres⟩ := (grows_tiled start h blocks (Word.alignUp n 8) touched).kmalloc
    ⟨⟨ok, hb, rfl, .refl _, .begin rfl⟩, ht⟩ hn0
  obtain ⟨rfl, rfl⟩ : p' = p ∧ h₀ = h' := by simpa using heq.symm.trans hcall
  rcases hres with ⟨rfl, h1, blocks1, ⟨hs, ht1⟩, -, hnull, rfl⟩ |
    ⟨h1, l1, b, l2, b', rest, ⟨hs, ht1⟩, hserves, hfind, rfl, hcarved, ok', hpages⟩
  · -- a refused call leaves the regions as they are
    have hcalls : heldRegions (traced.allocPages h1.pages
        (Heap.pagesNeeded (Word.alignUp n 8))).2.2 = heldRegions h1.pages.2 := if_pos hnull
    refine ⟨blocks1, hs.ok.withPages _, ⟨?_, ?_⟩, fun b hb => hweak _ (hlive b (hs.inUse_eq ▸ hb))⟩
    · rw [hcalls]
      exact ht1.split
    · rw [hcalls]
      exact ht1.held
  · have hfree := (serves_iff.mp hserves).1
    have hrest : ∀ c ∈ rest, c.pageCount.toNat % 2 ^ 20 = 0 := by
      intro c hc
      obtain ⟨hcut, hcount⟩ := hs.rest_cut ok (by simp) hfind hcarved c hc
      rw [hcount]
      exact hclean _ hcut
    obtain ⟨rs1, rs2, r, segs1, segs2, s1, s2, ha, hr, hlist⟩ :=
      ht1.around (b := b) (by simp)
    -- the list is cut at `b` in two ways, and `b` is on it once
    have hnot : b ∉ l1 ++ l2 := fun hmem => (hs.ok.placed.disjoint_of_mem hmem).addr_ne rfl
    obtain ⟨rfl, -, rfl⟩ := (append_cons_inj_of_notMem (fun hmem => hnot (mem_append_left _ hmem))
      (fun hmem => hnot (mem_append_right _ hmem))).mp hlist
    have hused : b'.free = false := by cases hcarved <;> rfl
    have hseg : Region touched r (s1 ++ b' :: (rest ++ s2)) :=
      ⟨hr.1.carve hs.ok.placed.fits_self hfree hcarved hrest, fun _ => ⟨b', by simp, hused⟩⟩
    have ht' := ha.replace ht1.held hseg
    rw [← hpages] at ht'
    refine ⟨_, ok', ?_, ?_⟩
    · have hcons : segs1.flatten ++ s1 ++ b' :: (rest ++ (s2 ++ segs2.flatten))
          = segs1.flatten ++ (s1 ++ b' :: (rest ++ s2) ++ segs2.flatten) := by simp
      rw [hcons]
      exact ht'
    · rw [if_neg (hs.backed.owned.payload_ne_zero (by simp))]
      exact AllLive.carve (fun c hc => hlive c (hs.inUse_eq ▸ hc)) hfree hcarved

/-- A block that is given back is no longer in use. -/
theorem AllLive.kfree {blocks' : List Block} (hlive : AllLive live (l1 ++ b :: l2))
    (ok : h.Ok (l1 ++ b :: l2)) (hused : b.free = false) (heq : h' = h.freeBlock traced b.addr)
    (ok' : h'.Ok blocks') :
    AllLive (live.erase (b.addr + headerSize)) blocks' := by
  obtain ⟨blocks1, ok1, hfreed⟩ := ok.freeBlock (P := traced) hused
  rw [← heq] at ok1 hfreed
  obtain rfl := ok'.unique ok1
  intro c hc
  rw [hfreed.inUse_eq, inUse_append, inUse_cons_of_free rfl, ← inUse_append] at hc
  obtain ⟨hmem, hcu⟩ := mem_inUse.mp hc
  have hne := (ok.placed.disjoint_of_mem hmem).addr_ne
  refine (mem_erase_of_ne fun hadd => hne ?_).mpr
    (hlive c (mem_inUse.mpr ⟨mem_of_mem_around hmem, hcu⟩))
  exact ((UInt32.add_left_inj headerSize).mp hadd).symm

/-- `RegionRun start h live touched`: the heap `h`, with the pointers `live` handed out and not
given back, is reached by calls of `kmalloc` and `kfree` that meet the two conditions; `kfree` has
touched the regions `touched` since they were obtained. As in `TracedRun`, the rest of the kernel
takes and gives back pages of its own and writes anywhere but to the headers of the list. -/
inductive RegionRun (start : Pmm) : Traced → List UInt32 → List (UInt32 × UInt32) → Prop
  | init {p : Pmm} {ledger : List (Finset ℕ)} {m : Mem} {h : Traced} :
      Reachable start p ledger → Heap.heapInitialize traced m (p, []) = some h →
      RegionRun start h [] []
  | alloc {h h' : Traced} {live : List UInt32} {touched : List (UInt32 × UInt32)}
      {n p : UInt32} : RegionRun start h live touched → CleanSplit h n →
      h.kmalloc traced n = some (p, h') →
      RegionRun start h' (if p = 0 then live else p :: live) touched
  | free {h h' : Traced} {live : List UInt32} {touched : List (UInt32 × UInt32)} {p : UInt32} :
      RegionRun start h live touched → p ∈ live → Separate h p → h.kfree traced p = some h' →
      RegionRun start h' (live.erase p) (touch h p h' touched)
  | write {h : Traced} {live : List UInt32} {touched : List (UInt32 × UInt32)} {m : Mem} :
      RegionRun start h live touched →
      (∀ a, Listed h.mem h.head a → ∀ k < 24, m (a.toNat + k) = h.mem (a.toNat + k)) →
      RegionRun start { h with mem := m } live touched
  | otherAlloc {h : Traced} {live : List UInt32} {touched : List (UInt32 × UInt32)}
      (count : UInt32) : RegionRun start h live touched →
      RegionRun start
        { h with pages := ((h.pages.1.pmmAllocPages count).2, h.pages.2) } live touched
  | otherFree {h : Traced} {live : List UInt32} {touched : List (UInt32 × UInt32)}
      {address count : UInt32} : RegionRun start h live touched → address.toNat % 4096 = 0 →
      (∀ k ∈ pageRun (address.toNat / 4096) count.toNat, k < 32768 ∧
        start.bitmapTest k = false ∧ h.pages.1.bitmapTest k = true ∧ k ∉ obtained h.pages.2) →
      RegionRun start
        { h with pages := (h.pages.1.pmmFreePagesBlock address count, h.pages.2) } live touched

end Steps

section Runs

variable {start : Pmm} {h h' : Traced} {live : List UInt32} {touched : List (UInt32 × UInt32)}

theorem RegionRun.traced (hrun : RegionRun start h live touched) :
    TracedRun SafeSplit start h live := by
  induction hrun with
  | init hreach hinit => exact .init hreach hinit
  | alloc _ hclean hcall ih => exact ih.alloc hclean.safe hcall
  | free _ hp _ hcall ih => exact ih.free hp hcall
  | write _ hw ih => exact ih.write hw
  | otherAlloc count _ ih => exact ih.otherAlloc count
  | otherFree _ halign hpages ih => exact ih.otherFree halign hpages

/-- The regions keep their form along every such run. -/
theorem RegionRun.tiled {image : KernelImage} {entries : List E820Entry} {p0 : Pmm}
    (hrun : RegionRun (p0.pmmInitialize image.kernelEnd entries) h live touched) :
    ∀ blocks, h.Ok blocks → Tiled touched h.pages.2 blocks ∧ AllLive live blocks := by
  induction hrun with
  | @init p ledger m h hreach hinit =>
    intro blocks ok
    obtain ⟨page, blocks0, hres, hh, hcalls, -⟩ := heapInitialize_owned hreach hinit
    -- a heap stands for one list only, here and in each case below
    obtain rfl := ok.unique hh.ok
    rw [hcalls]
    have hheld : heldRegions [.alloc page 1] = if page = 0 then [] else [(page, 1)] := rfl
    rcases hres with ⟨rfl, rfl⟩ | ⟨hpr, rfl⟩
    · exact ⟨⟨⟨[], rfl, .nil⟩, by simp⟩, fun b hb => absurd hb not_mem_nil⟩
    · rw [if_neg hpr.ne_zero] at hheld
      refine ⟨⟨⟨[[ofPages page 1]], rfl, ?_⟩, by simp⟩, ?_⟩
      · rw [hheld]
        exact .cons ⟨.ofPages hpr, by simp⟩ .nil
      · intro b hb
        rw [inUse_cons_of_free rfl] at hb
        cases hb
  | @alloc h h' live touched n p hrun hclean hcall ih =>
    intro blocks ok
    obtain ⟨blocks0, hh, hb⟩ := hrun.traced.backed
    obtain ⟨ht, hlive⟩ := ih blocks0 hh.ok
    obtain ⟨blocks', ok', ht', hlive'⟩ := ht.kmalloc hh.ok hb hlive hclean hcall
    obtain rfl := ok.unique ok'
    exact ⟨ht', hlive'⟩
  | @free h h' live touched p hrun hp hsep hcall ih =>
    intro blocks ok
    obtain ⟨blocks0, hh, -⟩ := hrun.traced.backed
    obtain ⟨ht, hlive⟩ := ih blocks0 hh.ok
    obtain ⟨l1, b, l2, rfl, hused, haddr, h0⟩ := hh.find (mem_map_of_mem hp)
    obtain rfl : b.addr + headerSize = p := haddr
    obtain rfl : Heap.freeBlock MyOS.traced h b.addr = h' :=
      Option.some.inj ((hh.ok.kfree_eq hused h0).symm.trans hcall)
    obtain ⟨blocks', ok', ht'⟩ := ht.kfree hh.ok (by simp) hused h0 hsep
    obtain rfl := ok.unique ok'
    exact ⟨ht', hlive.kfree hh.ok hused rfl ok⟩
  | @write h live touched m hrun hw ih =>
    intro blocks ok
    obtain ⟨blocks0, hh, -⟩ := hrun.traced.backed
    obtain rfl := ok.unique (hh.write hw).ok
    exact ih blocks hh.ok
  | @otherAlloc h live touched count hrun ih =>
    intro blocks ok
    exact ih blocks (ok.withPages h.pages)
  | @otherFree h live touched address count hrun halign hpages ih =>
    intro blocks ok
    exact ih blocks (ok.withPages h.pages)

/-- `kfree(p)` comes to an end, and when it makes every block of a held region free, it returns the
pages of the region. -/
def ReleasesRegion (h : Traced) (p : UInt32) : Prop :=
  ∃ h', h.kfree traced p = some h' ∧ ∀ r ∈ heldRegions h.pages.2, Inside r (p - headerSize) →
    (∀ a, Listed h.mem h.head a → Inside r a → a = p - headerSize ∨ (header h.mem a).free = true) →
    h'.pages.2 = .free r.1 r.2 :: h.pages.2

/-- A block whose header lies in a region is one of its blocks. -/
theorem Tiled.around_inside {r : UInt32 × UInt32} {calls : List PageCall}
    (ht : Tiled touched calls blocks) (hp : Placed blocks) (hb : b ∈ blocks)
    (hr : r ∈ heldRegions calls) (hin : Inside r b.addr) :
    ∃ rs1 rs2 segs1 segs2 s1 s2, Tiled.Around touched calls rs1 rs2 r segs1 segs2 ∧
      Region touched r (s1 ++ b :: s2) ∧
      blocks = (segs1.flatten ++ s1) ++ b :: (s2 ++ segs2.flatten) := by
  obtain ⟨rs1, rs2, segs1, segs2, seg, ha, hseg, rfl⟩ := ht.around_region hr
  obtain ⟨d, hd, hlo, hhi⟩ := hseg.1.tiles.cover hin.1 hin.2
  -- the block that covers the address is the block itself
  have hbd : b = d := by
    by_contra hne
    have hdis := hp.disjoint.forall hb (by simp [hd]) hne
    have := hi_eq b
    unfold Block.Disjoint at hdis
    unfold Block.lo at *
    omega
  subst hbd
  obtain ⟨s1, s2, rfl⟩ := append_of_mem hd
  exact ⟨rs1, rs2, segs1, segs2, s1, s2, ha, hseg, by simp⟩

/-- **Whole regions are released**, along the runs whose calls of `kmalloc` cut only where the
memory holds no page count and whose calls of `kfree` meet no free block of another region: a call
that makes every block of a region free returns the region, and when nothing is allocated and each
region has been touched, no page is held. -/
theorem whole_region_release {image : KernelImage} {entries : List E820Entry} {p0 : Pmm}
    (hrun : RegionRun (p0.pmmInitialize image.kernelEnd entries) h live touched) :
    (∀ p ∈ live, Separate h p → ReleasesRegion h p) ∧
    (live = [] → (∀ r ∈ heldRegions h.pages.2, r ∈ touched) → obtained h.pages.2 = ∅) := by
  obtain ⟨blocks, hh, hb⟩ := hrun.traced.backed
  obtain ⟨ht, hlive⟩ := hrun.tiled blocks hh.ok
  refine ⟨fun p hp hsep => ?_, fun hnone htouched => ?_⟩
  · obtain ⟨l1, b, l2, hlist, hused, haddr, h0⟩ := hh.find (mem_map_of_mem hp)
    obtain rfl : b.addr + headerSize = p := haddr
    refine ⟨_, Heap.Ok.kfree_eq (hlist ▸ hh.ok) hused h0, fun r hr hin hothers => ?_⟩
    rw [UInt32.add_sub_cancel] at hin hothers
    obtain ⟨rs1, rs2, segs1, segs2, s1, s2, ha, hseg, rfl⟩ :=
      ht.around_inside hh.ok.placed (by rw [hlist]; simp) hr hin
    rcases ha.kfree hseg hh.ok hused h0 hsep with ⟨-, -, -, -, -, hnot⟩ | ⟨-, hcalls⟩
    · -- it would not be given back if another of its blocks were in use
      refine absurd (fun d hd => ?_) hnot
      have hmem : d ∈ s1 ++ b :: s2 := mem_of_mem_around hd
      have hall : d ∈ (segs1.flatten ++ s1) ++ (s2 ++ segs2.flatten) := by
        rcases mem_append.mp hd with hd | hd <;> simp [hd]
      have hbounds := hseg.1.tiles.bounds hmem
      have hdin : Inside r d.addr := by
        refine ⟨hbounds.1, lt_of_lt_of_le ?_ hbounds.2⟩
        rw [hi_eq, Block.lo]
        omega
      have hlisted := (hh.ok.repr.listed_iff hh.ok.placed.fits).mpr
        (mem_map_of_mem (mem_of_mem_around hall))
      rcases hothers d.addr hlisted hdin with heq | hfree
      · exact absurd heq.symm (hh.ok.placed.disjoint_of_mem hall).addr_ne
      · rwa [(hh.ok.repr.nodes d (mem_of_mem_around hall)).free] at hfree
    · exact hcalls
  · subst hnone
    -- a region that was used has a block in use, and none is live
    have hregions : heldRegions h.pages.2 = [] := by
      refine eq_nil_iff_forall_not_mem.mpr fun r hr => ?_
      obtain ⟨-, -, segs1, segs2, seg, -, hseg, rfl⟩ := ht.around_region hr
      obtain ⟨d, hd, hused⟩ := hseg.2 (htouched r hr)
      exact not_mem_nil (hlive d (mem_inUse.mpr ⟨by simp [hd], hused⟩))
    obtain ⟨segs, rfl, hall⟩ := ht.split
    rw [hregions] at hall
    obtain rfl := forall₂_nil_left_iff.mp hall
    refine Finset.eq_empty_of_forall_notMem fun q hq => ?_
    have hcov := (hb.cover (q * 4096)).mpr (by rwa [Nat.mul_div_cancel _ (by decide)])
    exact not_covered_nil hcov

end Runs

/-- The free block of the first region is the only free one, and is given back with it. -/
theorem whole_region_release_zeroMem : ∃ h, RegionRun holeStart h [0x100018] [] ∧
    Separate h 0x100018 ∧ ReleasesRegion h 0x100018 := by
  obtain ⟨h, h1, -, hinit, hcall, -, hcount, hlog, hnext, hprev, -⟩ := firstBlock
  have hclean : CleanSplit h 8 := fun c hc =>
    congrArg (fun w : UInt32 => w.toNat % 2 ^ 20) (hcount c hc)
  have hrun : RegionRun holeStart h1 [0x100018] [] :=
    (RegionRun.init .init hinit).alloc hclean hcall
  have hsub : (0x100018 : UInt32) - headerSize = 0x100000 := by decide
  have hsep : Separate h1 0x100018 := by
    refine ⟨fun _ _ _ w => ?_, fun h0 => ?_⟩
    · rw [hsub, hnext, hlog]
      simp [heldRegions]
    · rw [hsub] at h0
      exact absurd hprev h0
  exact ⟨h1, hrun, hsep, (@whole_region_release _ _ _ smallImage holeMap _ hrun).1 _
    (mem_singleton_self _) hsep⟩

/-- **A region that is not released.** The first page is cut behind 8 bytes, and a second region of
one page happens to follow it. When the only block of the second region is given back, it is merged
into the free end of the first one, and no page is returned. -/
theorem whole_region_kept : ∃ h live, TracedRun (fun _ _ => True) holeStart h live ∧
    0x101018 ∈ live ∧ ¬ ReleasesRegion h 0x101018 := by
  have heval : ((Heap.heapInitialize traced ⟨fun _ => 0⟩ (holeStart, [])).bind fun h =>
      [HeapCall.kmalloc 8, .kmalloc 4072].foldlM HeapCall.apply (h, [])).map
        (fun s => (s.2, s.1.pages.2, s.1.head,
          [0x100000, 0x100020, 0x101000].map fun a => (header s.1.mem a).next,
          (s.1.kfree traced 0x101018).map fun h' => h'.pages.2))
      = some ([0x101018, 0x100018], [.alloc 0x101000 1, .alloc 0x100000 1], 0x100000,
        [0x100020, 0x101000, 0], some [.alloc 0x101000 1, .alloc 0x100000 1]) := by
    decide +kernel
  obtain ⟨s, hs, hres⟩ := Option.map_eq_some_iff.mp heval
  obtain ⟨h, hinit, hcalls⟩ := Option.bind_eq_some_iff.mp hs
  obtain ⟨hlive, hlog, hhead, hnext, hfree⟩ : _ ∧ _ ∧ _ ∧ _ ∧ _ := by
    simpa only [Prod.mk.injEq] using hres
  obtain ⟨hn1, hn2, hn3⟩ : _ ∧ _ ∧ _ := by simpa using hnext
  have hrun : TracedRun (fun _ _ => True) holeStart s.1 s.2 :=
    TracedRun.applyAll (s := (h, [])) (.init .init hinit) hcalls
  refine ⟨s.1, s.2, hrun, by rw [hlive]; decide, ?_⟩
  rintro ⟨h1, hh1, hrel⟩
  obtain ⟨h', hh', hlog'⟩ := Option.map_eq_some_iff.mp hfree
  obtain rfl : h1 = h' := Option.some.inj (hh1.symm.trans hh')
  -- the list consists of three blocks, and one of them lies in the second region
  have hlisted : ∀ a, Listed s.1.mem s.1.head a → a = 0x100000 ∨ a = 0x100020 ∨ a = 0x101000 := by
    intro a ha
    induction ha with
    | head => exact .inl hhead
    | next _ h0 ih =>
      rcases ih with rfl | rfl | rfl
      · exact .inr (.inl hn1)
      · exact .inr (.inr hn2)
      · exact absurd hn3 h0
  have hsub : (0x101018 : UInt32) - headerSize = 0x101000 := by decide
  have hcall := hrel (0x101000, 1) (by rw [hlog]; decide) (by rw [hsub]; decide)
    fun a ha hin => by
      rcases hlisted a ha with rfl | rfl | rfl
      · exact absurd hin (by decide)
      · exact absurd hin (by decide)
      · exact .inl hsub.symm
  rw [hlog', hlog] at hcall
  cases hcall

end MyOS
