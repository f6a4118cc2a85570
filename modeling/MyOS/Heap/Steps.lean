import MyOS.Heap.Surgery

/-!
# The heap functions on the block list

For each function of `heap.c`, the list that the heap holds afterwards, from a heap that satisfies
`Heap.Ok`. `kmalloc` may add regions before it finds a block; what has to be known about the page
allocator for that is `Grows`, an invariant of the caller's choice. `kmalloc` then carves the block
(`Carved`), and `kfree` merges free neighbours (`Merged`) and may release a region (`Freed`). Both
return: the list is shorter than `loopBound`, and every round of the search makes it longer.
-/

namespace MyOS

open Block List

variable {σ : Type} {h : Heap σ} {P : PageSource σ}
variable {blocks l1 l2 : List Block} {b c : Block} {size : UInt32}

/-! ### Counters -/

@[simp] theorem totalSize_nil : totalSize [] = 0 := rfl

@[simp] theorem totalSize_append (l l' : List Block) :
    totalSize (l ++ l') = totalSize l + totalSize l' := by
  simp [totalSize]

@[simp] theorem totalSize_cons (b : Block) (l : List Block) :
    totalSize (b :: l) = b.size.toNat + totalSize l := by
  simp [totalSize]

@[simp] theorem usedSize_append (l l' : List Block) :
    usedSize (l ++ l') = usedSize l + usedSize l' := by
  simp [usedSize]

@[simp] theorem usedSize_cons (b : Block) (l : List Block) :
    usedSize (b :: l) = b.usedBytes + usedSize l := by
  simp [usedSize]

theorem usedBytes_of_free (hb : b.free = true) : b.usedBytes = 0 := if_pos hb

theorem usedBytes_of_inUse (hb : b.free = false) : b.usedBytes = b.size.toNat := by
  simp [usedBytes, hb]

/-- One block of a placed list is replaced in its place. -/
theorem Placed.replace_one {b' : Block} (h : Placed (l1 ++ b :: l2)) (hfits : b'.Fits)
    (hlo : b'.lo = b.lo) (hhi : b'.hi ≤ b.hi) : Placed (l1 ++ b' :: l2) := by
  have key := Placed.replace l1 l2 [b] [b'] (by simpa using h)
    (by simpa using hfits) (pairwise_singleton _ _) (fun d hd c hc => ?_)
  · simpa using key
  · obtain rfl := mem_singleton.mp hc
    have := hd b mem_cons_self
    unfold Block.Disjoint at this ⊢
    omega

/-- Two adjacent blocks of a placed list become one. -/
theorem Placed.absorb (h : Placed (l1 ++ b :: c :: l2)) (hbc : b.hi = c.lo) :
    Placed (l1 ++ b.absorb c :: l2) := by
  have hb := h.fits b (by simp)
  have hc := h.fits c (by simp)
  have key := Placed.replace l1 l2 [b, c] [b.absorb c]
    (by simpa using h) (by simpa using hb.absorb hc hbc) (pairwise_singleton _ _)
    (fun d hd e he => ?_)
  · simpa using key
  · obtain rfl := mem_singleton.mp he
    have hbd := hd b (by simp)
    have hcd := hd c (by simp)
    unfold Block.Disjoint at hbd hcd ⊢
    rw [absorb_hi hb hc hbc]
    have := hi_eq d
    have := hi_eq b
    show c.hi ≤ d.lo ∨ d.hi ≤ b.lo
    omega

namespace Heap.Ok

section Block

variable (ok : h.Ok (l1 ++ b :: l2))
include ok

/-- `split_block` on a free block: it is too small to be split, or its rest becomes a block. -/
theorem splitBlock (hfree : b.free = true)
    (h8 : size.toNat % 8 = 0) (hsize : size.toNat ≤ b.size.toNat) :
    (h.splitBlock b.addr size = h ∧ b.size.toNat < size.toNat + 56) ∨
    (size.toNat + 56 ≤ b.size.toNat ∧
      (h.splitBlock b.addr size).mem = splitHeaders h.mem b.addr size ∧
      (h.splitBlock b.addr size).pages = h.pages ∧
      (h.splitBlock b.addr size).Ok (l1 ++ { b with size := size } ::
        b.rest size (header h.mem (b.addr + headerSize + size)).pageCount :: l2)) := by
  have hb := ok.placed.fits_self
  have hbound : (size + headerSize + heapMinSplit).toNat = size.toNat + 56 := by
    -- a block of this size lies above the first page, so the sum does not wrap
    have hlow := hb.low
    have hend := hb.bound
    rw [hi_eq] at hend
    simp only [UInt32.toNat_add, headerSize_toNat, show heapMinSplit.toNat = 32 from rfl]
    omega
  have hcond : (header h.mem b.addr).size < size + headerSize + heapMinSplit
      ↔ b.size.toNat < size.toNat + 56 := by
    rw [ok.repr.describes.size, UInt32.lt_iff_toNat_lt, hbound]
  unfold Heap.splitBlock
  by_cases hsmall : b.size.toNat < size.toNat + 56
  · exact .inl ⟨if_pos (hcond.mpr hsmall), hsmall⟩
  · rw [if_neg (fun hc => hsmall (hcond.mp hc))]
    have hfit : size.toNat + 24 ≤ b.size.toNat := by omega
    refine .inr ⟨by omega, rfl, rfl, ok.repr.splitHeaders ok.placed hfit, ?_, ?_, ?_⟩
    · have key := Placed.replace l1 l2 [b]
        [{ b with size := size }, b.rest size (header h.mem (b.addr + headerSize + size)).pageCount]
        (by simpa using ok.placed) ?_ ?_ ?_
      · simpa using key
      · exact forall_mem_cons.mpr ⟨hb.shrink hsize h8, forall_mem_singleton.mpr (hb.rest hfit h8)⟩
      · refine pairwise_pair.mpr (.inl ?_)
        rw [rest_lo hb hfit]
        exact le_refl _
      · intro d hd c hc
        have hbd := hd b mem_cons_self
        simp only [mem_cons, not_mem_nil, or_false] at hc
        rcases hc with rfl | rfl
        · unfold Block.Disjoint hi lo at hbd ⊢
          simp only at hbd ⊢
          omega
        · unfold Block.Disjoint at hbd ⊢
          rw [rest_lo hb hfit, rest_hi hb hfit]
          omega
    · have htotal := ok.total
      have hlt := h.total.toNat_lt
      simp only [totalSize_append, totalSize_cons] at htotal ⊢
      rw [rest_size hfit, UInt32.toNat_sub, headerSize_toNat]
      omega
    · have hused := ok.used
      simp only [usedSize_append, usedSize_cons] at hused ⊢
      rw [usedBytes_of_free (b := b.rest size _) rfl, Nat.zero_add]
      rw [usedBytes_of_free hfree] at hused
      rw [usedBytes_of_free (b := { b with size := size }) hfree]
      exact hused

/-- A flag is written, and the bytes in use are counted anew. -/
theorem withFree {v : Bool} {used : UInt32}
    (hused : used.toNat = usedSize (l1 ++ { b with free := v } :: l2)) :
    ({ h with mem := setFree h.mem b.addr v, used := used } : Heap σ).Ok
      (l1 ++ { b with free := v } :: l2) := by
  have hb := ok.placed.fits_self
  have htotal := ok.total
  refine ⟨ok.repr.setFree ok.placed v, ok.placed.replace_one
    ⟨hb.low, hb.aligned, hb.size_aligned, hb.bound⟩ rfl (le_refl _), ?_, hused⟩
  simp only [totalSize_append, totalSize_cons] at htotal ⊢
  exact htotal

/-- `kmalloc` takes a free block. -/
theorem take (hfree : b.free = true) : ({ h with
        mem := setFree h.mem b.addr false
        used := h.used + (header (setFree h.mem b.addr false) b.addr).size } : Heap σ).Ok
      (l1 ++ { b with free := false } :: l2) := by
  have hused := ok.used
  have hle := usedSize_le_totalSize (l1 ++ l2)
  have hsum := ok.placed.length_totalSize
  simp only [usedSize_append, usedSize_cons, totalSize_append, totalSize_cons,
    length_append, length_cons] at hused hle hsum
  rw [usedBytes_of_free hfree] at hused
  refine ok.withFree ?_
  rw [usedSize_append, usedSize_cons, usedBytes_of_inUse (b := { b with free := false }) rfl,
    UInt32.toNat_add, header_setFree_self, ok.repr.describes.size]
  simp only
  omega

/-- `kfree` gives a block in use back. -/
theorem give (hfree : b.free = false) : ({ h with
        mem := setFree h.mem b.addr true
        used := h.used - (header (setFree h.mem b.addr true) b.addr).size } : Heap σ).Ok
      (l1 ++ { b with free := true } :: l2) := by
  have hused := ok.used
  have hlt := h.used.toNat_lt
  rw [usedSize_append, usedSize_cons, usedBytes_of_inUse hfree] at hused
  refine ok.withFree ?_
  rw [usedSize_append, usedSize_cons, usedBytes_of_free (b := { b with free := true }) rfl,
    UInt32.toNat_sub, header_setFree_self, ok.repr.describes.size]
  omega

/-- `coalesce_next` on a free block: nothing happens, or it absorbs a free neighbour. -/
theorem coalesceNext (hfree : b.free = true) :
    (h.coalesceNext b.addr = h ∧ ∀ c l, l2 = c :: l → ¬ (c.free = true ∧ b.hi = c.lo)) ∨
    ∃ c l, l2 = c :: l ∧ c.free = true ∧ b.hi = c.lo ∧ (h.coalesceNext b.addr).pages = h.pages ∧
      (h.coalesceNext b.addr).Ok (l1 ++ b.absorb c :: l) := by
  unfold Heap.coalesceNext
  rw [ok.repr.next_eq, ok.repr.describes.size]
  cases l2 with
  | nil => exact .inl ⟨if_pos (.inl rfl), nofun⟩
  | cons c l =>
    have hcons : l1 ++ b :: c :: l = (l1 ++ [b]) ++ c :: l := by simp
    have okc := (hcons ▸ ok : h.Ok ((l1 ++ [b]) ++ c :: l))
    have hb := ok.placed.fits_self
    have hc := okc.placed.fits_self
    simp only [map_cons, headD_cons, okc.repr.describes.free]
    by_cases hcf : c.free = true
    · rw [if_neg (by simp [hcf, hc.addr_ne_zero])]
      by_cases hadj : b.addr + headerSize + b.size = c.addr
      · rw [if_neg (not_not.mpr hadj)]
        -- the 32-bit sum that is compared does not wrap around
        have hbc : b.hi = c.lo := by
          have hlo := congrArg UInt32.toNat hadj
          have hbound := hb.bound
          have hlow := hc.low
          simp only [UInt32.toNat_add, headerSize_toNat] at hlo
          unfold hi lo at *
          omega
        refine .inr ⟨c, l, rfl, hcf, hbc, rfl, ok.repr.mergeHeaders ok.placed, ?_, ?_, ?_⟩
        · exact ok.placed.absorb hbc
        · have htotal := ok.total
          have hsum := ok.placed.length_totalSize
          simp only [totalSize_append, totalSize_cons, length_append, length_cons] at htotal hsum ⊢
          rw [absorb_size hb hc hbc, UInt32.toNat_add, headerSize_toNat]
          omega
        · have hused := ok.used
          simp only [usedSize_append, usedSize_cons] at hused ⊢
          rw [usedBytes_of_free hfree, usedBytes_of_free hcf] at hused
          rw [usedBytes_of_free (b := b.absorb c) hfree]
          omega
      · refine .inl ⟨if_pos hadj, fun c' l' heq hand => hadj (UInt32.toNat_inj.mp ?_)⟩
        obtain ⟨rfl, -⟩ := List.cons.inj heq
        have hbc : b.hi = c.addr.toNat := hand.2
        have hlt := c.addr.toNat_lt
        simp only [UInt32.toNat_add, headerSize_toNat]
        unfold hi at hbc
        omega
    · refine .inl ⟨if_pos (.inr (by simpa using hcf)), fun c' l' heq hand => hcf ?_⟩
      obtain ⟨rfl, -⟩ := List.cons.inj heq
      exact hand.1

/-- `release_whole_region_if_possible`: nothing happens, or the block leaves the list and its pages
go back. -/
theorem releaseWholeRegionIfPossible :
    (h.releaseWholeRegionIfPossible P b.addr = h ∧ ¬ (b.free = true ∧ b.pageCount ≠ 0 ∧
      b.size = b.pageCount * pageSize - headerSize)) ∨
    (b.free = true ∧ b.pageCount ≠ 0 ∧ b.size = b.pageCount * pageSize - headerSize ∧
      (h.releaseWholeRegionIfPossible P b.addr).pages
        = P.freePagesBlock h.pages b.addr b.pageCount ∧
      (h.releaseWholeRegionIfPossible P b.addr).Ok (l1 ++ l2)) := by
  have hb := ok.repr.describes
  have hself := header_unlinkHeaders_self (ok.repr.apart_prev_self ok.placed)
    (ok.repr.apart_next_self ok.placed)
  unfold Heap.releaseWholeRegionIfPossible
  simp only [hb.free, hb.pageCount, hb.size]
  by_cases hskip : b.free = false ∨ b.pageCount = 0
  · refine .inl ⟨if_pos hskip, fun hand => ?_⟩
    rcases hskip with hfree | hcount
    · exact absurd hand.1 (by simp [hfree])
    · exact hand.2.1 hcount
  · rw [if_neg hskip]
    by_cases hsize : b.size = b.pageCount * pageSize - headerSize
    · rw [if_neg (not_not.mpr hsize)]
      obtain ⟨hfree, hcount⟩ := not_or.mp hskip
      have hfree : b.free = true := by simpa using hfree
      refine .inr ⟨hfree, hcount, hsize, ?_, ok.repr.unlinkHeaders ok.placed, ?_, ?_, ?_⟩
      · show P.freePagesBlock h.pages b.addr
          (header (unlinkHeaders h.mem b.addr) b.addr).pageCount = _
        rw [hself, hb.pageCount]
      · have key := Placed.replace l1 l2 [b] []
          (by simpa using ok.placed) (by simp) List.Pairwise.nil (by simp)
        simpa using key
      · show (h.total - (header (unlinkHeaders h.mem b.addr) b.addr).size).toNat = _
        have htotal := ok.total
        have hlt := h.total.toNat_lt
        simp only [totalSize_append, totalSize_cons] at htotal ⊢
        rw [hself, hb.size, UInt32.toNat_sub]
        omega
      · have hused := ok.used
        simp only [usedSize_append, usedSize_cons] at hused ⊢
        rw [usedBytes_of_free hfree] at hused
        exact hused.trans (by omega)
    · exact .inl ⟨if_pos hsize, fun hand => hsize hand.2.2⟩

end Block

/-- The heap before its first region. -/
theorem empty (m : Mem) (pages : σ) : Heap.Ok ⟨m, 0, 0, 0, 0, 0, pages⟩ [] :=
  ⟨⟨fun _ hb => absurd hb not_mem_nil, 0, rfl, rfl⟩,
    ⟨fun _ hb => absurd hb not_mem_nil, List.Pairwise.nil⟩, rfl, rfl⟩

/-- A free block is put at the end of the list. -/
theorem extend {m : Mem} {head : UInt32} (ok : h.Ok blocks) (hplaced : Placed (blocks ++ [b]))
    (hr : Represents m head (blocks ++ [b])) (hfree : b.free = true) :
    ({ h with mem := m, head := head, total := h.total + (header m b.addr).size } : Heap σ).Ok
      (blocks ++ [b]) := by
  have hsum := hplaced.length_totalSize
  have htotal := ok.total
  have hused := ok.used
  refine ⟨hr, hplaced, ?_, ?_⟩
  · rw [hr.describes.size, UInt32.toNat_add, htotal]
    simp only [totalSize_append, totalSize_cons, totalSize_nil, length_append,
      length_cons] at hsum ⊢
    omega
  · simp only [usedSize_append, usedSize_cons, usedBytes_of_free hfree]
    exact hused

/-- `block_from_pages` puts the new region at the end of the list. -/
theorem blockFromPages {page count : UInt32} (ok : h.Ok blocks) (hrun : PageRun page count)
    (hdis : ∀ b ∈ blocks, b.Disjoint (ofPages page count)) :
    ∃ h', h.blockFromPages page count = some h' ∧ h'.Ok (blocks ++ [ofPages page count]) ∧
      h'.pages = h.pages ∧ ∀ a, Apart page a → (∀ b ∈ blocks, Apart b.addr a) →
        header h'.mem a = header h.mem a := by
  have hplaced : Placed (blocks ++ [ofPages page count]) := by
    refine ⟨forall_mem_append.mpr ⟨ok.placed.fits, forall_mem_singleton.mpr hrun.fits⟩,
      pairwise_append.mpr ⟨ok.placed.disjoint, pairwise_singleton _ _, fun b hb c hc => ?_⟩⟩
    exact mem_singleton.mp hc ▸ hdis b hb
  have hself := header_regionHeader_self h.mem page count
  have hold : ∀ b ∈ blocks, header (regionHeader h.mem page count) b.addr = header h.mem b.addr :=
    fun b hb => header_regionHeader_apart h.mem count (hdis b hb).symm.apart
  obtain ⟨last, hseg⟩ := ok.repr.links
  unfold Heap.blockFromPages
  by_cases hnil : blocks = []
  · subst hnil
    have hhead : h.head = 0 := hseg.2
    have hr : Represents (regionHeader h.mem page count) page [ofPages page count] :=
      ok.repr.append (b := ofPages page count) 0 ok.placed rfl
        (fun d hd => absurd hd not_mem_nil) (fun hne => absurd rfl hne) (fun _ => rfl)
        (hself ▸ ⟨rfl, rfl, rfl, rfl⟩) (congrArg Header.next hself) (congrArg Header.prev hself)
    have hok := ok.extend (b := ofPages page count) hplaced hr rfl
    rw [if_pos hhead]
    exact ⟨_, rfl, hok, rfl, fun a ha _ => header_regionHeader_apart h.mem count ha⟩
  · -- the walk to the last block sees the old headers
    have hseg' := seg_of_headers_eq hseg hold
    have hmem := (hseg.last_mem (fun hl => hnil (map_eq_nil_iff.mp hl))).1
    obtain ⟨e, he, rfl⟩ := mem_map.mp hmem
    have hlen := ok.placed.length_totalSize
    have htail : findTail loopBound (regionHeader h.mem page count) h.head = some e.addr :=
      findTail_eq ok.placed.fits hnil hseg' (by unfold loopBound; omega)
    have hhead : h.head ≠ 0 := by
      obtain ⟨d, hd, hdeq⟩ := mem_map.mp (hseg.first_mem (fun hl => hnil (map_eq_nil_iff.mp hl))).1
      exact hdeq ▸ (ok.placed.fits d hd).addr_ne_zero
    have hpe : Apart page e.addr := (hdis e he).symm.apart
    have hnew : header (setPrev (setNext (regionHeader h.mem page count) e.addr page) page e.addr)
        page = ⟨heapMagic, count * pageSize - headerSize, count, true, 0, e.addr⟩ := by
      rw [header_setPrev_self, header_setNext_apart _ hpe.symm, hself]
    have hr : Represents (setPrev (setNext (regionHeader h.mem page count) e.addr page) page e.addr)
        h.head (blocks ++ [ofPages page count]) := by
      refine ok.repr.append (b := ofPages page count) e.addr ok.placed hseg.last_eq
        (fun d hd hde => ?_) (fun _ => ⟨rfl, ?_⟩) (fun hl => absurd hl hnil)
        (hnew ▸ ⟨rfl, rfl, rfl, rfl⟩) (congrArg Header.next hnew) (congrArg Header.prev hnew)
      · have hpd : Apart page d.addr := (hdis d hd).symm.apart
        rw [header_setPrev_apart _ hpd,
          header_setNext_apart _ (ok.placed.apart_of_ne he hd hde.symm),
          hold d hd]
      · rw [header_setPrev_apart _ hpe, header_setNext_self, hold e he]
        rfl
    have hok := ok.extend (b := ofPages page count) hplaced hr rfl
    rw [if_neg hhead, htail]
    refine ⟨_, rfl, hok, rfl, fun a ha hblocks => ?_⟩
    show header (setPrev (setNext (regionHeader h.mem page count) e.addr page) page e.addr) a = _
    rw [header_setPrev_apart _ ha, header_setNext_apart _ (hblocks e he),
      header_regionHeader_apart _ _ ha]

/-- `heap_initialize` leaves the empty list, or the list of one region of one page. -/
theorem heapInitialize (m : Mem) (pages : σ)
    (hrun : (P.allocPages pages 1).1 ≠ 0 → PageRun (P.allocPages pages 1).1 1) :
    ∃ h, Heap.heapInitialize P m pages = some h ∧ h.pages = (P.allocPages pages 1).2 ∧
      (((P.allocPages pages 1).1 = 0 ∧ h.mem = m ∧ h.Ok []) ∨
      ((P.allocPages pages 1).1 ≠ 0 ∧ h.Ok [ofPages (P.allocPages pages 1).1 1] ∧
        ∀ a, Apart (P.allocPages pages 1).1 a → header h.mem a = header m a)) := by
  have hempty := Heap.Ok.empty m (P.allocPages pages 1).2
  unfold Heap.heapInitialize
  by_cases h0 : (P.allocPages pages 1).1 = 0
  · exact ⟨_, if_neg (not_not.mpr h0), rfl, .inl ⟨h0, rfl, hempty⟩⟩
  · obtain ⟨h', heq, ok, hpages, hframe⟩ := hempty.blockFromPages (hrun h0)
      (fun b hb => absurd hb not_mem_nil)
    simp only [ne_eq, h0, not_false_eq_true, if_true]
    exact ⟨h', heq, hpages, .inr ⟨trivial, ok, fun a ha =>
      hframe a ha (fun b hb => absurd hb not_mem_nil)⟩⟩

theorem withPages (ok : h.Ok blocks) (pages : σ) : ({ h with pages := pages } : Heap σ).Ok blocks :=
  ⟨ok.repr, ok.placed, ok.total, ok.used⟩

/-- Writes that keep the headers of the list keep the list. -/
theorem write {m : Mem} (ok : h.Ok blocks)
    (hsame : ∀ b ∈ blocks, header m b.addr = header h.mem b.addr) :
    ({ h with mem := m } : Heap σ).Ok blocks := by
  obtain ⟨last, hseg⟩ := ok.repr.links
  refine ⟨⟨fun b hb => ?_, last, seg_of_headers_eq hseg hsame⟩, ok.placed, ok.total, ok.used⟩
  rw [hsame b hb]
  exact ok.repr.nodes b hb

/-- `find_free_block` finds the first block that serves the request. -/
theorem findFreeBlock (ok : h.Ok blocks) (size : UInt32) : findFreeBlock loopBound h.mem h.head size
      = some (((blocks.find? (Block.Serves size)).map Block.addr).getD 0) := by
  obtain ⟨last, hseg⟩ := ok.repr.links
  have hlen := ok.placed.length_totalSize
  exact findFreeBlock_eq ok.placed.fits ok.repr.nodes hseg size (by unfold loopBound; omega)

end Heap.Ok

/-! ### The search of `kmalloc` -/

/-- What holds of the heap and its list when `kmalloc` begins keeps holding while it adds regions
for a request of `size` bytes. -/
structure Grows (P : PageSource σ) (size : UInt32) (I : Heap σ → List Block → Prop) : Prop where
  ok : ∀ {h blocks}, I h blocks → h.Ok blocks
  run : ∀ {h blocks}, I h blocks → blocks.find? (Block.Serves size) = none →
    (P.allocPages h.pages (Heap.pagesNeeded size)).1 ≠ 0 →
    PageRun (P.allocPages h.pages (Heap.pagesNeeded size)).1 (Heap.pagesNeeded size) ∧
    ∀ b ∈ blocks, b.Disjoint
      (ofPages (P.allocPages h.pages (Heap.pagesNeeded size)).1 (Heap.pagesNeeded size))
  step : ∀ {h h' blocks page}, I h blocks → blocks.find? (Block.Serves size) = none → page ≠ 0 →
    P.allocPages h.pages (Heap.pagesNeeded size) = (page, h'.pages) →
    h'.Ok (blocks ++ [ofPages page (Heap.pagesNeeded size)]) →
    (∀ a, Apart page a → (∀ b ∈ blocks, Apart b.addr a) → header h'.mem a = header h.mem a) →
    I h' (blocks ++ [ofPages page (Heap.pagesNeeded size)])

variable {I : Heap σ → List Block → Prop}

/-- **The search ends**: with the null pointer, when no pages are left, or with the first block that
serves the request. -/
theorem Grows.obtainBlock (hI : Grows P size I) {n : ℕ}
    (h0 : I h blocks) (hn : 2 ^ 32 < 24 * (n + blocks.length)) :
    ∃ block h', Heap.obtainBlock P n h size = some (block, h') ∧
      ((block = 0 ∧ ∃ h1 blocks', I h1 blocks' ∧ blocks'.find? (Block.Serves size) = none ∧
        (P.allocPages h1.pages (Heap.pagesNeeded size)).1 = 0 ∧
        h' = { h1 with pages := (P.allocPages h1.pages (Heap.pagesNeeded size)).2 }) ∨
      ∃ l1 b l2, I h' (l1 ++ b :: l2) ∧ b.Serves size = true ∧ block = b.addr ∧
        (l1 ++ b :: l2).find? (Block.Serves size) = some b) := by
  induction n generalizing h blocks with
  | zero =>
    have := (hI.ok h0).placed.length_totalSize
    omega
  | succ n ih =>
    have ok := hI.ok h0
    unfold Heap.obtainBlock
    rw [ok.findFreeBlock size]
    cases hfind : blocks.find? (Block.Serves size) with
    | some b =>
      have hmem := mem_of_find?_eq_some hfind
      have hserves := List.find?_some hfind
      obtain ⟨l1, l2, rfl⟩ := append_of_mem hmem
      refine ⟨b.addr, h, ?_, .inr ⟨l1, b, l2, h0, hserves, rfl, hfind⟩⟩
      exact if_pos (ok.placed.fits b hmem).addr_ne_zero
    | none =>
      simp only [Option.map_none, Option.getD_none, ne_eq, not_true_eq_false, if_false]
      by_cases hnull : (P.allocPages h.pages (Heap.pagesNeeded size)).1 = 0
      · exact ⟨0, _, if_pos hnull, .inl ⟨rfl, h, blocks, h0, hfind, hnull, rfl⟩⟩
      · rw [if_neg hnull]
        obtain ⟨hrun, hdis⟩ := hI.run h0 hfind hnull
        obtain ⟨h', heq, ok', hpages, hframe⟩ := (ok.withPages _).blockFromPages hrun hdis
        rw [heq]
        have hstep := hI.step h0 hfind hnull (by rw [hpages]) ok' hframe
        refine ih hstep ?_
        simp only [length_append, length_singleton]
        omega

/-- What `kmalloc` makes of the free block `b`: the block `b'` in use, and what is cut off. The page
count of what is cut off is whatever the memory held there. -/
inductive Carved (m : Mem) (size : UInt32) (b : Block) : Block → List Block → Prop
  | whole : b.size.toNat < size.toNat + 56 → Carved m size b { b with free := false } []
  | split : size.toNat + 56 ≤ b.size.toNat →
      Carved m size b { b with size := size, free := false }
        [b.rest size (header m (b.addr + headerSize + size)).pageCount]

/-- **`kmalloc`** returns, with the null pointer or with the payload of a block that was free. -/
theorem Grows.kmalloc {n : UInt32}
    (hI : Grows P (Word.alignUp n 8) I) (h0 : I h blocks) (hn : n ≠ 0) :
    ∃ p h', h.kmalloc P n = some (p, h') ∧ ((p = 0 ∧ ∃ h1 blocks', I h1 blocks' ∧
        blocks'.find? (Block.Serves (Word.alignUp n 8)) = none ∧
        (P.allocPages h1.pages (Heap.pagesNeeded (Word.alignUp n 8))).1 = 0 ∧ h' = { h1 with
          pages := (P.allocPages h1.pages (Heap.pagesNeeded (Word.alignUp n 8))).2 }) ∨
      ∃ h1 l1 b l2 b' rest, I h1 (l1 ++ b :: l2) ∧ b.Serves (Word.alignUp n 8) = true ∧
        (l1 ++ b :: l2).find? (Block.Serves (Word.alignUp n 8)) = some b ∧
        p = b.addr + headerSize ∧ Carved h1.mem (Word.alignUp n 8) b b' rest ∧
        h'.Ok (l1 ++ b' :: (rest ++ l2)) ∧ h'.pages = h1.pages) := by
  obtain ⟨block, h1, heq, hres⟩ := hI.obtainBlock (n := loopBound) h0 (by unfold loopBound; omega)
  unfold Heap.kmalloc
  simp only [if_neg hn, heq]
  rcases hres with ⟨rfl, h2, blocks', hI2, hnone, hnull, rfl⟩ |
    ⟨l1, b, l2, hI1, hserves, rfl, hfind⟩
  · exact ⟨0, _, if_pos rfl, .inl ⟨rfl, h2, blocks', hI2, hnone, hnull, rfl⟩⟩
  · have ok := hI.ok hI1
    obtain ⟨hfree, hsize⟩ := serves_iff.mp hserves
    simp only [if_neg ok.placed.fits_self.addr_ne_zero]
    refine ⟨_, _, rfl, .inr ?_⟩
    have h8 : (Word.alignUp n 8).toNat % 8 = 0 := Word.alignUp_mod (k := 3) n rfl
    rcases ok.splitBlock hfree h8 hsize with ⟨hsame, hlt⟩ | ⟨hge, hmem, hpages, ok'⟩
    · rw [hsame]
      exact ⟨h1, l1, b, l2, _, [], hI1, hserves, hfind, rfl, .whole hlt, ok.take hfree, rfl⟩
    · exact ⟨h1, l1, b, l2, _, _, hI1, hserves, hfind, rfl, .split hge,
        ok'.take (b := { b with size := Word.alignUp n 8 }) hfree, hpages⟩

/-! ### `kfree` -/

/-- Free neighbours of the list are merged. -/
inductive Merged (l : List Block) : List Block → Prop
  | refl : Merged l l
  | step {l1 l2 : List Block} {b c : Block} : Merged l (l1 ++ b :: c :: l2) → b.free = true →
      c.free = true → b.hi = c.lo → Merged l (l1 ++ b.absorb c :: l2)

theorem Merged.forall_mem {l l' : List Block} {Q : Block → Prop} (hm : Merged l l')
    (habsorb : ∀ b c, Q b → Q (b.absorb c)) (hQ : ∀ d ∈ l, Q d) : ∀ d ∈ l', Q d := by
  induction hm with
  | refl => exact hQ
  | step _ _ _ _ ih =>
    simp only [forall_mem_append, forall_mem_cons] at ih ⊢
    exact ⟨ih.1, habsorb _ _ ih.2.1, ih.2.2.2⟩

/-- The list from the free block `b` on, after `coalesce_next`. -/
def mergeNext (b : Block) : List Block → List Block
  | [] => [b]
  | c :: l => if c.free = true ∧ b.hi = c.lo then b.absorb c :: l else b :: c :: l

theorem mergeNext_of_not (hnot : ∀ c l, l2 = c :: l → ¬ (c.free = true ∧ b.hi = c.lo)) :
    mergeNext b l2 = b :: l2 := by
  cases l2 with
  | nil => rfl
  | cons c l => exact if_neg (hnot c l rfl)

/-- The first block is still `b`, apart from its size. -/
theorem mergeNext_cons (b : Block) (l : List Block) : ∃ b' l', mergeNext b l = b' :: l' ∧
    b'.addr = b.addr ∧ b'.free = b.free ∧ b'.pageCount = b.pageCount := by
  cases l with
  | nil => exact ⟨b, [], rfl, rfl, rfl, rfl⟩
  | cons c l =>
    by_cases hc : c.free = true ∧ b.hi = c.lo
    · exact ⟨b.absorb c, l, if_pos hc, rfl, rfl, rfl⟩
    · exact ⟨b, c :: l, if_neg hc, rfl, rfl, rfl⟩

/-- Merging brings no new addresses. -/
theorem forall_mergeNext {Q : UInt32 → Prop} (hQ : ∀ d ∈ l1 ++ b :: l2, Q d.addr) :
    ∀ d ∈ l1 ++ mergeNext b l2, Q d.addr := by
  cases l2 with
  | nil => exact hQ
  | cons c l =>
    rw [mergeNext]
    split
    · simp only [forall_mem_append, forall_mem_cons] at hQ ⊢
      exact ⟨hQ.1, hQ.2.1, hQ.2.2.2⟩
    · exact hQ

theorem Merged.mergeNext {l : List Block} (hm : Merged l (l1 ++ b :: l2)) (hfree : b.free = true) :
    Merged l (l1 ++ mergeNext b l2) := by
  cases l2 with
  | nil => exact hm
  | cons c l2 =>
    rw [MyOS.mergeNext]
    by_cases hc : c.free = true ∧ b.hi = c.lo
    · rw [if_pos hc]
      exact hm.step hfree hc.1 hc.2
    · rw [if_neg hc]
      exact hm

/-- The first part of `kfree`: the block is free, and its bytes no longer count as used. -/
def Heap.markFree (h : Heap σ) (block : UInt32) : Heap σ :=
  { h with
    mem := setFree h.mem block true
    used := h.used - (header (setFree h.mem block true) block).size }

theorem Heap.freeBlock_eq (h : Heap σ) (block : UInt32) : h.freeBlock P block =
    if (header ((h.markFree block).coalesceNext block).mem block).prev ≠ 0 ∧
        (header ((h.markFree block).coalesceNext block).mem
          (header ((h.markFree block).coalesceNext block).mem block).prev).free = true then
      (((h.markFree block).coalesceNext block).coalesceNext
        (header ((h.markFree block).coalesceNext block).mem
          block).prev).releaseWholeRegionIfPossible P
          (header ((h.markFree block).coalesceNext block).mem block).prev
    else ((h.markFree block).coalesceNext block).releaseWholeRegionIfPossible P block := rfl

/-- The list that `kfree` leaves, from the list `l` with the block marked free: merged, and without
a block that could be released. -/
def Freed (P : PageSource σ) (pages : σ) (l : List Block) (h' : Heap σ) (blocks' : List Block) :
    Prop :=
  (Merged l blocks' ∧ h'.pages = pages) ∨
  ∃ k1 c k2, Merged l (k1 ++ c :: k2) ∧ blocks' = k1 ++ k2 ∧ c.free = true ∧ c.pageCount ≠ 0 ∧
    c.size = c.pageCount * pageSize - headerSize ∧
    h'.pages = P.freePagesBlock pages c.addr c.pageCount

/-- `kfree` brings no new addresses. -/
theorem Freed.forall_addr {pages : σ} {l blocks' : List Block} {h' : Heap σ} {Q : UInt32 → Prop}
    (hf : Freed P pages l h' blocks') (hQ : ∀ d ∈ l, Q d.addr) : ∀ d ∈ blocks', Q d.addr := by
  rcases hf with ⟨hm, -⟩ | ⟨k1, c, k2, hm, rfl, -⟩
  · exact hm.forall_mem (fun _ _ hb => hb) hQ
  · exact fun d hd => hm.forall_mem (fun _ _ hb => hb) hQ d (mem_of_mem_around hd)

/-- `kfree` on the payload of a block, when the link in front of it is not taken for the mark of an
aligned block. -/
theorem Heap.kfreeFrom_payload (fuel : ℕ) (hfits : b.Fits) (hptr : b.addr + headerSize ≠ 0)
    (hnext : (header h.mem b.addr).next ≠ heapAlignMagic) :
    Heap.kfreeFrom P (fuel + 1) h (b.addr + headerSize) =
      if (header h.mem b.addr).magic ≠ heapMagic then
        some { h with invalidFreeCount := h.invalidFreeCount + 1 }
      else if (header h.mem b.addr).free = true then
        some { h with doubleFreeCount := h.doubleFreeCount + 1 }
      else some (h.freeBlock P b.addr) := by
  have hal : (b.addr + headerSize - 8).toNat = b.addr.toNat + 16 := by
    have hbound := hfits.bound
    rw [hi_eq, lo] at hbound
    simp only [UInt32.toNat_sub, UInt32.toNat_add, headerSize_toNat, show (8 : UInt32).toNat = 8
      from rfl]
    omega
  have hmagic : h.mem.load32 (b.addr + headerSize - 8).toNat ≠ heapAlignMagic := by
    rw [hal]
    exact hnext
  unfold Heap.kfreeFrom
  simp only [if_neg hptr, if_neg hmagic, UInt32.add_sub_cancel]

theorem loopBound_eq : loopBound = (loopBound - 2) + 1 + 1 := by
  unfold loopBound
  rfl

namespace Heap.Ok

variable (ok : h.Ok (l1 ++ b :: l2))
include ok

/-- `coalesce_next` on a free block. -/
theorem coalesceNext_mergeNext (hfree : b.free = true) :
    (h.coalesceNext b.addr).Ok (l1 ++ mergeNext b l2) ∧
      (h.coalesceNext b.addr).pages = h.pages := by
  rcases ok.coalesceNext hfree with ⟨hsame, hnot⟩ | ⟨c, l, rfl, hc, hbc, hpages, ok'⟩
  · rw [hsame, mergeNext_of_not hnot]
    exact ⟨ok, rfl⟩
  · rw [mergeNext, if_pos ⟨hc, hbc⟩]
    exact ⟨ok', hpages⟩

/-- The last part of `kfree`, step by step. Where the block before is free, `coalesce_next` and
`release_whole_region_if_possible` are called on that block, adjacent or not. -/
theorem freeBlock_cases (hused : b.free = false) :
    (h.markFree b.addr).Ok (l1 ++ { b with free := true } :: l2) ∧
    (((∀ k e, l1 = k ++ [e] → e.free = false) ∧ h.freeBlock P b.addr
        = ((h.markFree b.addr).coalesceNext b.addr).releaseWholeRegionIfPossible P b.addr) ∨
      ∃ k e, l1 = k ++ [e] ∧ e.free = true ∧ h.freeBlock P b.addr
        = (((h.markFree b.addr).coalesceNext b.addr).coalesceNext
            e.addr).releaseWholeRegionIfPossible P e.addr) := by
  have ok1 := ok.give hused
  refine ⟨ok1, ?_⟩
  obtain ⟨ok2, -⟩ := ok1.coalesceNext_mergeNext (b := { b with free := true }) rfl
  obtain ⟨b2, l2', heq, haddr, -⟩ := mergeNext_cons { b with free := true } l2
  rw [heq] at ok2
  rw [Heap.freeBlock_eq]
  change (Heap.coalesceNext (h.markFree b.addr) b.addr).Ok _ at ok2
  generalize (h.markFree b.addr).coalesceNext b.addr = h2 at ok2 ⊢
  have hprev := ok2.repr.prev_eq
  rw [haddr] at hprev
  rcases eq_nil_or_concat' l1 with rfl | ⟨k, e, rfl⟩
  · refine .inl ⟨fun k e hke => absurd hke (by simp), if_neg fun hback => hback.1 ?_⟩
    rw [hprev]
    rfl
  · -- the previous block is the last one before
    have he : (header h2.mem b.addr).prev = e.addr := by rw [hprev]; simp
    have hcons : k ++ [e] ++ b2 :: l2' = k ++ e :: b2 :: l2' := by simp
    rw [hcons] at ok2
    rw [he, ok2.repr.describes.free]
    by_cases hefree : e.free = true
    · exact .inr ⟨k, e, rfl, hefree, if_pos ⟨ok2.placed.fits_self.addr_ne_zero, hefree⟩⟩
    · refine .inl ⟨fun k' e' hke => ?_, if_neg fun hback => hefree hback.2⟩
      obtain ⟨-, rfl⟩ := append_inj' hke rfl |>.imp_right singleton_inj.mp
      simpa using hefree

theorem release_merged {l : List Block} {block : UInt32}
    (haddr : b.addr = block) (hm : Merged l (l1 ++ b :: l2)) :
    ∃ blocks', (h.releaseWholeRegionIfPossible P block).Ok blocks' ∧
      Freed P h.pages l (h.releaseWholeRegionIfPossible P block) blocks' := by
  subst haddr
  rcases ok.releaseWholeRegionIfPossible (P := P) with
    ⟨hsame, -⟩ | ⟨hfree, hcount, hsize, hpages, ok'⟩
  · exact ⟨_, by rw [hsame]; exact ok, .inl ⟨hm, by rw [hsame]⟩⟩
  · exact ⟨_, ok', .inr ⟨l1, b, l2, hm, rfl, hfree, hcount, hsize, hpages⟩⟩

/-- The last part of `kfree`. -/
theorem freeBlock (hused : b.free = false) : ∃ blocks', (h.freeBlock P b.addr).Ok blocks' ∧
      Freed P h.pages (l1 ++ { b with free := true } :: l2) (h.freeBlock P b.addr) blocks' := by
  obtain ⟨ok1, hcases⟩ := ok.freeBlock_cases (P := P) hused
  obtain ⟨ok2, hpages⟩ := ok1.coalesceNext_mergeNext rfl
  have hm := (Merged.refl (l := l1 ++ { b with free := true } :: l2)).mergeNext rfl
  obtain ⟨b2, l2', heq, haddr, -⟩ := mergeNext_cons { b with free := true } l2
  have hstart : (h.markFree b.addr).pages = h.pages := rfl
  rw [heq] at ok2 hm
  rw [hstart] at hpages
  rcases hcases with ⟨-, hfb⟩ | ⟨k, e, rfl, hefree, hfb⟩
  · rw [hfb, ← hpages]
    exact ok2.release_merged haddr hm
  · have hcons : k ++ [e] ++ b2 :: l2' = k ++ e :: b2 :: l2' := by simp
    rw [hcons] at ok2 hm
    obtain ⟨ok3, hpages'⟩ := ok2.coalesceNext_mergeNext hefree
    obtain ⟨e', l', heq', haddr', -⟩ := mergeNext_cons e (b2 :: l2')
    have hm' := hm.mergeNext hefree
    rw [heq'] at ok3 hm'
    rw [hfb, ← hpages, ← hpages']
    exact ok3.release_merged haddr' hm'

/-- The links are multiples of 8, so they are never taken for the mark of an aligned block. -/
theorem next_ne_alignMagic : (header h.mem b.addr).next ≠ heapAlignMagic := by
  intro heq
  have h0 : (header h.mem b.addr).next ≠ 0 := heq ▸ (by decide)
  obtain ⟨e, he, hadd⟩ := ok.repr.next_mem h0
  have haligned := (ok.placed.fits e (mem_of_mem_around he)).aligned
  rw [lo, hadd, heq] at haligned
  cases haligned

theorem kfree_eq (hused : b.free = false) (hptr : b.addr + headerSize ≠ 0) :
    h.kfree P (b.addr + headerSize) = some (h.freeBlock P b.addr) := by
  have hb := ok.repr.describes
  rw [Heap.kfree, loopBound_eq, Heap.kfreeFrom_payload _ ok.placed.fits_self hptr
    ok.next_ne_alignMagic, if_neg (not_not.mpr hb.magic), hb.free, hused]
  rfl

/-- **`kfree`** on the payload of a block in use returns. -/
theorem kfree (hused : b.free = false) (hptr : b.addr + headerSize ≠ 0) :
    ∃ h' blocks', h.kfree P (b.addr + headerSize) = some h' ∧ h'.Ok blocks' ∧
      Freed P h.pages (l1 ++ { b with free := true } :: l2) h' blocks' := by
  obtain ⟨blocks', ok', hfreed⟩ := ok.freeBlock (P := P) hused
  exact ⟨h.freeBlock P b.addr, blocks', ok.kfree_eq hused hptr, ok', hfreed⟩

end Heap.Ok

end MyOS
