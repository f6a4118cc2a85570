import MyOS.Heap.Reached

/-!
# An immediate double free

The second of two calls `kfree(p)` finds the header of the first one in memory: the words stay there
when the block is merged into its neighbour and when its region goes back to the page allocator.
`Marked` is what the second call needs of them. The magic is intact and the flag says free, so the
call counts a double free; and the link `next`, which occupies the eight bytes before the pointer,
is null or the address of a block, so it is not taken for the mark of an aligned block.
-/

namespace MyOS

open Block Pmm

variable {σ : Type} {P : PageSource σ} {m : Mem} {a block next v : UInt32}
variable {blocks blocks' l1 l2 : List Block} {b c : Block}

/-! ### Headers of freed blocks -/

/-- The header at `a` is that of a freed block, in the list or not. -/
structure Marked (m : Mem) (a : UInt32) : Prop where
  magic : (header m a).magic = heapMagic
  free : (header m a).free = true
  next : (header m a).next.toNat % 8 = 0

/-- A header at `c` is the one at `a`, or apart from it. -/
def SameOrApart (c a : UInt32) : Prop := c = a ∨ Apart c a

namespace Marked

section

variable (hm : Marked m a) (hc : SameOrApart block a)
include hm hc

theorem setSize : Marked (setSize m block v) a := by
  rcases hc with rfl | hc
  · exact ⟨by simp [hm.magic], by simp [hm.free], by simp [hm.next]⟩
  · exact ⟨by rw [header_setSize_apart _ hc, hm.magic], by rw [header_setSize_apart _ hc, hm.free],
      by rw [header_setSize_apart _ hc]; exact hm.next⟩

theorem setPrev : Marked (setPrev m block v) a := by
  rcases hc with rfl | hc
  · exact ⟨by simp [hm.magic], by simp [hm.free], by simp [hm.next]⟩
  · exact ⟨by rw [header_setPrev_apart _ hc, hm.magic], by rw [header_setPrev_apart _ hc, hm.free],
      by rw [header_setPrev_apart _ hc]; exact hm.next⟩

theorem setNext (hv : v.toNat % 8 = 0) :
    Marked (setNext m block v) a := by
  rcases hc with rfl | hc
  · exact ⟨by simp [hm.magic], by simp [hm.free], by simpa using hv⟩
  · exact ⟨by rw [header_setNext_apart _ hc, hm.magic], by rw [header_setNext_apart _ hc, hm.free],
      by rw [header_setNext_apart _ hc]; exact hm.next⟩

end

/-- `coalesce_next` on `block`, whose successor is `next`. -/
theorem mergeHeaders (hm : Marked m a) (hnext : (header m block).next = next)
    (hbn : Apart block next) (hblock : SameOrApart block a)
    (haligned : (header m next).next.toNat % 8 = 0)
    (hsucc : (header m next).next ≠ 0 → SameOrApart (header m next).next a) :
    Marked (mergeHeaders m block) a := by
  subst hnext
  unfold MyOS.mergeHeaders
  simp only [header_setSize_apart _ hbn, header_setSize_self, header_setNext_self]
  split
  · rename_i h0
    exact ((hm.setSize hblock).setNext hblock haligned).setPrev (hsucc h0)
  · exact (hm.setSize hblock).setNext hblock haligned

/-- `unlink_block`. -/
theorem unlinkHeaders (hm : Marked m a)
    (hpb : (header m block).prev ≠ 0 → Apart (header m block).prev block)
    (haligned : (header m block).next.toNat % 8 = 0)
    (hprev : (header m block).prev ≠ 0 → SameOrApart (header m block).prev a)
    (hsucc : (header m block).next ≠ 0 → SameOrApart (header m block).next a) :
    Marked (unlinkHeaders m block) a := by
  unfold MyOS.unlinkHeaders
  by_cases hp0 : (header m block).prev = 0
  · simp only [hp0, ne_eq, not_true_eq_false, if_false]
    split
    · rename_i h0
      exact hm.setPrev (hsucc h0)
    · exact hm
  · simp only [ne_eq, hp0, not_false_eq_true, if_true, header_setNext_apart _ (hpb hp0)]
    split
    · rename_i h0
      exact (hm.setNext (hprev hp0) haligned).setPrev (hsucc h0)
    · exact hm.setNext (hprev hp0) haligned

end Marked

/-! ### The steps of `kfree` -/

/-- Every header of the list is the one at `a`, or apart from it. -/
def Clear (blocks : List Block) (a : UInt32) : Prop := ∀ d ∈ blocks, SameOrApart d.addr a

theorem Placed.clear (hp : Placed blocks) (hb : b ∈ blocks) : Clear blocks b.addr := by
  intro d hd
  by_cases heq : d.addr = b.addr
  · exact .inl heq
  · exact .inr (hp.apart_of_ne hd hb heq)

theorem Clear.mergeNext (hc : Clear (l1 ++ b :: l2) a) : Clear (l1 ++ mergeNext b l2) a :=
  forall_mergeNext (Q := fun c => SameOrApart c a) hc

namespace Heap.Ok

variable {h : Heap σ}

section Marks

variable (ok : h.Ok (l1 ++ b :: l2))
include ok

/-- A link is null or the address of a block. -/
theorem next_aligned : (header h.mem b.addr).next.toNat % 8 = 0 := by
  by_cases h0 : (header h.mem b.addr).next = 0
  · rw [h0]
    rfl
  · obtain ⟨e, he, hadd⟩ := ok.repr.next_mem h0
    rw [← hadd]
    exact (ok.placed.fits e (mem_of_mem_around he)).aligned

theorem next_sameOrApart (hc : Clear (l1 ++ b :: l2) a)
    (h0 : (header h.mem b.addr).next ≠ 0) : SameOrApart (header h.mem b.addr).next a := by
  obtain ⟨e, he, hadd⟩ := ok.repr.next_mem h0
  exact hadd ▸ hc e (mem_of_mem_around he)

theorem coalesceNext_marked (hc : Clear (l1 ++ b :: l2) a)
    (hm : Marked h.mem a) : Marked (h.coalesceNext b.addr).mem a := by
  unfold Heap.coalesceNext
  dsimp only
  split
  · exact hm
  rename_i hskip
  split
  · exact hm
  obtain ⟨h0, -⟩ := not_or.mp hskip
  -- the successor is the first block behind
  have hnext := ok.repr.next_eq
  cases l2 with
  | nil => exact absurd hnext h0
  | cons c l =>
    have hcons : l1 ++ b :: c :: l = (l1 ++ [b]) ++ c :: l := by simp
    have okc : h.Ok ((l1 ++ [b]) ++ c :: l) := hcons ▸ ok
    have hcc : Clear ((l1 ++ [b]) ++ c :: l) a := hcons ▸ hc
    have hbc : Apart b.addr c.addr := (ok.placed.disjoint_of_mem (by simp)).apart
    exact hm.mergeHeaders hnext hbc (hc b (by simp)) okc.next_aligned (okc.next_sameOrApart hcc)

theorem release_marked (hc : Clear (l1 ++ b :: l2) a)
    (hm : Marked h.mem a) : Marked (h.releaseWholeRegionIfPossible P b.addr).mem a := by
  unfold Heap.releaseWholeRegionIfPossible
  dsimp only
  split
  · exact hm
  split
  · exact hm
  · refine hm.unlinkHeaders (ok.repr.apart_prev_self ok.placed) ok.next_aligned (fun h0 => ?_)
      (ok.next_sameOrApart hc)
    obtain ⟨e, he, hadd⟩ := ok.repr.prev_mem h0
    exact hadd ▸ hc e (List.mem_append_left _ he)

/-- **The header of the block stays**, whatever is merged or released. -/
theorem freeBlock_marked (hused : b.free = false) : Marked (h.freeBlock P b.addr).mem b.addr := by
  obtain ⟨ok1, hcases⟩ := ok.freeBlock_cases (P := P) hused
  have hclear : Clear (l1 ++ { b with free := true } :: l2) b.addr :=
    ok1.placed.clear (b := { b with free := true }) (by simp)
  have hm : Marked (h.markFree b.addr).mem b.addr := by
    have hd := ok1.repr.describes
    exact ⟨hd.magic, hd.free, ok1.next_aligned (b := { b with free := true })⟩
  have hm2 := ok1.coalesceNext_marked hclear hm
  obtain ⟨ok2, -⟩ := ok1.coalesceNext_mergeNext rfl
  have hclear2 := hclear.mergeNext
  obtain ⟨b2, l2', heq, haddr, -⟩ := mergeNext_cons { b with free := true } l2
  rw [heq] at ok2 hclear2
  rcases hcases with ⟨-, hfb⟩ | ⟨k, e, rfl, hefree, hfb⟩
  · rw [hfb]
    have hres := ok2.release_marked (P := P) hclear2 hm2
    rwa [haddr] at hres
  · rw [hfb]
    have hcons : k ++ [e] ++ b2 :: l2' = k ++ e :: b2 :: l2' := by simp
    rw [hcons] at ok2 hclear2
    have hm3 := ok2.coalesceNext_marked hclear2 hm2
    obtain ⟨ok3, -⟩ := ok2.coalesceNext_mergeNext hefree
    have hclear3 := hclear2.mergeNext
    obtain ⟨e', l', heq', haddr', -⟩ := mergeNext_cons e (b2 :: l2')
    rw [heq'] at ok3 hclear3
    have hres := ok3.release_marked (P := P) hclear3 hm3
    rwa [haddr'] at hres

end Marks

end Heap.Ok

/-! ### The counters -/

section Counters

variable (h : Heap σ)

theorem Heap.coalesceNext_counts (block : UInt32) :
    (h.coalesceNext block).doubleFreeCount = h.doubleFreeCount ∧
    (h.coalesceNext block).invalidFreeCount = h.invalidFreeCount := by
  unfold Heap.coalesceNext
  dsimp only
  split_ifs <;> exact ⟨rfl, rfl⟩

theorem Heap.release_counts (block : UInt32) :
    (h.releaseWholeRegionIfPossible P block).doubleFreeCount = h.doubleFreeCount ∧
    (h.releaseWholeRegionIfPossible P block).invalidFreeCount = h.invalidFreeCount := by
  unfold Heap.releaseWholeRegionIfPossible
  dsimp only
  split_ifs <;> exact ⟨rfl, rfl⟩

/-- Freeing a block in use counts no error. -/
theorem Heap.freeBlock_counts (block : UInt32) :
    (h.freeBlock P block).doubleFreeCount = h.doubleFreeCount ∧
    (h.freeBlock P block).invalidFreeCount = h.invalidFreeCount := by
  have hmark : (h.markFree block).doubleFreeCount = h.doubleFreeCount ∧
      (h.markFree block).invalidFreeCount = h.invalidFreeCount := ⟨rfl, rfl⟩
  rw [Heap.freeBlock_eq]
  split
  · rw [(Heap.release_counts _ _).1, (Heap.release_counts _ _).2, (Heap.coalesceNext_counts _ _).1,
      (Heap.coalesceNext_counts _ _).2, (Heap.coalesceNext_counts _ _).1,
      (Heap.coalesceNext_counts _ _).2]
    exact hmark
  · rw [(Heap.release_counts _ _).1, (Heap.release_counts _ _).2, (Heap.coalesceNext_counts _ _).1,
      (Heap.coalesceNext_counts _ _).2]
    exact hmark

end Counters

/-! ### Two calls -/

/-- The second call sees a freed block. -/
theorem Marked.kfree {h : Heap σ} (hm : Marked h.mem b.addr) (hb : b.Fits)
    (hptr : b.addr + headerSize ≠ 0) : h.kfree P (b.addr + headerSize)
      = some { h with doubleFreeCount := h.doubleFreeCount + 1 } := by
  have hnext : (header h.mem b.addr).next ≠ heapAlignMagic := fun heq => by
    have haligned := hm.next
    rw [heq] at haligned
    cases haligned
  rw [Heap.kfree, loopBound_eq, Heap.kfreeFrom_payload _ hb hptr hnext,
    if_neg (not_not.mpr hm.magic), if_pos hm.free]

/-- **An immediate double free is harmless**: in every reached state and for every live pointer, the
second call only counts the double free, and the first one counts no error. -/
theorem double_free_harmless {image : KernelImage} {entries : List E820Entry} {p0 : Pmm}
    {h : Traced} {live : List UInt32} {p : UInt32}
    (hreached : Reached (p0.pmmInitialize image.kernelEnd entries) h live) (hp : p ∈ live) :
    ∃ h', h.kfree traced p = some h' ∧ h'.doubleFreeCount = h.doubleFreeCount ∧
      h'.invalidFreeCount = h.invalidFreeCount ∧
      h'.kfree traced p = some { h' with doubleFreeCount := h'.doubleFreeCount + 1 } := by
  obtain ⟨blocks, hh, -⟩ := hreached.owned
  obtain ⟨l1, b, l2, rfl, hused, haddr, h0⟩ := hh.find (List.mem_map_of_mem hp)
  obtain rfl : b.addr + headerSize = p := haddr
  obtain ⟨hdouble, hinvalid⟩ := h.freeBlock_counts (P := traced) b.addr
  exact ⟨_, hh.ok.kfree_eq hused h0, hdouble, hinvalid,
    (hh.ok.freeBlock_marked hused).kfree hh.ok.placed.fits_self h0⟩

/-- The only region of the heap is released by the first call. -/
theorem double_free_harmless_holeStart : ∃ h, Reached holeStart h [0x100018] ∧
    ∃ h', h.kfree traced 0x100018 = some h' ∧ h'.doubleFreeCount = h.doubleFreeCount ∧
      h'.invalidFreeCount = h.invalidFreeCount ∧
      h'.kfree traced 0x100018 = some { h' with doubleFreeCount := h'.doubleFreeCount + 1 } := by
  obtain ⟨h, h1, -, hinit, hcall, -, -, hlog, -⟩ := firstBlock
  have hrun : TracedRun (fun _ _ => True) holeStart h1 [0x100018] :=
    (Reached.fresh hinit).run.alloc trivial hcall
  have hreached : Reached holeStart h1 [0x100018] := by
    refine ⟨hrun, fun address count hmem => ?_⟩
    rw [hlog] at hmem
    exact nomatch List.mem_singleton.mp hmem
  exact ⟨h1, hreached,
    @double_free_harmless smallImage holeMap _ _ _ _ hreached (List.mem_singleton_self _)⟩

end MyOS
