import MyOS.Heap.Contract

/-!
# Aligned allocations

`kmalloc_aligned` asks `kmalloc` for enough room to move the pointer up to a multiple of the
alignment, and puts an `aligned_header` of eight bytes in front of it: a mark and the pointer that
`kmalloc` returned. `kfree` reads the eight bytes in front of every pointer first, and where it
finds the mark it clears it and goes on with the other pointer.

`kmallocAligned_sound` says that there is room for the header and the bytes asked for, and that
`kfree` of the aligned pointer does what `kfree` of the block's own pointer does, but for the
cleared mark, which lies inside the payload. `AgreeOff` is the relation between the two memories,
and `SameOff` between the two heaps.
-/

namespace MyOS

open List

/-- `kmalloc_aligned`. -/
def Heap.kmallocAligned {σ : Type} (P : PageSource σ) (h : Heap σ) (size alignment : UInt32) :
    Option (UInt32 × Heap σ) :=
  let alignment := if alignment < 4 then 4 else alignment
  let total := size + alignment + 8
  match h.kmalloc P total with
  | none => none
  | some (raw, h) =>
    if raw = 0 then some (0, h)
    else
      let aligned := (raw + 8 + alignment - 1) &&& ~~~ (alignment - 1)
      let header := (aligned - 8).toNat
      let m := h.mem.store32 header heapAlignMagic
      let m := m.store32 (header + 4) raw
      some (aligned, { h with mem := m })

open Block Pmm

variable {σ : Type} {P : PageSource σ} {lo hi : ℕ} {m m' : Mem} {block c v : UInt32}
variable {blocks l1 l2 : List Block} {b : Block}

/-! ### Memories that agree outside an interval -/

/-- The two memories agree outside the bytes `lo, …, hi - 1`. -/
def AgreeOff (lo hi : ℕ) (m m' : Mem) : Prop := ∀ k, k < lo ∨ hi ≤ k → m' k = m k

/-- The header at `c` lies outside them. -/
def Off (lo hi : ℕ) (c : UInt32) : Prop := c.toNat + 24 ≤ lo ∨ hi ≤ c.toNat

namespace AgreeOff

section

variable (h : AgreeOff lo hi m m')
include h

theorem header (hc : Off lo hi c) :
    MyOS.header m' c = MyOS.header m c := by
  unfold Off at hc
  exact header_congr fun k hk => h _ (by omega)

theorem store32 (a : ℕ) (v : UInt32) :
    AgreeOff lo hi (m.store32 a v) (m'.store32 a v) := by
  intro k hk
  by_cases hin : a ≤ k ∧ k < a + 4
  · exact (if_pos hin).trans (if_pos hin).symm
  · rw [Mem.store32_of_not_mem _ _ (by omega), Mem.store32_of_not_mem _ _ (by omega), h k hk]

theorem setFree (c : UInt32) (v : Bool) :
    AgreeOff lo hi (setFree m c v) (setFree m' c v) := by
  intro k hk
  unfold MyOS.setFree
  by_cases hin : k = c.toNat + 12
  · rw [hin, Mem.store8_self, Mem.store8_self]
  · rw [Mem.store8_of_ne _ _ hin, Mem.store8_of_ne _ _ hin, h k hk]

/-- `coalesce_next` reads the headers of the block and of its successor. -/
theorem mergeHeaders (hb : Off lo hi block) (hn : Off lo hi (MyOS.header m block).next) :
    AgreeOff lo hi (mergeHeaders m block) (mergeHeaders m' block) := by
  unfold MyOS.mergeHeaders
  dsimp only
  rw [h.header hb, h.header hn]
  generalize (MyOS.header m block).next = next at *
  have h1 : AgreeOff lo hi (setSize m block _) (setSize m' block _) :=
    h.store32 (block.toNat + 4) ((MyOS.header m block).size +
      (headerSize + (MyOS.header m next).size))
  generalize setSize m block _ = m1, setSize m' block _ = m1' at h1 ⊢
  rw [h1.header hn]
  have h2 : AgreeOff lo hi (setNext m1 block _) (setNext m1' block _) :=
    h1.store32 (block.toNat + 16) (MyOS.header m1 next).next
  generalize setNext m1 block _ = m2, setNext m1' block _ = m2' at h2 ⊢
  rw [h2.header hb]
  split
  · exact h2.store32 _ _
  · exact h2

/-- `unlink_block` reads the header of the block. -/
theorem unlinkHeaders (hb : Off lo hi block) :
    AgreeOff lo hi (unlinkHeaders m block) (unlinkHeaders m' block) := by
  unfold MyOS.unlinkHeaders
  dsimp only
  rw [h.header hb]
  by_cases hp : (MyOS.header m block).prev ≠ 0
  · rw [if_pos hp, if_pos hp]
    have h1 : AgreeOff lo hi (setNext m _ _) (setNext m' _ _) :=
      h.store32 ((MyOS.header m block).prev.toNat + 16) (MyOS.header m block).next
    generalize (MyOS.header m block).prev = prev at h1 ⊢
    rw [h1.header hb]
    split
    · exact h1.store32 _ _
    · exact h1
  · rw [if_neg hp, if_neg hp, h.header hb]
    split
    · exact h.store32 _ _
    · exact h

end

end AgreeOff

/-! ### Heaps that differ inside a payload -/

/-- The two heaps are the same, but for the bytes `lo, …, hi - 1` of the memory. -/
structure SameOff (lo hi : ℕ) (g g' : Heap σ) : Prop where
  mem : AgreeOff lo hi g.mem g'.mem
  rest : g' = { g with mem := g'.mem }

namespace SameOff

variable {g g' : Heap σ}

section

variable (hs : SameOff lo hi g g') (hb : Off lo hi block)
include hs hb

theorem markFree :
    SameOff lo hi (g.markFree block) (g'.markFree block) := by
  obtain ⟨hmem, hrest⟩ := hs
  rw [hrest]
  generalize g'.mem = m' at hmem
  have hmem' := hmem.setFree block true
  refine ⟨hmem', ?_⟩
  unfold Heap.markFree
  rw [hmem'.header hb]

theorem coalesceNext (hn : (header g.mem block).next ≠ 0 → Off lo hi (header g.mem block).next) :
    SameOff lo hi (g.coalesceNext block) (g'.coalesceNext block) := by
  obtain ⟨hmem, hrest⟩ := hs
  rw [hrest]
  generalize g'.mem = m' at hmem
  unfold Heap.coalesceNext
  dsimp only
  rw [hmem.header hb]
  by_cases h0 : (header g.mem block).next = 0
  · rw [if_pos (.inl h0), if_pos (.inl h0)]
    exact ⟨hmem, rfl⟩
  · rw [hmem.header (hn h0)]
    split
    · exact ⟨hmem, rfl⟩
    split
    · exact ⟨hmem, rfl⟩
    · exact ⟨hmem.mergeHeaders hb (hn h0), rfl⟩

theorem release :
    SameOff lo hi (g.releaseWholeRegionIfPossible P block)
      (g'.releaseWholeRegionIfPossible P block) := by
  obtain ⟨hmem, hrest⟩ := hs
  rw [hrest]
  generalize g'.mem = m' at hmem
  unfold Heap.releaseWholeRegionIfPossible
  dsimp only
  rw [hmem.header hb]
  split
  · exact ⟨hmem, rfl⟩
  split
  · exact ⟨hmem, rfl⟩
  · have hunlink := hmem.unlinkHeaders hb
    refine ⟨hunlink, ?_⟩
    unfold Heap.unlinkBlock
    rw [hunlink.header hb, hmem.header hb]

end

/-- The links of a list lead outside, as its headers do. -/
theorem next_off (ok : g.Ok blocks) (hoff : ∀ d ∈ blocks, Off lo hi d.addr) (hb : b ∈ blocks)
    (h0 : (header g.mem b.addr).next ≠ 0) : Off lo hi (header g.mem b.addr).next := by
  obtain ⟨l1, l2, rfl⟩ := append_of_mem hb
  obtain ⟨e, he, hadd⟩ := ok.repr.next_mem h0
  exact hadd ▸ hoff e (mem_of_mem_around he)

/-- **`kfree` does the same on both heaps.** -/
theorem freeBlock (hs : SameOff lo hi g g') (ok : g.Ok (l1 ++ b :: l2)) (hused : b.free = false)
    (hoff : ∀ d ∈ l1 ++ b :: l2, Off lo hi d.addr) :
    SameOff lo hi (g.freeBlock P b.addr) (g'.freeBlock P b.addr) := by
  have hb : Off lo hi b.addr := hoff b (by simp)
  have ok1 : (g.markFree b.addr).Ok (l1 ++ { b with free := true } :: l2) := ok.give hused
  have hoff1 : ∀ d ∈ l1 ++ { b with free := true } :: l2, Off lo hi d.addr :=
    forall_mem_replace [_] hoff (forall_mem_singleton.mpr hb)
  have hs2 := (hs.markFree hb).coalesceNext hb
    (next_off ok1 hoff1 (b := { b with free := true }) (by simp))
  obtain ⟨ok2, -⟩ := ok1.coalesceNext_mergeNext rfl
  have hoff2 := forall_mergeNext hoff1
  obtain ⟨b2, l2', heq, haddr, -⟩ := mergeNext_cons { b with free := true } l2
  rw [heq] at ok2 hoff2
  change ((g.markFree b.addr).coalesceNext b.addr).Ok _ at ok2
  rw [Heap.freeBlock_eq, Heap.freeBlock_eq]
  generalize (g.markFree b.addr).coalesceNext b.addr = g2,
    (g'.markFree b.addr).coalesceNext b.addr = g2' at hs2 ok2 ⊢
  rw [hs2.mem.header hb]
  by_cases h0 : (header g2.mem b.addr).prev = 0
  · rw [if_neg (fun hand => hand.1 h0), if_neg (fun hand => hand.1 h0)]
    exact hs2.release hb
  · -- the previous block is on the list
    obtain ⟨e, he, hadd⟩ := ok2.repr.prev_mem (b := b2) (by rw [haddr]; exact h0)
    have hemem : e ∈ l1 ++ b2 :: l2' := mem_append_left _ he
    rw [haddr] at hadd
    rw [← hadd, hs2.mem.header (hoff2 e hemem)]
    split
    · exact (hs2.coalesceNext (hoff2 e hemem) (next_off ok2 hoff2 hemem)).release (hoff2 e hemem)
    · exact hs2.release hb

end SameOff

/-! ### `kfree` on an aligned pointer -/

section Aligned

variable {start : Pmm} {g g' h : Traced} {live : List UInt32} {n a p raw : UInt32}

/-- The eight bytes before `p` are the header of an aligned pointer, inside the payload of `raw`. -/
structure AlignedHeader (g : Traced) (p raw : UInt32) : Prop where
  magic : g.mem.load32 (p - 8).toNat = heapAlignMagic
  pointer : g.mem.load32 ((p - 8).toNat + 4) = raw
  above : raw.toNat + 8 ≤ p.toNat
  below : p.toNat ≤ raw.toNat + (header g.mem (raw - headerSize)).size.toNat

/-- The heaps `g` and `g'` are the same to every later call: they differ at most in the mark in
front of `p`, which belongs to no header of the list. -/
structure SameEffect (p : UInt32) (g g' : Traced) : Prop where
  list : ∀ c, Listed g'.mem g'.head c ↔ Listed g.mem g.head c
  headers : ∀ c, Listed g.mem g.head c → header g'.mem c = header g.mem c
  counters : g'.total = g.total ∧ g'.used = g.used ∧
    g'.invalidFreeCount = g.invalidFreeCount ∧ g'.doubleFreeCount = g.doubleFreeCount
  pages : g'.pages = g.pages
  mem : ∀ k, k < p.toNat - 8 ∨ p.toNat - 4 ≤ k → g'.mem k = g.mem k

/-- Heaps that differ outside the headers of their list have the same list. -/
theorem SameOff.sameEffect (hs : SameOff (p.toNat - 8) (p.toNat - 4) g g') (ok : g.Ok blocks)
    (hoff : ∀ d ∈ blocks, Off (p.toNat - 8) (p.toNat - 4) d.addr) : SameEffect p g g' := by
  obtain ⟨hmem, hrest⟩ := hs
  rw [hrest]
  generalize g'.mem = m' at hmem
  have hsame : ∀ b ∈ blocks, header m' b.addr = header g.mem b.addr :=
    fun b hb => hmem.header (hoff b hb)
  have ok' := ok.write hsame
  refine ⟨fun c => ?_, fun c hc => ?_, ⟨rfl, rfl, rfl, rfl⟩, rfl, hmem⟩
  · rw [ok'.repr.listed_iff ok.placed.fits, ok.repr.listed_iff ok.placed.fits]
  · obtain ⟨b, hb, rfl⟩ := mem_map.mp ((ok.repr.listed_iff ok.placed.fits).mp hc)
    exact hsame b hb

/-- Eight bytes of the payload of one block are outside the headers of the list. -/
theorem payload_off (ok : g.Ok (l1 ++ b :: l2)) (h0 : b.addr + headerSize ≠ 0)
    (habove : (b.addr + headerSize).toNat + 8 ≤ p.toNat)
    (hbelow : p.toNat ≤ (b.addr + headerSize).toNat + (header g.mem b.addr).size.toNat) :
    ∀ d ∈ l1 ++ b :: l2, Off (p.toNat - 8) p.toNat d.addr := by
  have hbound := ok.placed.fits_self.bound
  rw [ok.placed.fits_self.payload_toNat h0] at habove hbelow
  rw [ok.repr.describes.size] at hbelow
  have hother : ∀ d ∈ l1 ++ l2, Off (p.toNat - 8) p.toNat d.addr := by
    intro d hd
    have hdis := ok.placed.disjoint_of_mem hd
    unfold Block.Disjoint Block.hi Block.lo at hdis
    unfold Off
    omega
  rw [forall_mem_append] at hother
  exact forall_mem_append.mpr ⟨hother.1, forall_mem_cons.mpr ⟨.inl (by omega), hother.2⟩⟩

theorem toNat_sub_eight (hp : 8 ≤ p.toNat) : (p - 8).toNat = p.toNat - 8 := by
  have hlt := p.toNat_lt
  rw [UInt32.toNat_sub]
  change (2 ^ 32 - 8 + p.toNat) % 2 ^ 32 = _
  omega

/-- **`kfree` of the aligned pointer does what `kfree` of the block's own pointer does.** -/
theorem AlignedHeader.kfree (ha : AlignedHeader g p raw) {blocks : List Block}
    (hh : Held g (unsized live) blocks) (hraw : raw ∈ live) :
    ∃ f f', g.kfree traced raw = some f ∧ g.kfree traced p = some f' ∧ SameEffect p f f' := by
  obtain ⟨l1, b, l2, rfl, hused, haddr, h0⟩ := hh.find (mem_map_of_mem hraw)
  obtain rfl : b.addr + headerSize = raw := haddr
  have ok := hh.ok
  have habove := ha.above
  have hbelow := ha.below
  rw [UInt32.add_sub_cancel] at hbelow
  have hoff := payload_off ok h0 habove hbelow
  have hp8 := toNat_sub_eight (p := p) (by omega)
  have hp0 : p ≠ 0 := by
    rintro rfl
    cases habove
  -- the heap with the mark cleared
  have hoff' : ∀ d ∈ l1 ++ b :: l2, Off (p.toNat - 8) (p.toNat - 4) d.addr := fun d hd => by
    have := hoff d hd
    unfold Off at this ⊢
    omega
  have hs : SameOff (p.toNat - 8) (p.toNat - 4) g
      { g with mem := g.mem.store32 (p - 8).toNat 0 } := by
    refine ⟨fun k hk => ?_, rfl⟩
    exact Mem.store32_of_not_mem _ _ (by omega)
  have hsame : ∀ d ∈ l1 ++ b :: l2,
      header (g.mem.store32 (p - 8).toNat 0) d.addr = header g.mem d.addr :=
    fun d hd => hs.mem.header (hoff' d hd)
  have hload : (g.mem.store32 (p - 8).toNat 0).load32 ((p - 8).toNat + 4)
      = b.addr + headerSize := by
    rw [Mem.load32_store32_of_disjoint _ _ (by omega), ha.pointer]
  have heq : g.kfree traced p = some (Heap.freeBlock traced
      { g with mem := g.mem.store32 (p - 8).toNat 0 } b.addr) := by
    have hd := (ok.write hsame).repr.describes
    rw [Heap.kfree, loopBound_eq, Heap.kfreeFrom, if_neg hp0]
    dsimp only
    rw [if_pos ha.magic, hload, Heap.kfreeFrom_payload _ ok.placed.fits_self h0
      (ok.write hsame).next_ne_alignMagic, if_neg (not_not.mpr hd.magic), hd.free, hused]
    rfl
  obtain ⟨blocks', ok', hfreed⟩ := ok.freeBlock (P := traced) hused
  have hQ : ∀ d ∈ l1 ++ { b with free := true } :: l2, Off (p.toNat - 8) (p.toNat - 4) d.addr :=
    forall_mem_replace [_] hoff' (forall_mem_singleton.mpr (hoff' b (by simp)))
  exact ⟨_, _, ok.kfree_eq hused h0, heq,
    (hs.freeBlock ok hused hoff').sameEffect ok' (hfreed.forall_addr hQ)⟩

/-! ### `kmalloc_aligned` -/

/-- What `kmalloc_aligned(n, a)` promises of the pointer `p` in the heap `h`, which lies in the
block of `raw`. -/
structure AlignedBlock (start : Pmm) (h : Traced) (n a p raw : UInt32) : Prop where
  aligned : p.toNat % max a.toNat 4 = 0
  /-- The block is on the list and in use. -/
  listed : Listed h.mem h.head (raw - headerSize)
  inUse : (header h.mem (raw - headerSize)).free = false
  /-- The aligned header is in front of the pointer, inside the payload. -/
  mark : AlignedHeader h p raw
  /-- So are the bytes asked for. -/
  room : p.toNat + n.toNat ≤ raw.toNat + (header h.mem (raw - headerSize)).size.toNat
  /-- As long as the block is live and the aligned header is kept, both pointers free it alike. -/
  kfree : ∀ g live', Reached start g live' → raw ∈ live' → AlignedHeader g p raw →
    ∃ f f', g.kfree traced raw = some f ∧ g.kfree traced p = some f' ∧ SameEffect p f f'

/-- The aligned pointer, and how far it is from the block's own. -/
theorem aligned_room (raw : UInt32) {k : ℕ} (ha : a.toNat = 2 ^ k)
    (hfit : raw.toNat + 8 + 2 ^ k ≤ 2 ^ 32) :
    ((raw + 8 + a - 1) &&& ~~~ (a - 1)).toNat % 2 ^ k = 0 ∧
    raw.toNat + 8 ≤ ((raw + 8 + a - 1) &&& ~~~ (a - 1)).toNat ∧
    ((raw + 8 + a - 1) &&& ~~~ (a - 1)).toNat < raw.toNat + 8 + 2 ^ k := by
  have hpos : 0 < 2 ^ k := Nat.two_pow_pos k
  have hsum : (raw + 8).toNat = raw.toNat + 8 := by
    rw [UInt32.toNat_add]
    change (raw.toNat + 8) % 2 ^ 32 = _
    omega
  have hround := Word.alignUp_toNat (raw + 8) ha (by omega)
  unfold Word.alignUp at hround
  rw [hround, hsum]
  have hle := Nat.div_mul_le_self (raw.toNat + 8 + (2 ^ k - 1)) (2 ^ k)
  have hlt := Nat.lt_div_mul_add (a := raw.toNat + 8 + (2 ^ k - 1)) hpos
  exact ⟨Nat.mul_mod_left _ _, by omega, by omega⟩

/-- The alignment that `kmalloc_aligned` works with. -/
theorem alignment_eq {k : ℕ} (ha : a.toNat = 2 ^ k) :
    (if a < 4 then 4 else a).toNat = max a.toNat 4 ∧
    ∃ j, (if a < 4 then 4 else a : UInt32).toNat = 2 ^ j := by
  by_cases hlt : a < 4
  · rw [if_pos hlt]
    have := UInt32.lt_iff_toNat_lt.mp hlt
    change a.toNat < 4 at this
    refine ⟨?_, 2, rfl⟩
    change 4 = max a.toNat 4
    omega
  · rw [if_neg hlt]
    have : ¬ a.toNat < 4 := fun h => hlt (UInt32.lt_iff_toNat_lt.mpr h)
    exact ⟨by omega, k, ha⟩

/-- The aligned header is put in front of a pointer `p` into the payload of `raw`. -/
theorem AlignedHeader.place (hh : Held h (unsized live) blocks) (hraw : raw ∈ live)
    (habove : raw.toNat + 8 ≤ p.toNat)
    (hbelow : p.toNat ≤ raw.toNat + (header h.mem (raw - headerSize)).size.toNat) :
    (∀ c, Listed h.mem h.head c →
      ∀ k < 24, ((h.mem.store32 (p - 8).toNat heapAlignMagic).store32 ((p - 8).toNat + 4) raw)
        (c.toNat + k) = h.mem (c.toNat + k)) ∧
    AlignedHeader { h with
      mem := (h.mem.store32 (p - 8).toNat heapAlignMagic).store32 ((p - 8).toNat + 4) raw }
      p raw := by
  obtain ⟨l1, b, l2, rfl, -, haddr, h0⟩ := hh.find (mem_map_of_mem hraw)
  obtain rfl : b.addr + headerSize = raw := haddr
  rw [UInt32.add_sub_cancel] at hbelow
  have hoff := payload_off hh.ok h0 habove hbelow
  have hp8 := toNat_sub_eight (p := p) (by omega)
  have hwrite : ∀ c, Listed h.mem h.head c → ∀ k < 24,
      ((h.mem.store32 (p - 8).toNat heapAlignMagic).store32 ((p - 8).toNat + 4)
        (b.addr + headerSize)) (c.toNat + k) = h.mem (c.toNat + k) := by
    intro c hc k hk
    obtain ⟨d, hd, rfl⟩ := mem_map.mp ((hh.ok.repr.listed_iff hh.ok.placed.fits).mp hc)
    have := hoff d hd
    unfold Off at this
    rw [Mem.store32_of_not_mem _ _ (by omega), Mem.store32_of_not_mem _ _ (by omega)]
  refine ⟨hwrite, ?_, Mem.load32_store32_self _ _ _, habove, ?_⟩
  · rw [Mem.load32_store32_of_disjoint _ _ (by omega), Mem.load32_store32_self]
  · have hlisted : Listed h.mem h.head b.addr :=
      (hh.ok.repr.listed_iff hh.ok.placed.fits).mpr (mem_map_of_mem (by simp))
    rw [UInt32.add_sub_cancel, header_congr (hwrite _ hlisted)]
    exact hbelow

/-- What `kmalloc` returns has room for the request, and lies below the limit of the page allocator.
-/
theorem Owned.kmalloc_room {total : UInt32} (ho : Owned start h.pages blocks)
    (hh : Held h (unsized live) blocks) (h0 : total ≠ 0) (hfit : total.toNat + 8 ≤ 2 ^ 32) :
    ∃ raw h', h.kmalloc traced total = some (raw, h') ∧ OnlyAllocs h.pages.2 h'.pages.2 ∧
      (raw ≠ 0 → ∃ blocks', Held h' (unsized (raw :: live)) blocks' ∧
        total.toNat ≤ (header h'.mem (raw - headerSize)).size.toNat ∧
        raw.toNat + (header h'.mem (raw - headerSize)).size.toNat ≤ 2 ^ 27) := by
  obtain ⟨raw, h', heq, hcalls, blocks', hh', ho'⟩ := ho.kmalloc total hh
  obtain ⟨raw', h1, heq', houtcome⟩ := kmalloc_outcome hh.ok ho h0
  obtain ⟨rfl, rfl⟩ : raw' = raw ∧ h1 = h' := by simpa using heq'.symm.trans heq
  refine ⟨raw', h1, heq, hcalls, fun hraw => ?_⟩
  rw [if_neg hraw] at hh'
  refine ⟨blocks', hh', ?_, ?_⟩
  · cases houtcome with
    | refused hnull => exact absurd hnull hraw
    | exhausted hnull => exact absurd hnull hraw
    | served _ hpayload _ hge =>
      have := (le_alignUp (n := total) hfit).1
      rw [hpayload]
      omega
  · obtain ⟨l1, b, l2, rfl, -, haddr, -⟩ := hh'.find (mem_map_of_mem mem_cons_self)
    obtain rfl : b.addr + headerSize = raw' := haddr
    obtain ⟨-, -, hhi⟩ := ho'.range (b := b) (by simp)
    rw [hi_eq, Block.lo] at hhi
    rw [UInt32.add_sub_cancel, hh'.ok.repr.describes.size, UInt32.toNat_add, headerSize_toNat]
    omega

/-- A live pointer is the payload of a listed block in use. -/
theorem Held.listed (hh : Held h (unsized live) blocks) (hraw : raw ∈ live) :
    Listed h.mem h.head (raw - headerSize) ∧ (header h.mem (raw - headerSize)).free = false := by
  obtain ⟨l1, b, l2, rfl, hused, haddr, -⟩ := hh.find (mem_map_of_mem hraw)
  obtain rfl : b.addr + headerSize = raw := haddr
  rw [UInt32.add_sub_cancel]
  exact ⟨(hh.ok.repr.listed_iff hh.ok.placed.fits).mpr (mem_map_of_mem (by simp)),
    hh.ok.repr.describes.free.trans hused⟩

/-- **Aligned allocations are aligned, have room for what was asked for, and are freed like the
block that they lie in**, in every reached state. -/
theorem kmallocAligned_sound {image : KernelImage} {entries : List E820Entry} {p0 : Pmm} {k : ℕ}
    (hreached : Reached (p0.pmmInitialize image.kernelEnd entries) h live)
    (ha : a.toNat = 2 ^ k) (hfit : n.toNat + max a.toNat 4 + 8 + 7 < 2 ^ 32) :
    ∃ p h', h.kmallocAligned traced n a = some (p, h') ∧ (p ≠ 0 → ∃ raw,
      Reached (p0.pmmInitialize image.kernelEnd entries) h' (raw :: live) ∧
      AlignedBlock (p0.pmmInitialize image.kernelEnd entries) h' n a p raw) := by
  obtain ⟨blocks, hh, ho⟩ := hreached.owned
  obtain ⟨hmax, j, hpow⟩ := alignment_eq ha
  unfold Heap.kmallocAligned
  dsimp only
  rw [← hmax] at hfit
  generalize (if a < 4 then 4 else a : UInt32) = A at hmax hpow hfit ⊢
  have htotal : (n + A + 8).toNat = n.toNat + A.toNat + 8 := by
    rw [UInt32.toNat_add, UInt32.toNat_add]
    change ((n.toNat + A.toNat) % 2 ^ 32 + 8) % 2 ^ 32 = _
    omega
  have hne : n + A + 8 ≠ 0 := fun h0 => by
    have := congrArg UInt32.toNat h0
    rw [htotal, UInt32.toNat_zero] at this
    omega
  obtain ⟨raw, h1, heq, hcalls, hroom⟩ := ho.kmalloc_room hh hne (by omega)
  rw [heq]
  dsimp only
  by_cases hraw : raw = 0
  · rw [if_pos hraw]
    exact ⟨0, h1, rfl, fun h0 => absurd rfl h0⟩
  rw [if_neg hraw]
  obtain ⟨blocks1, hh1, hsize, hlimit⟩ := hroom hraw
  -- the header and the bytes asked for fit behind the pointer that `kmalloc` returned
  obtain ⟨hmod, hlow, hhigh⟩ := aligned_room raw hpow (by omega)
  generalize (raw + 8 + A - 1) &&& ~~~ (A - 1) = p at hmod hlow hhigh ⊢
  obtain ⟨hwrite, hmark⟩ := AlignedHeader.place hh1 mem_cons_self hlow (by omega)
  have hrun := hreached.run.alloc trivial heq
  rw [if_neg hraw] at hrun
  obtain ⟨hlisted, -⟩ := hh1.listed mem_cons_self
  obtain ⟨hlisted', hused⟩ := (hh1.write hwrite).listed mem_cons_self
  refine ⟨p, _, rfl, fun _ => ⟨raw, ⟨hrun.write hwrite, hreached.inside.onlyAllocs hcalls⟩, ?_⟩⟩
  refine ⟨by rw [← hmax, hpow]; exact hmod, hlisted', hused, hmark, ?_,
    fun g live' hg hmem ha => ?_⟩
  · rw [header_congr (hwrite _ hlisted)]
    omega
  · obtain ⟨blocks, hheld, -⟩ := hg.owned
    exact ha.kfree hheld hmem

/-- A hundred bytes at a multiple of 64, from the first page. -/
theorem kmallocAligned_sound_holeStart : ∃ h h' raw, Reached holeStart h [] ∧
    h.kmallocAligned traced 100 64 = some (0x100040, h') ∧ Reached holeStart h' [raw] ∧
    AlignedBlock holeStart h' 100 64 0x100040 raw := by
  have heval : ((Heap.heapInitialize traced ⟨fun _ => 0⟩ (holeStart, [])).bind fun h =>
      (h.kmallocAligned traced 100 64).map fun r => r.1) = some 0x100040 := by
    decide +kernel
  obtain ⟨h, hinit, hcall⟩ := Option.bind_eq_some_iff.mp heval
  obtain ⟨r, hr, hp⟩ := Option.map_eq_some_iff.mp hcall
  obtain ⟨p, h', heq, hsound⟩ := @kmallocAligned_sound h [] 100 64 smallImage holeMap _ 6
    (.fresh hinit) (by decide) (by decide)
  obtain rfl : r = (p, h') := Option.some.inj (hr.symm.trans heq)
  obtain rfl : p = 0x100040 := hp
  obtain ⟨raw, hreached, hblock⟩ := hsound (by decide)
  exact ⟨h, h', raw, .fresh hinit, heq, hreached, hblock⟩

end Aligned

end MyOS
