import MyOS.Heap.Reached

/-!
# The contract of `kmalloc` for every size

A pointer that `kmalloc(n)` returns has a payload of at least `n` bytes, and a null pointer means
that nothing has changed (`KmallocContract`). The two sums that `kmalloc` computes from `n` wrap
around near `2^32`; `kmalloc_contract_iff` says for which sizes the contract holds, in every reached
state.

* Up to `0xFFFFFFE8` it holds. Where the number of pages wraps around it becomes 0, and the page
  allocator refuses it.
* From `0xFFFFFFE9` to `0xFFFFFFF8` the number of pages becomes 1. No region of one page serves the
  request, so `kmalloc` adds regions until there is no page left, and then returns null.
* From `0xFFFFFFF9` on the request itself is rounded up to 0, and any free block serves it.
-/

namespace MyOS

open Block Pmm List

variable {start : Pmm} {h h' h1 : Traced} {n p size : UInt32}
variable {blocks blocks1 : List Block} {b : Block}

/-! ### The contract -/

/-- What a caller of `kmalloc(n)` may expect of the result `p` and of the heap `h'` that is left. -/
structure KmallocContract (h : Traced) (n p : UInt32) (h' : Traced) : Prop where
  /-- The payload has the size that was asked for. -/
  payload : p ≠ 0 → n.toNat ≤ (header h'.mem (p - headerSize)).size.toNat
  /-- The list is as before. -/
  list : p = 0 → h'.mem = h.mem ∧ h'.head = h.head
  /-- The counters are as before. -/
  counters : p = 0 → h'.total = h.total ∧ h'.used = h.used
  /-- The used pages are as before. -/
  pages : p = 0 → ∀ k, h'.pages.1.bitmapTest k = h.pages.1.bitmapTest k

/-- `kmalloc(n)` returns, and honours its contract. -/
def HonoursContract (h : Traced) (n : UInt32) : Prop :=
  ∃ p h', h.kmalloc traced n = some (p, h') ∧ KmallocContract h n p h'

/-! ### The outcome of `kmalloc` -/

/-- A region adds its size to `heap_total`. -/
theorem Growing.total_ne {news : List Block} (hg : Growing start h blocks size h1 blocks1 news)
    (ok : h.Ok blocks) (hnews : news ≠ []) : h1.total ≠ h.total := by
  intro heq
  obtain ⟨b, l, rfl⟩ := exists_cons_of_ne_nil hnews
  obtain ⟨page, hrun, rfl⟩ := hg.regions b (by simp)
  have htotal := ok.total
  have htotal1 := hg.ok.total
  rw [hg.list, totalSize_append, totalSize_cons, ← heq] at *
  have hpos := hrun.count_pos
  have hsize := hrun.size_eq
  omega

/-- The outcome of `kmalloc(n)`. -/
inductive Outcome (h : Traced) (blocks : List Block) (n p : UInt32) (h' : Traced) : Prop
  /-- Nothing serves the request, and the first call to the page allocator is refused. -/
  | refused : p = 0 → blocks.find? (Block.Serves (Word.alignUp n 8)) = none →
      (h.pages.1.pmmAllocPages (Heap.pagesNeeded (Word.alignUp n 8))).1 = 0 →
      KmallocContract h n p h' → Outcome h blocks n p h'
  /-- Regions have been added in vain. -/
  | exhausted {page : UInt32} : p = 0 → PageRun page (Heap.pagesNeeded (Word.alignUp n 8)) →
      (ofPages page (Heap.pagesNeeded (Word.alignUp n 8))).Serves (Word.alignUp n 8) = false →
      (h.pages.1.pmmAllocPages (Heap.pagesNeeded (Word.alignUp n 8))).1 ≠ 0 →
      h'.total ≠ h.total → Outcome h blocks n p h'
  /-- A block has been found, on the old list or in a new region. -/
  | served {w : UInt32} : p ≠ 0 → (header h'.mem (p - headerSize)).size = w →
      w.toNat < 2 ^ 27 → (Word.alignUp n 8).toNat ≤ w.toNat →
      ((∃ b ∈ blocks, b.Serves (Word.alignUp n 8) = true) ∨
        (h.pages.1.pmmAllocPages (Heap.pagesNeeded (Word.alignUp n 8))).1 ≠ 0) →
      Outcome h blocks n p h'

/-- The block that `kmalloc` hands out has room for the rounded request. -/
theorem Carved.size_ge {m : Mem} {b' : Block} {rest : List Block} (hc : Carved m size b b' rest)
    (hserves : b.Serves size = true) :
    size.toNat ≤ b'.size.toNat ∧ b'.size.toNat ≤ b.size.toNat := by
  have hsize := (serves_iff.mp hserves).2
  cases hc with
  | whole => exact ⟨hsize, le_refl _⟩
  | split => exact ⟨le_refl _, hsize⟩

/-- **`kmalloc` has one of three outcomes.** -/
theorem kmalloc_outcome (ok : h.Ok blocks) (ho : Owned start h.pages blocks) (hn : n ≠ 0) :
    ∃ p h', h.kmalloc traced n = some (p, h') ∧ Outcome h blocks n p h' := by
  obtain ⟨p, h', heq, hres⟩ := (grows_growing start h blocks (Word.alignUp n 8)).kmalloc
    ⟨[], .begin ok ho⟩ hn
  refine ⟨p, h', heq, ?_⟩
  rcases hres with ⟨rfl, h1, blocks1, ⟨news, hg⟩, hnone, hnull, rfl⟩ |
    ⟨h1, l1, b, l2, b', rest, ⟨news, hg⟩, hserves, -, rfl, hcarved, ok', -⟩
  · rcases hg.first with ⟨rfl, rfl⟩ | ⟨hnews, hfirst⟩
    · obtain rfl : blocks1 = blocks := hg.list.trans (append_nil _)
      obtain ⟨-, hsame, -⟩ :=
        (ho.alloc (Heap.pagesNeeded (Word.alignUp n 8))).resolve_right fun hrun =>
          hrun.1.ne_zero hnull
      refine .refused rfl hnone hnull ⟨fun h0 => absurd rfl h0, fun _ => ⟨rfl, rfl⟩,
        fun _ => ⟨rfl, rfl⟩, fun _ k => ?_⟩
      exact congrArg (fun p : Pmm => p.bitmapTest k) hsame
    · obtain ⟨c, hc⟩ := exists_mem_of_ne_nil news hnews
      obtain ⟨page, hrun, rfl⟩ := hg.regions c hc
      refine .exhausted rfl hrun ?_ hfirst (hg.total_ne ok hnews)
      have hmem : ofPages page (Heap.pagesNeeded (Word.alignUp n 8)) ∈ blocks1 := by
        rw [hg.list]
        exact mem_append_right _ hc
      simpa using find?_eq_none.mp hnone _ hmem
  · have hbm : b ∈ l1 ++ b :: l2 := by simp
    obtain ⟨-, -, hhi⟩ := hg.owned.range hbm
    rw [hi_eq] at hhi
    obtain ⟨hge, hle⟩ := hcarved.size_ge hserves
    refine .served (w := b'.size) (hg.owned.payload_ne_zero hbm) ?_ (by omega) hge ?_
    · rw [UInt32.add_sub_cancel, ← hcarved.addr_eq]
      exact (ok'.repr.nodes b' (by simp)).size
    · rw [hg.list] at hbm
      rcases mem_append.mp hbm with hold | hnew
      · exact .inl ⟨b, hold, hserves⟩
      · rcases hg.first with ⟨-, rfl⟩ | ⟨-, hfirst⟩
        · cases hnew
        · exact .inr hfirst

/-! ### The sizes for which the contract holds -/

/-- The largest sizes are rounded up to 0. -/
theorem alignUp_eq_zero (hn : 0xFFFFFFF8 < n.toNat) : Word.alignUp n 8 = 0 := by
  have hlt := n.toNat_lt
  have hsum : (n + 8 - 1).toNat = n.toNat + 7 - 2 ^ 32 := by
    simp only [UInt32.toNat_sub, UInt32.toNat_add, show (8 : UInt32).toNat = 8 from rfl,
      show (1 : UInt32).toNat = 1 from rfl]
    omega
  apply UInt32.toNat_inj.mp
  rw [Word.alignUp, Word.toNat_and_not_mask (k := 3) _ rfl, hsum, UInt32.toNat_zero]
  omega

/-- The sizes before them are asked for in regions of one page. -/
theorem pagesNeeded_eq_one (hlo : 0xFFFFFFE8 < n.toNat) (hhi : n.toNat ≤ 0xFFFFFFF8) :
    Heap.pagesNeeded (Word.alignUp n 8) = 1 ∧ 2 ^ 27 ≤ (Word.alignUp n 8).toNat := by
  obtain ⟨hge, hlt⟩ := le_alignUp (n := n) (by omega)
  have h8 : (Word.alignUp n 8).toNat % 8 = 0 := Word.alignUp_mod (k := 3) n rfl
  refine ⟨UInt32.toNat_inj.mp ?_, by omega⟩
  rw [pagesNeeded_toNat]
  change _ = 1
  omega

namespace Outcome

/-- Up to `0xFFFFFFE8` the contract holds. -/
theorem contract_of_le (ho : Outcome h blocks n p h') (hn : n.toNat ≤ 0xFFFFFFE8) :
    KmallocContract h n p h' := by
  obtain ⟨hge, hlt⟩ := le_alignUp (n := n) (by omega)
  have h8 : (Word.alignUp n 8).toNat % 8 = 0 := Word.alignUp_mod (k := 3) n rfl
  cases ho with
  | refused _ _ _ hcontract => exact hcontract
  | exhausted _ hrun hserves =>
    rw [serves_ofPages (by omega) hrun] at hserves
    cases hserves
  | served hp hpayload _ hsize =>
    refine ⟨fun _ => ?_, fun h0 => absurd h0 hp, fun h0 => absurd h0 hp, fun h0 => absurd h0 hp⟩
    rw [hpayload]
    omega

/-- Then it holds when there is no page left. -/
theorem contract_iff_refused (ho : Outcome h blocks n p h') (hlo : 0xFFFFFFE8 < n.toNat)
    (hhi : n.toNat ≤ 0xFFFFFFF8) :
    KmallocContract h n p h' ↔ (h.pages.1.pmmAllocPages 1).1 = 0 := by
  obtain ⟨hcount, hlarge⟩ := pagesNeeded_eq_one hlo hhi
  cases ho with
  | refused _ _ hnull hcontract =>
    rw [hcount] at hnull
    exact ⟨fun _ => hnull, fun _ => hcontract⟩
  | exhausted hp _ _ hfirst htotal =>
    rw [hcount] at hfirst
    exact ⟨fun hc => absurd (hc.counters hp).1 htotal, fun h0 => absurd h0 hfirst⟩
  | served _ _ hsmall hsize => omega

/-- For the largest sizes it holds when there is no free block either. -/
theorem contract_iff_full (ho : Outcome h blocks n p h') (hn : 0xFFFFFFF8 < n.toNat) :
    KmallocContract h n p h' ↔
      (h.pages.1.pmmAllocPages 1).1 = 0 ∧ ∀ b ∈ blocks, b.free = false := by
  have hcount : Heap.pagesNeeded 0 = 1 := rfl
  have hserves : ∀ b : Block, b.Serves 0 = b.free := fun b => by
    rw [Bool.eq_iff_iff, serves_iff]
    exact and_iff_left (Nat.zero_le _)
  cases ho with
  | refused _ hnone hnull hcontract =>
    rw [alignUp_eq_zero hn] at hnone hnull
    refine ⟨fun _ => ⟨hnull, fun b hb => ?_⟩, fun _ => hcontract⟩
    rw [← hserves b]
    simpa using find?_eq_none.mp hnone b hb
  | exhausted _ _ hno =>
    rw [alignUp_eq_zero hn, hserves] at hno
    exact absurd hno (by simp [ofPages])
  | served hp hpayload hsmall _ hsource =>
    rw [alignUp_eq_zero hn, hcount] at hsource
    refine ⟨fun hc => ?_, ?_⟩
    · have hge := hc.payload hp
      rw [hpayload] at hge
      omega
    · rintro ⟨hnull, hfull⟩
      rcases hsource with ⟨b, hb, hfree⟩ | hfirst
      · rw [hserves, hfull b hb] at hfree
        cases hfree
      · exact absurd hnull hfirst

end Outcome

/-- No block on the list is free. -/
def NoFreeBlock (h : Traced) : Prop :=
  ∀ a, Listed h.mem h.head a → (header h.mem a).free = false

theorem Heap.Ok.noFreeBlock_iff (ok : h.Ok blocks) :
    NoFreeBlock h ↔ ∀ b ∈ blocks, b.free = false := by
  constructor
  · intro hfull b hb
    rw [← (ok.repr.nodes b hb).free]
    exact hfull b.addr ((ok.repr.listed_iff ok.placed.fits).mpr (mem_map_of_mem hb))
  · intro hfull a ha
    obtain ⟨b, hb, rfl⟩ := mem_map.mp ((ok.repr.listed_iff ok.placed.fits).mp ha)
    rw [(ok.repr.nodes b hb).free]
    exact hfull b hb

/-- **For which sizes `kmalloc` honours its contract**, in every reached state. -/
theorem kmalloc_contract_iff {image : KernelImage} {entries : List E820Entry} {p0 : Pmm}
    {live : List UInt32} (n : UInt32)
    (hreached : Reached (p0.pmmInitialize image.kernelEnd entries) h live) (hn : n ≠ 0) :
    HonoursContract h n ↔ n.toNat ≤ 0xFFFFFFE8 ∨
      ((h.pages.1.pmmAllocPages 1).1 = 0 ∧ (n.toNat ≤ 0xFFFFFFF8 ∨ NoFreeBlock h)) := by
  obtain ⟨blocks, hh, howned⟩ := hreached.owned
  obtain ⟨p, h', heq, ho⟩ := kmalloc_outcome hh.ok howned hn
  have hcontract : HonoursContract h n ↔ KmallocContract h n p h' := by
    constructor
    · rintro ⟨p', h1, heq', hc⟩
      obtain ⟨rfl, rfl⟩ : p' = p ∧ h1 = h' := by simpa using heq'.symm.trans heq
      exact hc
    · exact fun hc => ⟨p, h', heq, hc⟩
  rw [hcontract]
  by_cases hsmall : n.toNat ≤ 0xFFFFFFE8
  · exact iff_of_true (ho.contract_of_le hsmall) (.inl hsmall)
  by_cases hmiddle : n.toNat ≤ 0xFFFFFFF8
  · rw [ho.contract_iff_refused (by omega) hmiddle]
    simp only [hsmall, hmiddle, false_or, true_or, and_true]
  · rw [ho.contract_iff_full (by omega), hh.ok.noFreeBlock_iff]
    simp only [hsmall, hmiddle, false_or]

/-- **A size that wraps around.** The first page is free, and `kmalloc(0xFFFFFFFF)` returns its
payload with a block of size 0. -/
theorem kmalloc_contract_wraps : ∃ h, Reached holeStart h [] ∧
    (∃ h', h.kmalloc traced 0xFFFFFFFF = some (0x100018, h') ∧
      (header h'.mem 0x100000).size = 0) ∧ ¬ HonoursContract h 0xFFFFFFFF := by
  have heval : ((Heap.heapInitialize traced ⟨fun _ => 0⟩ (holeStart, [])).bind fun h =>
      (h.kmalloc traced 0xFFFFFFFF).map fun r => (r.1, (header r.2.mem 0x100000).size))
      = some (0x100018, 0) := by
    decide +kernel
  obtain ⟨h, hinit, hcall⟩ := Option.bind_eq_some_iff.mp heval
  obtain ⟨r, hr, hres⟩ := Option.map_eq_some_iff.mp hcall
  obtain ⟨hp, hsize⟩ : r.1 = 0x100018 ∧ (header r.2.mem 0x100000).size = 0 := by
    simpa only [Prod.mk.injEq] using hres
  refine ⟨h, .fresh hinit, ⟨r.2, by rw [hr, ← hp], hsize⟩, ?_⟩
  rintro ⟨p, h', heq, hc⟩
  obtain rfl : r = (p, h') := Option.some.inj (hr.symm.trans heq)
  obtain rfl : p = 0x100018 := hp
  have hpayload := hc.payload (by decide)
  rw [show (0x100018 : UInt32) - headerSize = 0x100000 by decide, hsize] at hpayload
  cases hpayload

/-- The first call on a fresh heap. -/
theorem kmalloc_contract_iff_holeStart : ∃ h, Reached holeStart h [] ∧ HonoursContract h 4096 := by
  have heval : (Heap.heapInitialize traced ⟨fun _ => 0⟩ (holeStart, [])).isSome = true := by
    decide +kernel
  obtain ⟨h, hinit⟩ := Option.isSome_iff_exists.mp heval
  have hreached : Reached holeStart h [] := .fresh hinit
  exact ⟨h, hreached, (@kmalloc_contract_iff _ smallImage holeMap _ _ 4096 hreached (by decide)).mpr
    (.inl (by decide))⟩

end MyOS
