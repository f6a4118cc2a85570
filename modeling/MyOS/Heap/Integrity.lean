import MyOS.Heap.Steps

/-!
# Integrity of the heap

Over every run of `kmalloc` and `kfree` the block list stays sound: blocks do not overlap, the links
are inverse to each other, the counters are the sums over the list, and every pointer that has been
handed out and not given back is the payload of its own block (`heap_integrity`). Between two calls
anything may happen to the memory outside the headers of the list. The page allocator may be any;
only it must not return a run that overlaps the list (`Grants`).

The invariant is `Held`: the list satisfies `Heap.Ok`, and each live pointer has a block in use.
`kmalloc` turns one free block into one in use, `kfree` does the reverse, and all else that they do
concerns free blocks only, so the list of the blocks in use, `inUse`, is what has to be followed.
-/

namespace MyOS

open Block List

variable {σ : Type} {P : PageSource σ} {h h' : Heap σ} {blocks l l1 l2 : List Block} {b : Block}

/-! ### The list as the code walks it -/

/-- The block at `a` is on the list that begins at `head`. -/
inductive Listed (m : Mem) (head : UInt32) : UInt32 → Prop
  | head : head ≠ 0 → Listed m head head
  | next {a : UInt32} : Listed m head a → (header m a).next ≠ 0 → Listed m head (header m a).next

variable {m : Mem} {size : UInt32} {b' : Block} {rest : List Block}

theorem listed_of_seg {head p x q : UInt32} (hfits : ∀ b ∈ blocks, b.Fits)
    (hseg : Links m p x (blocks.map Block.addr) q 0) (hx : blocks ≠ [] → Listed m head x)
    (hb : b ∈ blocks) :
    Listed m head b.addr := by
  induction blocks generalizing p x with
  | nil => cases hb
  | cons c l ih =>
    obtain ⟨rfl, -, hrest⟩ := hseg
    have hc := hx (cons_ne_nil _ _)
    rcases mem_cons.mp hb with rfl | hb
    · exact hc
    · refine ih (fun d hd => hfits d (mem_cons_of_mem _ hd)) hrest (fun hl => hc.next ?_) hb
      obtain ⟨d, l', rfl⟩ := exists_cons_of_ne_nil hl
      rw [show (header m c.addr).next = d.addr from hrest.1]
      exact (hfits d (by simp)).addr_ne_zero

/-- The walk meets exactly the blocks of the list. -/
theorem Represents.listed_iff {head a : UInt32} (hr : Represents m head blocks)
    (hfits : ∀ b ∈ blocks, b.Fits) : Listed m head a ↔ a ∈ blocks.map Block.addr := by
  obtain ⟨last, hseg⟩ := hr.links
  constructor
  · intro ha
    induction ha with
    | head h0 =>
      refine (hseg.first_mem fun hl => h0 ?_).1
      rw [hl] at hseg
      exact hseg.2
    | next _ hn ih => exact ((hseg.inverse ih).1 hn).1
  · intro ha
    obtain ⟨b, hb, rfl⟩ := mem_map.mp ha
    refine listed_of_seg hfits hseg (fun hl => ?_) hb
    have hx := (hseg.first_mem (fun hn => hl (map_eq_nil_iff.mp hn))).1
    obtain ⟨c, hc, hceq⟩ := mem_map.mp hx
    exact .head (hceq ▸ (hfits c hc).addr_ne_zero)

/-! ### Runs -/

/-- The pages that a request for `count` pages would get now lie outside the list. -/
def Grants (P : PageSource σ) (h : Heap σ) (count : UInt32) : Prop :=
  let page := (P.allocPages h.pages count).1
  page ≠ 0 → PageRun page count ∧ ∀ a, Listed h.mem h.head a →
    a.toNat + 24 + (header h.mem a).size.toNat ≤ page.toNat ∨
      page.toNat + count.toNat * 4096 ≤ a.toNat

/-- `HeapRun P h live`: a run of calls leads to `h`, with the pointers `live` handed out and not
given back, each with the size that was asked for. -/
inductive HeapRun (P : PageSource σ) : Heap σ → List (UInt32 × UInt32) → Prop
  | init {m : Mem} {pages : σ} {h : Heap σ} :
      ((P.allocPages pages 1).1 ≠ 0 → PageRun (P.allocPages pages 1).1 1) →
      Heap.heapInitialize P m pages = some h → HeapRun P h []
  | alloc {h h' : Heap σ} {live : List (UInt32 × UInt32)} {n p : UInt32} : HeapRun P h live →
      n.toNat < 2 ^ 31 → Grants P h (Heap.pagesNeeded (Word.alignUp n 8)) →
      h.kmalloc P n = some (p, h') → HeapRun P h' (if p = 0 then live else (p, n) :: live)
  | free {h h' : Heap σ} {live : List (UInt32 × UInt32)} {e : UInt32 × UInt32} : HeapRun P h live →
      e ∈ live → h.kfree P e.1 = some h' → HeapRun P h' (live.erase e)
  /-- The rest of the kernel writes anywhere but to the headers of the list. -/
  | write {h : Heap σ} {live : List (UInt32 × UInt32)} {m : Mem} : HeapRun P h live →
      (∀ a, Listed h.mem h.head a → ∀ k < 24, m (a.toNat + k) = h.mem (a.toNat + k)) →
      HeapRun P { h with mem := m } live
  /-- The rest of the kernel takes pages and gives them back. -/
  | pages {h : Heap σ} {live : List (UInt32 × UInt32)} (pages : σ) : HeapRun P h live →
      HeapRun P { h with pages := pages } live

/-! ### Blocks in use -/

/-- The blocks in use. -/
def inUse (blocks : List Block) : List Block := blocks.filter fun b => !b.free

theorem mem_inUse : b ∈ inUse blocks ↔ b ∈ blocks ∧ b.free = false := by
  simp [inUse]

@[simp] theorem inUse_append : inUse (l1 ++ l2) = inUse l1 ++ inUse l2 := filter_append ..

theorem inUse_cons_of_free (hb : b.free = true) : inUse (b :: l) = inUse l :=
  filter_cons_of_neg (by simp [hb])

theorem inUse_cons_of_used (hb : b.free = false) : inUse (b :: l) = b :: inUse l :=
  filter_cons_of_pos (by simp [hb])

/-- Merging free blocks keeps the blocks in use. -/
theorem Merged.inUse_eq {l' : List Block} (hm : Merged l l') : inUse l' = inUse l := by
  induction hm with
  | refl => rfl
  | @step l1 l2 b c _ hb hc _ ih =>
    rw [← ih, inUse_append, inUse_append,
      inUse_cons_of_free (show (b.absorb c).free = true from hb),
      inUse_cons_of_free hb, inUse_cons_of_free hc]

/-- So does releasing a free one. -/
theorem Freed.inUse_eq {pages : σ} (hf : Freed P pages l h' blocks) : inUse blocks = inUse l := by
  rcases hf with ⟨hm, -⟩ | ⟨k1, c, k2, hm, rfl, hc, -⟩
  · exact hm.inUse_eq
  · rw [← hm.inUse_eq, inUse_append, inUse_append, inUse_cons_of_free hc]

/-- Carving puts one more block in use. -/
theorem Carved.inUse_eq (hc : Carved m size b b' rest) :
    inUse (b' :: (rest ++ l)) = b' :: inUse l := by
  cases hc with
  | whole => exact inUse_cons_of_used rfl
  | split =>
    refine (inUse_cons_of_used rfl).trans ?_
    rw [singleton_append, inUse_cons_of_free rfl]

theorem Carved.addr_eq (hc : Carved m size b b' rest) : b'.addr = b.addr := by
  cases hc <;> rfl

theorem Carved.size_le (hc : Carved m size b b' rest) (hsize : size.toNat ≤ b.size.toNat) :
    size.toNat ≤ b'.size.toNat := by
  cases hc
  · exact hsize
  · exact le_refl _

/-! ### The invariant -/

/-- The heap holds the list `blocks`, and each live pointer is the payload of a block in use. -/
structure Held (h : Heap σ) (live : List (UInt32 × UInt32)) (blocks : List Block) : Prop where
  ok : h.Ok blocks
  nodup : (live.map Prod.fst).Nodup
  block : ∀ e ∈ live, e.1 ≠ 0 ∧
    ∃ b ∈ inUse blocks, b.addr + headerSize = e.1 ∧ e.2.toNat ≤ b.size.toNat

section Held

variable {live : List (UInt32 × UInt32)} {n p : UInt32}

variable {m : Mem} {size : UInt32} {e : UInt32 × UInt32}

theorem Held.init {pages : σ}
    (hrun : (P.allocPages pages 1).1 ≠ 0 → PageRun (P.allocPages pages 1).1 1)
    (hinit : Heap.heapInitialize P m pages = some h) : ∃ blocks, Held h [] blocks := by
  obtain ⟨h', heq, -, hres⟩ := Heap.Ok.heapInitialize m pages hrun
  obtain rfl : h' = h := by simpa using heq.symm.trans hinit
  have hheld : ∀ blocks, h'.Ok blocks → Held h' [] blocks := fun blocks ok =>
    ⟨ok, nodup_nil, fun e he => absurd he not_mem_nil⟩
  rcases hres with ⟨-, -, ok⟩ | ⟨-, ok, -⟩
  · exact ⟨_, hheld _ ok⟩
  · exact ⟨_, hheld _ ok⟩

/-- What is in use stays in use: the list may change around the blocks of the live pointers. -/
theorem Held.of_inUse {blocks' : List Block} (hh : Held h live blocks) (ok : h'.Ok blocks')
    (hsub : ∀ b ∈ inUse blocks, b ∈ inUse blocks') : Held h' live blocks' := by
  refine ⟨ok, hh.nodup, fun e he => ?_⟩
  obtain ⟨h0, b, hb, haddr, hsize⟩ := hh.block e he
  exact ⟨h0, b, hsub b hb, haddr, hsize⟩

/-- The request, rounded up to a multiple of 8. -/
theorem le_alignUp (hn : n.toNat + 8 ≤ 2 ^ 32) :
    n.toNat ≤ (Word.alignUp n 8).toNat ∧ (Word.alignUp n 8).toNat < n.toNat + 8 := by
  rw [Word.alignUp_toNat (k := 3) n rfl (by omega)]
  omega

theorem pagesNeeded_toNat (size : UInt32) :
    (Heap.pagesNeeded size).toNat = (size.toNat + 4119) % 2 ^ 32 / 4096 := by
  have hlt := size.toNat_lt
  unfold Heap.pagesNeeded
  simp only [UInt32.toNat_div, UInt32.toNat_sub, UInt32.toNat_add, headerSize_toNat,
    show pageSize.toNat = 4096 from rfl, show (1 : UInt32).toNat = 1 from rfl]
  omega

/-- A region of the size that `kmalloc` asks for serves the request. Where the sum that gives the
number of pages wraps around, that number is 0. -/
theorem serves_ofPages {page : UInt32} (hsize : size.toNat + 24 ≤ 2 ^ 32)
    (hrun : PageRun page (Heap.pagesNeeded size)) :
    (ofPages page (Heap.pagesNeeded size)).Serves size = true := by
  have hcount := pagesNeeded_toNat size
  have hpos := hrun.count_pos
  have hle : size ≤ (ofPages page (Heap.pagesNeeded size)).size := by
    rw [UInt32.le_iff_toNat_le, hrun.size_eq, hcount]
    omega
  simp only [Block.Serves, ge_iff_le, hle, decide_true, Bool.and_true]
  rfl

/-- While `kmalloc` looks for a block, the blocks in use stay; a region is added only once. -/
theorem grows_held (ok : h.Ok blocks) (hsize : size.toNat ≤ 2 ^ 31)
    (hgrants : Grants P h (Heap.pagesNeeded size)) :
    Grows P size fun h1 blocks1 => h1.Ok blocks1 ∧ inUse blocks1 = inUse blocks ∧
      ((h1.pages = h.pages ∧ blocks1 = blocks) ∨ ∃ b ∈ blocks1, b.Serves size = true) := by
  -- without a block that serves the request, no region has been added yet
  have hfresh : ∀ {h1 : Heap σ} {blocks1 : List Block},
      ((h1.pages = h.pages ∧ blocks1 = blocks) ∨ ∃ b ∈ blocks1, b.Serves size = true) →
      blocks1.find? (Block.Serves size) = none → h1.pages = h.pages ∧ blocks1 = blocks := by
    rintro h1 blocks1 (hsame | ⟨b, hb, hserves⟩) hnone
    · exact hsame
    · exact absurd hserves (List.find?_eq_none.mp hnone b hb)
  have hrun : ∀ {h1 : Heap σ} {blocks1 : List Block}, h1.pages = h.pages ∧ blocks1 = blocks →
      (P.allocPages h1.pages (Heap.pagesNeeded size)).1 ≠ 0 →
      PageRun (P.allocPages h1.pages (Heap.pagesNeeded size)).1 (Heap.pagesNeeded size) ∧
      ∀ b ∈ blocks1, b.Disjoint
        (ofPages (P.allocPages h1.pages (Heap.pagesNeeded size)).1 (Heap.pagesNeeded size)) := by
    rintro h1 blocks1 ⟨hpages, rfl⟩ hne
    rw [hpages] at hne ⊢
    obtain ⟨hpr, hdis⟩ := hgrants hne
    refine ⟨hpr, fun b hb => ?_⟩
    have hl := hdis b.addr ((ok.repr.listed_iff ok.placed.fits).mpr (mem_map_of_mem hb))
    rw [(ok.repr.nodes b hb).size] at hl
    unfold Block.Disjoint
    rw [hpr.hi_eq]
    exact hl
  refine ⟨fun hI => hI.1, fun hI hnone hne => hrun (hfresh hI.2.2 hnone) hne, ?_⟩
  intro h1 h2 blocks1 page hI hnone hne halloc ok2 _
  have hpr := (hrun (hfresh hI.2.2 hnone) (by rw [halloc]; exact hne)).1
  rw [halloc] at hpr
  refine ⟨ok2, ?_, .inr ⟨_, mem_append_right _ (mem_singleton_self _),
    serves_ofPages (by omega) hpr⟩⟩
  rw [inUse_append, inUse_cons_of_free rfl, ← hI.2.1]
  exact append_nil _

/-- A block is taken for the pointer to its payload: the other live pointers have other blocks. -/
theorem Held.take {h1 : Heap σ} {b' : Block} {rest : List Block} (hh : Held h live blocks)
    (ok1 : h1.Ok (l1 ++ b :: l2)) (hfree : b.free = true)
    (huse : inUse (l1 ++ b :: l2) = inUse blocks) (hcarved : Carved m size b b' rest)
    (ok' : h'.Ok (l1 ++ b' :: (rest ++ l2))) (hp0 : b.addr + headerSize ≠ 0)
    (hn : n.toNat ≤ b'.size.toNat) :
    Held h' ((b.addr + headerSize, n) :: live) (l1 ++ b' :: (rest ++ l2)) := by
  rw [inUse_append, inUse_cons_of_free hfree] at huse
  have huse' : inUse (l1 ++ b' :: (rest ++ l2)) = inUse l1 ++ b' :: inUse l2 := by
    rw [inUse_append, hcarved.inUse_eq]
  have hheld := hh.of_inUse ok' fun c hc => by
    rw [← huse] at hc
    rw [huse']
    exact mem_of_mem_around hc
  refine ⟨ok', nodup_cons.mpr ⟨fun hmem => ?_, hh.nodup⟩, fun e he => ?_⟩
  · obtain ⟨e, he, heq⟩ := mem_map.mp hmem
    obtain ⟨-, c, hc, haddr, -⟩ := hh.block e he
    rw [← huse, ← inUse_append] at hc
    refine (ok1.placed.disjoint_of_mem (mem_inUse.mp hc).1).addr_ne ?_
    exact (UInt32.add_left_inj headerSize).mp (heq.symm.trans haddr.symm)
  · rcases mem_cons.mp he with rfl | he
    · refine ⟨hp0, b', ?_, by rw [hcarved.addr_eq], hn⟩
      rw [huse']
      exact mem_append_right _ mem_cons_self
    · exact hheld.block e he

/-- A block is given back: the other live pointers keep theirs. -/
theorem Held.give {blocks' : List Block} (hh : Held h live (l1 ++ b :: l2)) (he : e ∈ live)
    (haddr : b.addr + headerSize = e.1) (ok' : h'.Ok blocks')
    (huse : inUse blocks' = inUse (l1 ++ { b with free := true } :: l2)) :
    Held h' (live.erase e) blocks' := by
  refine ⟨ok', hh.nodup.sublist (erase_sublist.map _), fun e' he' => ?_⟩
  obtain ⟨h0, c, hc, haddr', hsize⟩ := hh.block e' (mem_of_mem_erase he')
  have hne : c ≠ b := by
    rintro rfl
    have hsame := inj_on_of_nodup_map hh.nodup (mem_of_mem_erase he') he (haddr'.symm.trans haddr)
    subst hsame
    exact (List.Nodup.not_mem_erase (hh.nodup.of_map _)) he'
  refine ⟨h0, c, ?_, haddr', hsize⟩
  rw [huse, inUse_append, inUse_cons_of_free rfl, ← inUse_append]
  obtain ⟨hcm, hcu⟩ := mem_inUse.mp hc
  refine mem_inUse.mpr ⟨?_, hcu⟩
  rcases mem_append.mp hcm with hcm | hcm
  · exact mem_append_left _ hcm
  · exact mem_append_right _ ((mem_cons.mp hcm).resolve_left hne)

section

variable (hh : Held h live blocks)
include hh

/-- The block of a live pointer, within the list. -/
theorem Held.find (he : e ∈ live) :
    ∃ l1 b l2, blocks = l1 ++ b :: l2 ∧ b.free = false ∧ b.addr + headerSize = e.1 ∧
      b.addr + headerSize ≠ 0 := by
  obtain ⟨h0, b, hb, haddr, -⟩ := hh.block e he
  obtain ⟨hmem, hused⟩ := mem_inUse.mp hb
  obtain ⟨l1, l2, rfl⟩ := append_of_mem hmem
  exact ⟨l1, b, l2, rfl, hused, haddr, haddr ▸ h0⟩

/-- `kmalloc` returns, and keeps the invariant. -/
theorem Held.kmalloc (hn : n.toNat < 2 ^ 31)
    (hgrants : Grants P h (Heap.pagesNeeded (Word.alignUp n 8))) :
    ∃ p h', h.kmalloc P n = some (p, h') ∧
      ∃ blocks', Held h' (if p = 0 then live else (p, n) :: live) blocks' := by
  obtain ⟨hle, hlt⟩ := le_alignUp (n := n) (by omega)
  have h8 : (Word.alignUp n 8).toNat % 8 = 0 := Word.alignUp_mod (k := 3) n rfl
  by_cases hn0 : n = 0
  · exact ⟨0, h, if_pos hn0, blocks, by rw [if_pos rfl]; exact hh⟩
  obtain ⟨p, h', heq, hres⟩ := (grows_held hh.ok (by omega) hgrants).kmalloc
    ⟨hh.ok, rfl, .inl ⟨rfl, rfl⟩⟩ hn0
  refine ⟨p, h', heq, ?_⟩
  rcases hres with ⟨rfl, h1, blocks1, ⟨ok1, huse, -⟩, -, -, rfl⟩ |
    ⟨h1, l1, b, l2, b', rest, ⟨ok1, huse, -⟩, hserves, -, rfl, hcarved, ok', -⟩
  · rw [if_pos rfl]
    exact ⟨blocks1, hh.of_inUse (ok1.withPages _) (fun b hb => huse ▸ hb)⟩
  · obtain ⟨hfree, hbsize⟩ := serves_iff.mp hserves
    have hp0 : b.addr + headerSize ≠ 0 := by
      have hbound := ok1.placed.fits_self.bound
      have hnpos : n.toNat ≠ 0 := fun hz => hn0 (UInt32.toNat_inj.mp hz)
      rw [hi_eq, lo] at hbound
      intro hz
      have hz := congrArg UInt32.toNat hz
      rw [UInt32.toNat_add, headerSize_toNat, UInt32.toNat_zero] at hz
      omega
    rw [if_neg hp0]
    exact ⟨_, hh.take ok1 hfree huse hcarved ok' hp0 (le_trans hle (hcarved.size_le hbsize))⟩

/-- `kfree` on a live pointer returns, and keeps the invariant. -/
theorem Held.kfree (he : e ∈ live) :
    ∃ h' blocks', h.kfree P e.1 = some h' ∧ Held h' (live.erase e) blocks' ∧
      ∃ l1 b l2, blocks = l1 ++ b :: l2 ∧ Placed (l1 ++ { b with free := true } :: l2) ∧
        Freed P h.pages (l1 ++ { b with free := true } :: l2) h' blocks' := by
  obtain ⟨l1, b, l2, rfl, hused, haddr, h0⟩ := hh.find he
  obtain ⟨h', blocks', heq, ok', hfreed⟩ := hh.ok.kfree (P := P) hused h0
  exact ⟨h', blocks', haddr ▸ heq, hh.give he haddr ok' hfreed.inUse_eq, l1, b, l2, rfl,
    (hh.ok.give hused).placed, hfreed⟩

/-- Writes outside the headers of the list keep the invariant. -/
theorem Held.write
    (hw : ∀ a, Listed h.mem h.head a → ∀ k < 24, m (a.toNat + k) = h.mem (a.toNat + k)) :
    Held { h with mem := m } live blocks := by
  have ok := hh.ok
  refine ⟨ok.write fun b hb => ?_, hh.nodup, hh.block⟩
  exact header_congr (hw _ ((ok.repr.listed_iff ok.placed.fits).mpr (mem_map_of_mem hb)))

end

/-- The invariant holds along every run. -/
theorem HeapRun.held (hrun : HeapRun P h live) : ∃ blocks, Held h live blocks := by
  induction hrun with
  | init hpages hinit => exact Held.init hpages hinit
  | alloc _ hn hgrants hcall ih =>
    obtain ⟨blocks, hh⟩ := ih
    obtain ⟨p', h', heq, hres⟩ := hh.kmalloc hn hgrants
    obtain ⟨rfl, rfl⟩ : p' = _ ∧ h' = _ := by simpa using heq.symm.trans hcall
    exact hres
  | free _ he hcall ih =>
    obtain ⟨blocks, hh⟩ := ih
    obtain ⟨h', blocks', heq, hh', -⟩ := hh.kfree (P := P) he
    obtain rfl : h' = _ := by simpa using heq.symm.trans hcall
    exact ⟨blocks', hh'⟩
  | write _ hw ih =>
    obtain ⟨blocks, hh⟩ := ih
    exact ⟨blocks, hh.write hw⟩
  | pages pages _ ih =>
    obtain ⟨blocks, hh⟩ := ih
    exact ⟨blocks, hh.ok.withPages pages, hh.nodup, hh.block⟩

end Held

/-! ### The result -/

/-- What the list of a heap with the pointers `live` handed out satisfies. -/
structure Integrity (P : PageSource σ) (h : Heap σ) (live : List (UInt32 × UInt32))
    (blocks : List Block) : Prop where
  /-- `blocks` is the list as the code walks it, each block once,
    with the contents of its header. -/
  listed : ∀ a, Listed h.mem h.head a ↔ a ∈ blocks.map Block.addr
  addr_nodup : (blocks.map Block.addr).Nodup
  headers : ∀ b ∈ blocks, Describes (header h.mem b.addr) b
  disjoint : blocks.Pairwise Block.Disjoint
  /-- Different live pointers, each the payload of exactly one block, which is in use. -/
  live_nodup : (live.map Prod.fst).Nodup
  live_block : ∀ e ∈ live, e.1.toNat % 8 = 0 ∧ ∃ b ∈ blocks, b.free = false ∧
    e.1 = b.addr + headerSize ∧ e.2.toNat ≤ b.size.toNat ∧
    ∀ c ∈ blocks, e.1 = c.addr + headerSize → c = b
  next_prev : ∀ a, Listed h.mem h.head a → (header h.mem a).next ≠ 0 →
    Listed h.mem h.head (header h.mem a).next ∧ (header h.mem (header h.mem a).next).prev = a
  prev_next : ∀ a, Listed h.mem h.head a → (header h.mem a).prev ≠ 0 →
    Listed h.mem h.head (header h.mem a).prev ∧ (header h.mem (header h.mem a).prev).next = a
  total : h.total.toNat = (blocks.map fun b => b.size.toNat).sum
  used : h.used.toNat = ((blocks.filter fun b => !b.free).map fun b => b.size.toNat).sum
  free_bytes : h.used ≤ h.total ∧ h.heapFreeBytes.toNat = h.total.toNat - h.used.toNat
  /-- The next call returns. -/
  kmalloc_returns : ∀ n : UInt32, n.toNat < 2 ^ 31 →
    Grants P h (Heap.pagesNeeded (Word.alignUp n 8)) → (h.kmalloc P n).isSome
  kfree_returns : ∀ e ∈ live, (h.kfree P e.1).isSome

theorem usedSize_eq (blocks : List Block) :
    usedSize blocks = ((blocks.filter fun b => !b.free).map fun b => b.size.toNat).sum := by
  induction blocks with
  | nil => rfl
  | cons b l ih =>
    by_cases hb : b.free = true
    · rw [usedSize_cons, usedBytes_of_free hb, ih, filter_cons_of_neg (by simp [hb])]
      omega
    · have hb : b.free = false := by simpa using hb
      rw [usedSize_cons, usedBytes_of_inUse hb, ih, filter_cons_of_pos (by simp [hb])]
      rfl

/-- Every clause follows from the list of blocks that the heap stands for. -/
theorem Held.integrity {live : List (UInt32 × UInt32)} (hh : Held h live blocks) :
    Integrity P h live blocks where
  listed a := hh.ok.repr.listed_iff hh.ok.placed.fits
  addr_nodup := hh.ok.placed.nodup
  headers := hh.ok.repr.nodes
  disjoint := hh.ok.placed.disjoint
  live_nodup := hh.nodup
  live_block := by
    intro e he
    obtain ⟨h0, b, hb, haddr, hsize⟩ := hh.block e he
    obtain ⟨hmem, hused⟩ := mem_inUse.mp hb
    have hfits := hh.ok.placed.fits b hmem
    refine ⟨?_, b, hmem, hused, haddr.symm, hsize, fun c hc heq => ?_⟩
    · have haligned := hfits.aligned
      rw [lo] at haligned
      rw [← haddr, UInt32.toNat_add, headerSize_toNat]
      omega
    · refine inj_on_of_nodup_map hh.ok.placed.nodup hc hmem ?_
      exact (UInt32.add_left_inj headerSize).mp (heq.symm.trans haddr.symm)
  next_prev := by
    intro a ha hn
    obtain ⟨last, hseg⟩ := hh.ok.repr.links
    have hiff := fun {a} => hh.ok.repr.listed_iff (a := a) hh.ok.placed.fits
    obtain ⟨hmem, hprev⟩ := (hseg.inverse (hiff.mp ha)).1 hn
    exact ⟨hiff.mpr hmem, hprev⟩
  prev_next := by
    intro a ha hp
    obtain ⟨last, hseg⟩ := hh.ok.repr.links
    have hiff := fun {a} => hh.ok.repr.listed_iff (a := a) hh.ok.placed.fits
    obtain ⟨hmem, hnext⟩ := (hseg.inverse (hiff.mp ha)).2 hp
    exact ⟨hiff.mpr hmem, hnext⟩
  total := hh.ok.total
  used := hh.ok.used.trans (usedSize_eq blocks)
  free_bytes := by
    have hle : h.used.toNat ≤ h.total.toNat := by
      rw [hh.ok.used, hh.ok.total]
      exact usedSize_le_totalSize blocks
    refine ⟨UInt32.le_iff_toNat_le.mpr hle, ?_⟩
    have := h.total.toNat_lt
    rw [Heap.heapFreeBytes, UInt32.toNat_sub]
    omega
  kmalloc_returns n hn hgrants := by
    obtain ⟨p, h', heq, -⟩ := hh.kmalloc hn hgrants
    rw [heq]
    rfl
  kfree_returns e he := by
    obtain ⟨h', -, heq, -⟩ := hh.kfree (P := P) he
    rw [heq]
    rfl

/-- **Integrity of the heap over whole runs.** -/
theorem heap_integrity {live : List (UInt32 × UInt32)} (hrun : HeapRun P h live) :
    ∃ blocks, Integrity P h live blocks := by
  obtain ⟨blocks, hh⟩ := hrun.held
  exact ⟨blocks, hh.integrity⟩

/-- A page allocator with one page. -/
def onePage : PageSource Bool :=
  ⟨fun taken _ => (if taken then 0 else 0x100000, true), fun taken _ _ => taken⟩

theorem onePage_pageRun : PageRun 0x100000 1 := ⟨by decide, by decide, by decide, by decide⟩

/-- Two blocks are cut from the only page, and the first one is given back. -/
theorem heap_integrity_onePage : ∃ h1 h, HeapRun onePage h1 [(0x100038, 16), (0x100018, 8)] ∧
    h1.kfree onePage 0x100018 = some h ∧ HeapRun onePage h [(0x100038, 16)] ∧
    ∃ blocks, Integrity onePage h [(0x100038, 16)] blocks := by
  have heval : ((Heap.heapInitialize onePage ⟨fun _ => 0⟩ false).bind fun h =>
      (h.kmalloc onePage 8).bind fun r => (r.2.kmalloc onePage 16).bind fun r' =>
        (r'.2.kfree onePage 0x100018).map fun _ => (h.pages, r.1, r.2.pages, r'.1))
      = some (true, 0x100018, true, 0x100038) := by
    decide +kernel
  obtain ⟨h, hinit, heval⟩ := Option.bind_eq_some_iff.mp heval
  obtain ⟨⟨p, h1⟩, hfirst, heval⟩ := Option.bind_eq_some_iff.mp heval
  obtain ⟨⟨p', h2⟩, hsecond, heval⟩ := Option.bind_eq_some_iff.mp heval
  obtain ⟨h3, hfree, hres⟩ := Option.map_eq_some_iff.mp heval
  obtain ⟨hpages, rfl, hpages1, rfl⟩ : _ ∧ p = _ ∧ _ ∧ p' = _ := by
    simpa only [Prod.mk.injEq] using hres
  -- the page is taken, so there is nothing more to be granted
  have hgrants : ∀ {g : Heap Bool} {count}, g.pages = true → Grants onePage g count :=
    fun hg hne => absurd (by simp only [onePage, hg, if_true]) hne
  have hpage : (onePage.allocPages false 1).1 ≠ 0 → PageRun (onePage.allocPages false 1).1 1 :=
    fun _ => onePage_pageRun
  have hrun : HeapRun onePage h [] := .init hpage hinit
  have hrun1 : HeapRun onePage h1 [(0x100018, 8)] := hrun.alloc (by decide) (hgrants hpages) hfirst
  have hrun2 : HeapRun onePage h2 [(0x100038, 16), (0x100018, 8)] :=
    hrun1.alloc (by decide) (hgrants hpages1) hsecond
  have hrun3 : HeapRun onePage h3 [(0x100038, 16)] :=
    hrun2.free (e := (0x100018, 8)) (by decide) hfree
  exact ⟨h2, h3, hrun2, hfree, hrun3, heap_integrity hrun3⟩

end MyOS
