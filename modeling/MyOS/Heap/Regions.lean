import MyOS.Heap.Pages

/-!
# The regions of the heap

A region is what one call of `pmm_alloc_pages` gave to the heap. Only the first header of one
remembers its page count, and `release_whole_region_if_possible` takes a free block for a whole
region when its size matches the count in its own header.

`RegionBlocks` says when that guess is right: the blocks of the region lie in it without a gap
(`Tiles`), only the first of them carries a page count (`Counts`), and no two free ones are
neighbours (`NoFreePair`). Then a free block passes the test exactly when it is the only block of
its region (`RegionBlocks.release_iff`), and a call of `kfree` that merges within the region keeps
all three or leaves one free block (`freeBlock_region`). `Tiled` says it of the whole list.
-/

namespace MyOS

open Block Pmm List

variable {blocks l l1 l2 s s1 s2 k : List Block} {b b' c e t : Block} {a y z : ℕ}

/-! ### Lists of blocks without gaps -/

/-- The blocks lie one behind the other, from `a` to `z`. -/
def Tiles (a z : ℕ) : List Block → Prop
  | [] => a = z
  | b :: l => b.lo = a ∧ Tiles b.hi z l

theorem tiles_append : Tiles a z (l1 ++ l2) ↔ ∃ y, Tiles a y l1 ∧ Tiles y z l2 := by
  induction l1 generalizing a with
  | nil => simp [Tiles]
  | cons b l ih =>
    rw [cons_append, Tiles, ih]
    simp only [Tiles, and_assoc, exists_and_left]

theorem tiles_mid : Tiles a z (s1 ++ b :: s2) ↔ Tiles a b.lo s1 ∧ Tiles b.hi z s2 := by
  rw [tiles_append]
  constructor
  · rintro ⟨y, h1, rfl, h2⟩
    exact ⟨h1, h2⟩
  · exact fun ⟨h1, h2⟩ => ⟨b.lo, h1, rfl, h2⟩

theorem Tiles.le (h : Tiles a z l) : a ≤ z := by
  induction l generalizing a with
  | nil => exact le_of_eq h
  | cons b l ih =>
    have := ih h.2
    have := hi_eq b
    have := h.1
    omega

theorem Tiles.eq_nil (h : Tiles a a l) : l = [] := by
  cases l with
  | nil => rfl
  | cons b l =>
    have := h.2.le
    have := hi_eq b
    have := h.1
    omega

/-- Every byte between belongs to a block. -/
theorem Tiles.cover {x : ℕ} (h : Tiles a z l) (hlo : a ≤ x) (hhi : x < z) :
    ∃ b ∈ l, b.lo ≤ x ∧ x < b.hi := by
  induction l generalizing a with
  | nil =>
    have heq : a = z := h
    omega
  | cons b l ih =>
    obtain ⟨hb, hl⟩ := h
    by_cases hx : x < b.hi
    · exact ⟨b, mem_cons_self, by omega, hx⟩
    · obtain ⟨c, hc, hcx⟩ := ih hl (by omega)
      exact ⟨c, mem_cons_of_mem _ hc, hcx⟩

theorem Tiles.bounds (h : Tiles a z l) (hb : b ∈ l) : a ≤ b.lo ∧ b.hi ≤ z := by
  obtain ⟨s1, s2, rfl⟩ := append_of_mem hb
  obtain ⟨h1, h2⟩ := tiles_mid.mp h
  exact ⟨h1.le, h2.le⟩

/-! ### The blocks of a region -/

/-- No two neighbours are free. -/
def NoFreePair (l : List Block) : Prop := l.IsChain fun b c => ¬ (b.free = true ∧ c.free = true)

/-- The page count of the first block is `w`, and those of the others have no say. -/
def Counts (w : UInt32) : List Block → Prop
  | [] => False
  | b :: l => b.pageCount = w ∧ ∀ c ∈ l, c.pageCount.toNat % 2 ^ 20 = 0

/-- The blocks of the region of `r.2` pages from `r.1` on: they tile it, the first one has the page
count of the region, and free neighbours have been merged. -/
structure RegionBlocks (r : UInt32 × UInt32) (seg : List Block) : Prop where
  run : PageRun r.1 r.2
  tiles : Tiles r.1.toNat (r.1.toNat + r.2.toNat * 4096) seg
  counts : Counts r.2 seg
  pairs : NoFreePair seg

theorem noFreePair_mid : NoFreePair (s1 ++ b :: s2) ↔ NoFreePair s1 ∧ NoFreePair s2 ∧
    (∀ x ∈ s1.getLast?, ¬ (x.free = true ∧ b.free = true)) ∧
    ∀ y ∈ s2.head?, ¬ (b.free = true ∧ y.free = true) := by
  unfold NoFreePair
  rw [isChain_append, isChain_cons]
  simp only [List.head?_cons, Option.mem_some_iff, forall_eq']
  tauto

/-- A list of free blocks without free neighbours has at most one element. -/
theorem NoFreePair.eq_nil_of_head (h : NoFreePair (b :: l)) (hb : b.free = true)
    (hfree : ∀ c ∈ l, c.free = true) : l = [] := by
  cases l with
  | nil => rfl
  | cons c l =>
    have hpair := (isChain_cons_cons.mp h).1
    exact absurd ⟨hb, hfree c mem_cons_self⟩ hpair

theorem Counts.replace {w : UInt32} (h : Counts w (s1 ++ b :: s2))
    (hcount : b'.pageCount = b.pageCount) (hs : ∀ c ∈ s, c ∈ s2 ∨ c.pageCount.toNat % 2 ^ 20 = 0) :
    Counts w (s1 ++ b' :: s) := by
  cases s1 with
  | nil =>
    exact ⟨hcount.trans h.1, fun c hc => (hs c hc).elim (h.2 c) id⟩
  | cons d s1 =>
    obtain ⟨h1, h2⟩ := forall_mem_append.mp h.2
    rw [forall_mem_cons] at h2
    refine ⟨h.1, forall_mem_append.mpr ⟨h1, forall_mem_cons.mpr ⟨hcount ▸ h2.1, ?_⟩⟩⟩
    exact fun c hc => (hs c hc).elim (h2.2 c) id

namespace RegionBlocks

variable {r : UInt32 × UInt32}

/-- A new region. -/
theorem ofPages {page count : UInt32} (hrun : PageRun page count) :
    RegionBlocks (page, count) [ofPages page count] :=
  ⟨hrun, ⟨rfl, hrun.hi_eq⟩, ⟨rfl, by simp⟩, isChain_singleton _⟩

/-- `kmalloc` carves a block out of a free one. -/
theorem carve {m : Mem} {size : UInt32} {rest : List Block} (h : RegionBlocks r (s1 ++ b :: s2))
    (hfits : b.Fits) (hfree : b.free = true) (hc : Carved m size b b' rest)
    (hrest : ∀ c ∈ rest, c.pageCount.toNat % 2 ^ 20 = 0) :
    RegionBlocks r (s1 ++ b' :: (rest ++ s2)) := by
  obtain ⟨h1, h2⟩ := tiles_mid.mp h.tiles
  obtain ⟨p1, p2, -, hnext⟩ := noFreePair_mid.mp h.pairs
  have hcounts : Counts r.2 (s1 ++ b' :: (rest ++ s2)) := by
    refine h.counts.replace (by cases hc <;> rfl) fun c hcm => ?_
    rcases mem_append.mp hcm with hcm | hcm
    · exact .inr (hrest c hcm)
    · exact .inl hcm
  cases hc with
  | whole =>
    exact ⟨h.run, tiles_mid.mpr ⟨h1, h2⟩, hcounts, noFreePair_mid.mpr ⟨p1, p2, by simp, by simp⟩⟩
  | split hsize =>
    have hfit : size.toNat + 24 ≤ b.size.toNat := by omega
    refine ⟨h.run, tiles_mid.mpr ⟨h1, ?_⟩, hcounts, noFreePair_mid.mpr ⟨p1, ?_, by simp, by simp⟩⟩
    · refine ⟨rest_lo hfits hfit, ?_⟩
      rw [rest_hi hfits hfit]
      exact h2
    · refine isChain_cons.mpr ⟨fun y hy hand => ?_, p2⟩
      exact hnext y hy ⟨hfree, hand.2⟩

end RegionBlocks

/-- `coalesce_next` inside a region: the block takes in its free successor. -/
theorem mergeNext_region (hb : b.Fits) (hfits : ∀ c ∈ s, c.Fits) (hfree : b.free = true)
    (ht : Tiles b.hi z s) (hp : NoFreePair s) :
    ∃ b2 s', (∀ l, (s = [] → ∀ c k, l = c :: k → ¬ (c.free = true ∧ b.hi = c.lo)) →
        mergeNext b (s ++ l) = b2 :: (s' ++ l)) ∧
      b2.addr = b.addr ∧ b2.free = true ∧ b2.pageCount = b.pageCount ∧ b2.Fits ∧
      Tiles b2.hi z s' ∧ NoFreePair s' ∧ (∀ y ∈ s'.head?, y.free = false) ∧ (∀ c ∈ s', c ∈ s) ∧
      ((∀ c ∈ s, c.free = true) → s' = []) := by
  cases s with
  | nil =>
    refine ⟨b, [], fun l hl => ?_, rfl, hfree, rfl, hb, ht, hp, by simp, by simp, fun _ => rfl⟩
    rw [nil_append]
    exact mergeNext_of_not (hl rfl)
  | cons c s =>
    obtain ⟨hlo, ht'⟩ := ht
    have hc := hfits c mem_cons_self
    by_cases hcf : c.free = true
    · refine ⟨b.absorb c, s, fun l _ => if_pos ⟨hcf, hlo.symm⟩, rfl, hfree, rfl,
        hb.absorb hc hlo.symm, ?_, ?_, fun y hy => ?_, fun d hd => mem_cons_of_mem _ hd,
        fun hall => hp.eq_nil_of_head hcf fun d hd => hall d (mem_cons_of_mem _ hd)⟩
      · rw [absorb_hi hb hc hlo.symm]
        exact ht'
      · exact (isChain_cons.mp hp).2
      · have := (isChain_cons.mp hp).1 y hy
        simpa [hcf] using this
    · refine ⟨b, c :: s, fun l _ => if_neg fun hand => hcf hand.1, rfl, hfree, rfl, hb,
        ⟨hlo, ht'⟩, hp, ?_, fun d hd => hd, fun hall => absurd (hall c mem_cons_self) hcf⟩
      intro y hy
      obtain rfl : c = y := by simpa using hy
      simpa using hcf

/-- A free block of the region passes the test of `release_whole_region_if_possible` exactly when it
is the only one. -/
theorem RegionBlocks.release_iff {r : UInt32 × UInt32} (h : RegionBlocks r (k ++ t :: s))
    (hfits : t.Fits) (hfree : t.free = true) :
    (t.free = true ∧ t.pageCount ≠ 0 ∧ t.size = t.pageCount * pageSize - headerSize) ↔
      k = [] ∧ s = [] := by
  have hpos := h.run.count_pos
  have hend := h.run.bound
  have hbound := hfits.bound
  have hlow := hfits.low
  have hhi := hi_eq t
  have hsize : (t.pageCount * pageSize - headerSize).toNat
      = (2 ^ 32 - 24 + t.pageCount.toNat * 4096 % 2 ^ 32) % 2 ^ 32 := by
    rw [UInt32.toNat_sub, UInt32.toNat_mul, headerSize_toNat]
    rfl
  cases k with
  | nil =>
    obtain ⟨hlo, hrest⟩ := h.tiles
    obtain ⟨hcount, -⟩ := h.counts
    have hstart := h.run.page_ge
    rw [hcount] at hsize ⊢
    constructor
    · rintro ⟨-, -, hs⟩
      have hs := congrArg UInt32.toNat hs
      have hstop : t.hi = r.1.toNat + r.2.toNat * 4096 := by omega
      rw [← hstop] at hrest
      exact ⟨rfl, hrest.eq_nil⟩
    · rintro ⟨-, rfl⟩
      have hstop : t.hi = r.1.toNat + r.2.toNat * 4096 := hrest
      refine ⟨hfree, fun h0 => ?_, UInt32.toNat_inj.mp ?_⟩
      · rw [h0] at hpos
        cases hpos
      · omega
  | cons d k =>
    -- the product with such a page count is 0
    have hclean := h.counts.2 t (by simp)
    refine ⟨fun hand => ?_, fun hand => absurd hand.1 (by simp)⟩
    have hs := congrArg UInt32.toNat hand.2.2
    omega

/-! ### `kfree` in a region -/

section Kfree

variable {h : Traced} {A C : List Block} {r : UInt32 × UInt32}

/-- **The last part of `kfree`**, on a block of a region between `A` and `C`, when no free block of
another region is taken for a neighbour: the region keeps its form, and
`release_whole_region_if_possible` is called on the block that has been freed and merged. -/
theorem freeBlock_region (ok : h.Ok ((A ++ s1) ++ b :: (s2 ++ C))) (hused : b.free = false)
    (hr : RegionBlocks r (s1 ++ b :: s2))
    (hnext : s2 = [] → ∀ c k, C = c :: k → ¬ (c.free = true ∧ b.hi = c.lo))
    (hprev : s1 = [] → ∀ k e, A = k ++ [e] → e.free = false) :
    ∃ k t s, ∃ g : Traced, RegionBlocks r (k ++ t :: s) ∧ t.free = true ∧
      ((∀ d ∈ s1 ++ s2, d.free = true) → k = [] ∧ s = []) ∧
      g.Ok ((A ++ k) ++ t :: (s ++ C)) ∧ g.pages = h.pages ∧
      h.freeBlock traced b.addr = g.releaseWholeRegionIfPossible traced t.addr := by
  obtain ⟨ok1, hcases⟩ := ok.freeBlock_cases (P := traced) hused
  obtain ⟨t1, t2⟩ := tiles_mid.mp hr.tiles
  obtain ⟨p1, p2, -, -⟩ := noFreePair_mid.mp hr.pairs
  have hfits : ∀ d ∈ s1 ++ b :: s2, d.Fits := fun d hd => by
    have hcons : A ++ s1 ++ b :: (s2 ++ C) = A ++ (s1 ++ b :: s2 ++ C) := by simp
    refine ok.placed.fits d ?_
    rw [hcons]
    exact mem_append_right _ (mem_append_left _ hd)
  obtain ⟨b2, s', hmerge, haddr, hfree2, hcount, hfits2, ht', hp', hhead, hsub, hall⟩ :=
    mergeNext_region (b := { b with free := true }) (ok1.placed.fits _ (by simp))
      (fun c hc => hfits c (by simp [hc])) rfl t2 p2
  obtain ⟨ok2, hpages⟩ := ok1.coalesceNext_mergeNext rfl
  rw [hmerge C hnext] at ok2
  have hstart : (h.markFree b.addr).pages = h.pages := rfl
  rw [hstart] at hpages
  change ((h.markFree b.addr).coalesceNext b.addr).Ok _ at ok2
  change ((h.markFree b.addr).coalesceNext b.addr).pages = _ at hpages
  generalize (h.markFree b.addr).coalesceNext b.addr = g2 at ok2 hpages hcases
  have hlo : b2.lo = b.lo := congrArg UInt32.toNat haddr
  rcases hcases with ⟨hlast, hfb⟩ | ⟨k0, e, heq, hefree, hfb⟩
  · -- the block before is in use, or there is none
    have hlast' : ∀ x ∈ s1.getLast?, x.free = false := by
      intro x hx
      obtain ⟨k, rfl⟩ := List.getLast?_eq_some_iff.mp hx
      exact hlast (A ++ k) x (by simp)
    refine ⟨s1, b2, s', g2, ⟨hr.run, tiles_mid.mpr ⟨hlo ▸ t1, ht'⟩,
      hr.counts.replace hcount fun c hc => .inl (hsub c hc),
      noFreePair_mid.mpr ⟨p1, hp', fun x hx hand => ?_, fun y hy hand => ?_⟩⟩, hfree2,
      fun hfree => ⟨?_, hall fun c hc => hfree c (mem_append_right _ hc)⟩, ok2, hpages, ?_⟩
    · exact absurd hand.1 (by simp [hlast' x hx])
    · exact absurd hand.2 (by simp [hhead y hy])
    · by_contra hne
      have hx := List.getLast?_eq_some_getLast hne
      have hmem := getLast_mem hne
      have := hfree _ (mem_append_left s2 hmem)
      rw [hlast' _ hx] at this
      cases this
    · rw [hfb, haddr]
  · -- the free block before is the last one before in the region
    rcases eq_nil_or_concat' s1 with rfl | ⟨k, e', rfl⟩
    · have := hprev rfl k0 e (by simpa using heq)
      rw [hefree] at this
      cases this
    obtain ⟨rfl, hlist⟩ : A ++ k = k0 ∧ [e'] = [e] := append_inj' (by simpa using heq) rfl
    obtain rfl : e' = e := singleton_inj.mp hlist
    obtain ⟨tk, hadj⟩ := tiles_mid.mp t1
    obtain ⟨pk, -, hklast, -⟩ := noFreePair_mid.mp p1
    have hadj : e'.hi = b2.lo := hadj.trans hlo.symm
    have hefits := hfits e' (by simp)
    have hcons : A ++ (k ++ [e']) ++ b2 :: (s' ++ C) = (A ++ k) ++ e' :: (b2 :: (s' ++ C)) := by
      simp
    rw [hcons] at ok2
    obtain ⟨ok3, hpages'⟩ := ok2.coalesceNext_mergeNext hefree
    rw [mergeNext, if_pos ⟨hfree2, hadj⟩] at ok3
    refine ⟨k, e'.absorb b2, s', g2.coalesceNext e'.addr, ⟨hr.run, tiles_mid.mpr ⟨tk, ?_⟩, ?_,
      noFreePair_mid.mpr ⟨pk, hp', fun x hx hand => ?_, fun y hy hand => ?_⟩⟩, hefree,
      fun hfree => ⟨?_, hall fun c hc => hfree c (mem_append_right _ hc)⟩, ok3,
      hpages'.trans hpages, ?_⟩
    · rw [absorb_hi hefits hfits2 hadj]
      exact ht'
    · have hcounts := hr.counts
      rw [append_assoc, singleton_append] at hcounts
      exact hcounts.replace rfl fun c hc => .inl (mem_cons_of_mem _ (hsub c hc))
    · exact hklast x hx ⟨hand.1, hefree⟩
    · exact absurd hand.2 (by simp [hhead y hy])
    · by_contra hne
      have hx := List.getLast?_eq_some_getLast hne
      refine hklast _ hx ⟨hfree _ ?_, hefree⟩
      exact mem_append_left _ (mem_append_left _ (getLast_mem hne))
    · exact hfb

end Kfree

/-! ### All regions -/

/-- The regions obtained and not returned, in the order of the calls. -/
def heldRegions : List PageCall → List (UInt32 × UInt32)
  | [] => []
  | .alloc address count :: calls =>
    if address = 0 then heldRegions calls else heldRegions calls ++ [(address, count)]
  | .free address count :: calls => (heldRegions calls).erase (address, count)

/-- The blocks of a region, of which one is in use when the region is among the touched ones. -/
def Region (touched : List (UInt32 × UInt32)) (r : UInt32 × UInt32) (seg : List Block) : Prop :=
  RegionBlocks r seg ∧ (r ∈ touched → ∃ d ∈ seg, d.free = false)

/-- The list consists of the blocks of the held regions, one region after the other. -/
structure Tiled (touched : List (UInt32 × UInt32)) (calls : List PageCall) (blocks : List Block) :
    Prop where
  split : ∃ segs : List (List Block), blocks = segs.flatten ∧
    List.Forall₂ (Region touched) (heldRegions calls) segs
  held : ∀ r ∈ touched, r ∈ heldRegions calls

/-- Two lists that correspond, split at an element of the second. -/
theorem forall₂_split {α β : Type*} {R : α → β → Prop} {xs : List α} {ys : List β}
    (h : List.Forall₂ R xs ys) {y : β} (hy : y ∈ ys) :
    ∃ xs1 x xs2 ys1 ys2, xs = xs1 ++ x :: xs2 ∧ ys = ys1 ++ y :: ys2 ∧
      List.Forall₂ R xs1 ys1 ∧ R x y ∧ List.Forall₂ R xs2 ys2 := by
  induction h with
  | nil => cases hy
  | @cons x z xs ys hxz hrest ih =>
    rcases mem_cons.mp hy with rfl | hy
    · exact ⟨[], x, xs, [], ys, rfl, rfl, .nil, hxz, hrest⟩
    · obtain ⟨xs1, x', xs2, ys1, ys2, rfl, rfl, h1, hx, h2⟩ := ih hy
      exact ⟨x :: xs1, x', xs2, z :: ys1, ys2, rfl, rfl, .cons hxz h1, hx, h2⟩

/-- The first block of a region has the address of the region. -/
theorem RegionBlocks.first {r : UInt32 × UInt32} (h : RegionBlocks r s) :
    ∃ d l, s = d :: l ∧ d.addr = r.1 := by
  cases s with
  | nil => exact absurd h.counts id
  | cons d l => exact ⟨d, l, rfl, UInt32.toNat_inj.mp h.tiles.1⟩

namespace Tiled

variable {touched : List (UInt32 × UInt32)} {calls : List PageCall} {r : UInt32 × UInt32}

/-- The regions before and after one of them. -/
structure Around (touched : List (UInt32 × UInt32)) (calls : List PageCall)
    (rs1 rs2 : List (UInt32 × UInt32)) (r : UInt32 × UInt32) (segs1 segs2 : List (List Block)) :
    Prop where
  regions : heldRegions calls = rs1 ++ r :: rs2
  before : List.Forall₂ (Region touched) rs1 segs1
  after : List.Forall₂ (Region touched) rs2 segs2

/-- A block belongs to a region. -/
theorem around (ht : Tiled touched calls blocks) (hb : b ∈ blocks) :
    ∃ rs1 rs2 r segs1 segs2 s1 s2, Around touched calls rs1 rs2 r segs1 segs2 ∧
      Region touched r (s1 ++ b :: s2) ∧
      blocks = (segs1.flatten ++ s1) ++ b :: (s2 ++ segs2.flatten) := by
  obtain ⟨segs, rfl, hall⟩ := ht.split
  obtain ⟨seg, hseg, hbs⟩ := mem_flatten.mp hb
  obtain ⟨rs1, r, rs2, segs1, segs2, heq, rfl, h1, hr, h2⟩ := forall₂_split hall hseg
  obtain ⟨s1, s2, rfl⟩ := append_of_mem hbs
  exact ⟨rs1, rs2, r, segs1, segs2, s1, s2, ⟨heq, h1, h2⟩, hr, by simp⟩

/-- A region has its blocks on the list. -/
theorem around_region (ht : Tiled touched calls blocks) (hr : r ∈ heldRegions calls) :
    ∃ rs1 rs2 segs1 segs2 seg, Around touched calls rs1 rs2 r segs1 segs2 ∧
      Region touched r seg ∧ blocks = segs1.flatten ++ (seg ++ segs2.flatten) := by
  obtain ⟨segs, rfl, hall⟩ := ht.split
  obtain ⟨segs1, seg, segs2, rs1, rs2, rfl, heq, h1, hseg, h2⟩ := forall₂_split hall.flip hr
  exact ⟨rs1, rs2, segs1, segs2, seg, ⟨heq, h1.flip, h2.flip⟩, hseg, by simp⟩

section

variable {rs1 rs2 : List (UInt32 × UInt32)} {segs1 segs2 : List (List Block)}
  (h : Around touched calls rs1 rs2 r segs1 segs2)
include h

/-- One region changes. -/
theorem Around.replace {seg : List Block}
    (hheld : ∀ r ∈ touched, r ∈ heldRegions calls) (hseg : Region touched r seg) :
    Tiled touched calls (segs1.flatten ++ (seg ++ segs2.flatten)) := by
  refine ⟨⟨segs1 ++ seg :: segs2, by simp, ?_⟩, hheld⟩
  rw [h.regions]
  exact rel_append h.before (.cons hseg h.after)

/-- The region itself is neither among those before nor among those after. -/
theorem Around.not_mem {seg : List Block}
    (hseg : RegionBlocks r seg) (hp : Placed (segs1.flatten ++ (seg ++ segs2.flatten))) :
    r ∉ rs1 ∧ r ∉ rs2 := by
  obtain ⟨d, l, rfl, haddr⟩ := hseg.first
  -- another region of that name would begin at the same address
  have hother : ∀ {rs : List (UInt32 × UInt32)} {segs : List (List Block)},
      List.Forall₂ (Region touched) rs segs → r ∈ rs → ∃ e ∈ segs.flatten, e.addr = d.addr := by
    intro rs segs hall hr
    obtain ⟨segs', seg', segs'', rs', rs'', rfl, -, -, hseg', -⟩ := forall₂_split hall.flip hr
    obtain ⟨e, l', rfl, he⟩ := hseg'.1.first
    exact ⟨e, by simp, he.trans haddr.symm⟩
  have hdis := pairwise_append.mp hp.disjoint
  refine ⟨fun hr => ?_, fun hr => ?_⟩
  · obtain ⟨e, he, heq⟩ := hother h.before hr
    exact (hdis.2.2 e he d (by simp)).addr_ne heq
  · obtain ⟨e, he, heq⟩ := hother h.after hr
    have hdis' := (pairwise_append.mp hdis.2.1).2.2 d (by simp) e he
    exact hdis'.addr_ne heq.symm

end

end Tiled

/-- The headers in memory hold all there is to know of the blocks. -/
theorem Represents.eq_map {m : Mem} {head : UInt32} (h : Represents m head blocks) :
    (blocks.map addr).map (fun a => Block.mk a (header m a).size (header m a).pageCount
      (header m a).free) = blocks := by
  rw [map_map]
  refine (map_congr_left fun b hb => ?_).trans (map_id blocks)
  have hnode := h.nodes b hb
  simp only [Function.comp_apply, hnode.size, hnode.pageCount, hnode.free, id]

/-- The memory determines the list. -/
theorem Heap.Ok.unique {σ : Type} {h : Heap σ} (ok1 : h.Ok l1) (ok2 : h.Ok l2) : l1 = l2 := by
  have hnull : ∀ {l}, h.Ok l → (0 : UInt32) ∉ l.map addr := by
    intro l ok hmem
    obtain ⟨b, hb, haddr⟩ := mem_map.mp hmem
    exact (ok.placed.fits b hb).addr_ne_zero haddr
  obtain ⟨q1, hseg1⟩ := ok1.repr.links
  obtain ⟨q2, hseg2⟩ := ok2.repr.links
  rw [← ok1.repr.eq_map, hseg1.unique hseg2 (hnull ok1) (hnull ok2), ok2.repr.eq_map]

end MyOS
