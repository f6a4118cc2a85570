import MyOS.Heap.Blocks

/-!
# What each heap function does to the block list

One lemma per function of `heap.c`, from a heap that holds the list `l1 ++ b :: l2` and a pointer to
`b`: the list it holds afterwards.
-/

namespace MyOS

open Block List

/-! ### The header writes -/

section HeaderWrites

variable {m : Mem} {block next : UInt32} {c : UInt32}

theorem header_regionHeader_self (m : Mem) (page pageCount : UInt32) :
    header (regionHeader m page pageCount) page
      = ⟨heapMagic, pageCount * pageSize - headerSize, pageCount, true, 0, 0⟩ := by
  simp [regionHeader]

theorem header_regionHeader_apart (m : Mem) {page : UInt32} (pageCount : UInt32)
    (h : Apart page c) : header (regionHeader m page pageCount) c = header m c := by
  simp [regionHeader, h]

variable {size : UInt32}

section

variable (hn : Apart (block + headerSize + size) block)
include hn

/-- The block that is split: the new header `n` does not overlap it, nor does its successor. -/
theorem header_splitHeaders_block
    (hy : (header m block).next ≠ 0 → Apart (header m block).next block) :
    header (splitHeaders m block size) block
      = { header m block with size := size, next := block + headerSize + size } := by
  by_cases h0 : (header m block).next = 0
  · simp [splitHeaders, h0, hn]
  · simp [splitHeaders, h0, hn, hy h0]

/-- The new header keeps the page count that the memory held. -/
theorem header_splitHeaders_next
    (hy : (header m block).next ≠ 0 → Apart (header m block).next (block + headerSize + size)) :
    header (splitHeaders m block size) (block + headerSize + size)
      = ⟨heapMagic, (header m block).size - size - headerSize,
          (header m (block + headerSize + size)).pageCount, true, (header m block).next,
            block⟩ := by
  by_cases h0 : (header m block).next = 0
  · simp [splitHeaders, h0, hn, hn.symm]
  · simp [splitHeaders, h0, hn, hn.symm, hy h0]

/-- The old successor points back at the new header. -/
theorem header_splitHeaders_succ
    (h0 : (header m block).next ≠ 0) (hyb : Apart (header m block).next block)
    (hyn : Apart (header m block).next (block + headerSize + size)) :
    header (splitHeaders m block size) (header m block).next
      = { header m (header m block).next with prev := block + headerSize + size } := by
  simp [splitHeaders, h0, hn, hyb.symm, hyn.symm]

theorem header_splitHeaders_apart (hb : Apart block c) (hc : Apart (block + headerSize + size) c)
    (hy : (header m block).next ≠ 0 → Apart (header m block).next c) :
    header (splitHeaders m block size) c = header m c := by
  by_cases h0 : (header m block).next = 0
  · simp [splitHeaders, h0, hn, hb, hc]
  · simp [splitHeaders, h0, hn, hb, hc, hy h0]

end

section

variable (hnext : (header m block).next = next) (hbn : Apart block next)
include hnext hbn

/-- The block that absorbs its successor `next`, with the successor of that. -/
theorem header_mergeHeaders_block
    (hy : (header m next).next ≠ 0 → Apart (header m next).next block) :
    header (mergeHeaders m block) block = { header m block with
          size := (header m block).size + (headerSize + (header m next).size)
          next := (header m next).next } := by
  subst hnext
  by_cases h0 : (header m (header m block).next).next = 0
  · simp [mergeHeaders, h0, hbn]
  · simp [mergeHeaders, h0, hbn, hy h0]

theorem header_mergeHeaders_succ
    (h0 : (header m next).next ≠ 0) (hyb : Apart block (header m next).next) :
    header (mergeHeaders m block) (header m next).next
      = { header m (header m next).next with prev := block } := by
  subst hnext
  simp [mergeHeaders, h0, hbn, hyb]

theorem header_mergeHeaders_apart
    (hb : Apart block c) (hy : (header m next).next ≠ 0 → Apart (header m next).next c) :
    header (mergeHeaders m block) c = header m c := by
  subst hnext
  by_cases h0 : (header m (header m block).next).next = 0
  · simp [mergeHeaders, h0, hbn, hb]
  · simp [mergeHeaders, h0, hbn, hb, hy h0]

end

section Unlink

variable (hpb : (header m block).prev ≠ 0 → Apart (header m block).prev block)

include hpb

/-- The header that is taken out of the list keeps its contents. -/
theorem header_unlinkHeaders_self
    (hnb : (header m block).next ≠ 0 → Apart (header m block).next block) :
    header (unlinkHeaders m block) block = header m block := by
  by_cases hp0 : (header m block).prev = 0 <;> by_cases hn0 : (header m block).next = 0
  · simp [unlinkHeaders, hp0, hn0]
  · simp [unlinkHeaders, hp0, hn0, hnb hn0]
  · simp [unlinkHeaders, hp0, hn0, hpb hp0]
  · simp [unlinkHeaders, hp0, hn0, hpb hp0, hnb hn0]

theorem header_unlinkHeaders_prev (hp0 : (header m block).prev ≠ 0)
    (hnp : (header m block).next ≠ 0 → Apart (header m block).next (header m block).prev) :
    header (unlinkHeaders m block) (header m block).prev
      = { header m (header m block).prev with next := (header m block).next } := by
  by_cases hn0 : (header m block).next = 0
  · simp [unlinkHeaders, hp0, hn0, hpb hp0]
  · simp [unlinkHeaders, hp0, hn0, hpb hp0, hnp hn0]

theorem header_unlinkHeaders_next (hn0 : (header m block).next ≠ 0)
    (hnp : (header m block).prev ≠ 0 → Apart (header m block).prev (header m block).next) :
    header (unlinkHeaders m block) (header m block).next
      = { header m (header m block).next with prev := (header m block).prev } := by
  by_cases hp0 : (header m block).prev = 0
  · simp [unlinkHeaders, hp0, hn0]
  · simp [unlinkHeaders, hp0, hn0, hpb hp0, hnp hp0]

theorem header_unlinkHeaders_apart (hpc : (header m block).prev ≠ 0 → Apart (header m block).prev c)
    (hnc : (header m block).next ≠ 0 → Apart (header m block).next c) :
    header (unlinkHeaders m block) c = header m c := by
  by_cases hp0 : (header m block).prev = 0 <;> by_cases hn0 : (header m block).next = 0
  · simp [unlinkHeaders, hp0, hn0]
  · simp [unlinkHeaders, hp0, hn0, hnc hn0]
  · simp [unlinkHeaders, hp0, hn0, hpb hp0, hpc hp0]
  · simp [unlinkHeaders, hp0, hn0, hpb hp0, hpc hp0, hnc hn0]

end Unlink

end HeaderWrites

/-! ### A block within its list -/

section AtBlock

variable {m m' : Mem} {head : UInt32} {l1 l2 : List Block} {b c : Block}

/-- The rest of a list is apart from a block in it. -/
theorem Placed.disjoint_of_mem (h : Placed (l1 ++ b :: l2)) (hc : c ∈ l1 ++ l2) : b.Disjoint c := by
  have hp := pairwise_append.mp h.disjoint
  rcases mem_append.mp hc with hc | hc
  · exact (hp.2.2 c hc b mem_cons_self).symm
  · exact rel_of_pairwise_cons hp.2.1 hc

theorem Placed.fits_self (h : Placed (l1 ++ b :: l2)) : b.Fits :=
  h.fits b (mem_append_right _ mem_cons_self)

theorem headD_addr_mem (hne : (l2.map Block.addr).headD 0 ≠ 0) :
    ∃ c ∈ l2, c.addr = (l2.map Block.addr).headD 0 := by
  cases l2 with
  | nil => exact absurd rfl hne
  | cons c l => exact ⟨c, mem_cons_self, rfl⟩

theorem mem_of_mem_around {d : Block} (h : d ∈ l1 ++ l2) : d ∈ l1 ++ b :: l2 := by
  rcases mem_append.mp h with h | h
  · exact mem_append_left _ h
  · exact mem_append_right _ (mem_cons_of_mem _ h)

/-- What holds of the blocks of a list holds after one of them is replaced. -/
theorem forall_mem_replace {Q : Block → Prop} (news : List Block) (h : ∀ d ∈ l1 ++ b :: l2, Q d)
    (hnews : ∀ d ∈ news, Q d) : ∀ d ∈ l1 ++ (news ++ l2), Q d := by
  rw [forall_mem_append, forall_mem_cons] at h
  exact forall_mem_append.mpr ⟨h.1, forall_mem_append.mpr ⟨hnews, h.2.2⟩⟩

/-- Two blocks of a placed list at different addresses are apart. -/
theorem Placed.apart_of_ne {blocks : List Block} (h : Placed blocks) (hb : b ∈ blocks)
    (hc : c ∈ blocks) (hne : b.addr ≠ c.addr) : Apart b.addr c.addr :=
  (h.disjoint.forall hb hc (fun he => hne (he ▸ rfl))).apart

section Neighbours

variable (h : Represents m head (l1 ++ b :: l2))
include h

/-- The links of a block, and the lists before and behind it. -/
theorem Represents.at_block :
    Links m 0 head (l1.map Block.addr) (header m b.addr).prev b.addr ∧
    ∃ last, Links m b.addr (header m b.addr).next (l2.map Block.addr) last 0 := by
  obtain ⟨last, hseg⟩ := h.links
  rw [map_append, map_cons] at hseg
  obtain ⟨h1, h2⟩ := hseg.at_node
  exact ⟨h1, last, h2⟩

/-- The successor that a header names is the next block of the list. -/
theorem Represents.next_eq :
    (header m b.addr).next = (l2.map Block.addr).headD 0 := by
  obtain ⟨-, last, hseg⟩ := h.at_block
  exact hseg.first_eq

theorem Represents.prev_eq :
    (header m b.addr).prev = (l1.map Block.addr).getLastD 0 := by
  obtain ⟨hseg, -⟩ := h.at_block
  exact hseg.last_eq

theorem Represents.describes :
    Describes (header m b.addr) b :=
  h.nodes b (mem_append_right _ mem_cons_self)

theorem Represents.next_eq_of_head? {d : Block}
    (hd : l2.head? = some d) : (header m b.addr).next = d.addr := by
  rw [h.next_eq]
  cases l2 with
  | nil => cases hd
  | cons e l =>
    obtain rfl : e = d := by simpa using hd
    rfl

/-- The next block of a list: the pointer to it, and the pointer back. -/
theorem Represents.next_of_head?
    (hp : Placed (l1 ++ b :: l2)) {d : Block} (hd : l2.head? = some d) :
    (header m b.addr).next = d.addr ∧ (header m b.addr).next ≠ 0 := by
  have hdn := h.next_eq_of_head? hd
  have hmem := mem_append_right l1 (mem_cons_of_mem b (mem_of_head? hd))
  exact ⟨hdn, hdn ▸ (hp.fits d hmem).addr_ne_zero⟩

theorem Represents.prev_of_head? {d : Block}
    (hd : l2.head? = some d) : (header m d.addr).prev = b.addr := by
  obtain ⟨-, last, hseg⟩ := h.at_block
  rw [← h.next_eq_of_head? hd]
  refine (hseg.first_mem fun hl => ?_).2
  rw [map_eq_nil_iff.mp hl] at hd
  cases hd

theorem Represents.next_mem
    (h0 : (header m b.addr).next ≠ 0) : ∃ e ∈ l1 ++ l2, e.addr = (header m b.addr).next := by
  rw [h.next_eq] at h0 ⊢
  obtain ⟨e, he, heq⟩ := headD_addr_mem h0
  exact ⟨e, mem_append_right _ he, heq⟩

/-- The successor of a block is apart from it and from the rest of the list. -/
theorem Represents.apart_next_self (hp : Placed (l1 ++ b :: l2)) (h0 : (header m b.addr).next ≠ 0) :
    Apart (header m b.addr).next b.addr := by
  obtain ⟨e, he, heq⟩ := h.next_mem h0
  exact heq ▸ (hp.disjoint_of_mem he).symm.apart

theorem Represents.apart_next
    (hp : Placed (l1 ++ b :: l2)) (hc : c ∈ l1 ++ l2) (hne : c.addr ≠ (header m b.addr).next)
    (h0 : (header m b.addr).next ≠ 0) : Apart (header m b.addr).next c.addr := by
  obtain ⟨e, he, heq⟩ := h.next_mem h0
  rw [← heq] at hne ⊢
  exact hp.apart_of_ne (mem_of_mem_around he) (mem_of_mem_around hc) hne.symm

/-- The predecessor that a header names is a block of the list before it. -/
theorem Represents.prev_mem
    (h0 : (header m b.addr).prev ≠ 0) : ∃ e ∈ l1, e.addr = (header m b.addr).prev := by
  obtain ⟨hseg, -⟩ := h.at_block
  have hl : l1.map Block.addr ≠ [] := fun hl => h0 (by rw [h.prev_eq, hl]; rfl)
  exact mem_map.mp (hseg.last_mem hl).1

theorem Represents.apart_prev_self (hp : Placed (l1 ++ b :: l2)) (h0 : (header m b.addr).prev ≠ 0) :
    Apart (header m b.addr).prev b.addr := by
  obtain ⟨e, he, heq⟩ := h.prev_mem h0
  exact heq ▸ (hp.disjoint_of_mem (mem_append_left _ he)).symm.apart

/-- A block before is not the successor, a block behind not the predecessor. -/
theorem Represents.ne_next (hp : Placed (l1 ++ b :: l2))
    (hc : c ∈ l1) : c.addr ≠ (header m b.addr).next := by
  intro heq
  have hnodup := hp.nodup
  rw [map_append, map_cons] at hnodup
  have hcross := (nodup_append.mp hnodup).2.2
  have h0 : (header m b.addr).next ≠ 0 := heq ▸ (hp.fits c (mem_append_left _ hc)).addr_ne_zero
  rw [h.next_eq] at h0 heq
  obtain ⟨e, he, hadd⟩ := headD_addr_mem h0
  exact hcross _ (mem_map_of_mem hc) _ (mem_cons_of_mem _ (mem_map_of_mem he)) (heq.trans hadd.symm)

theorem Represents.ne_prev (hp : Placed (l1 ++ b :: l2))
    (hc : c ∈ l2) : c.addr ≠ (header m b.addr).prev := by
  intro heq
  have hnodup := hp.nodup
  rw [map_append, map_cons] at hnodup
  have hcross := (nodup_append.mp hnodup).2.2
  have hfit := hp.fits c (mem_append_right _ (mem_cons_of_mem _ hc))
  obtain ⟨e, he, hadd⟩ := h.prev_mem (heq ▸ hfit.addr_ne_zero)
  exact hcross _ (mem_map_of_mem he) _ (mem_cons_of_mem _ (mem_map_of_mem hc)) (hadd.trans heq.symm)

end Neighbours

/-- Blocks of a placed list are replaced by others that take no place of the rest. -/
theorem Placed.replace (l1 l2 old new : List Block) (h : Placed (l1 ++ old ++ l2))
    (hfits : ∀ c ∈ new, c.Fits) (hnew : new.Pairwise Block.Disjoint)
    (hsub : ∀ d : Block, (∀ b ∈ old, b.Disjoint d) → ∀ c ∈ new, c.Disjoint d) :
    Placed (l1 ++ new ++ l2) := by
  obtain ⟨h12, h2, hacross⟩ := pairwise_append.mp h.disjoint
  obtain ⟨h1, -, h1old⟩ := pairwise_append.mp h12
  refine ⟨?_, ?_⟩
  · have hall := h.fits
    simp only [forall_mem_append] at hall ⊢
    exact ⟨⟨hall.1.1, hfits⟩, hall.2⟩
  · refine pairwise_append.mpr ⟨pairwise_append.mpr ⟨h1, hnew, ?_⟩, h2, ?_⟩
    · exact fun d hd c hc => (hsub d (fun b hb => (h1old d hd b hb).symm) c hc).symm
    · intro c hc d hd
      rcases mem_append.mp hc with hc | hc
      · exact hacross c (mem_append_left _ hc) d hd
      · exact hsub d (fun b hb => hacross b (mem_append_right _ hb) d hd) c hc

end AtBlock

/-! ### Relinking the two halves of a list -/

section Relink

variable {m m' : Mem} {p q x y r z last : UInt32} {l : List Block}

/-- Headers that keep their contents keep their part of the list. -/
theorem seg_of_headers_eq (hseg : Links m p x (l.map Block.addr) q y)
    (hsame : ∀ c ∈ l, header m' c.addr = header m c.addr) :
    Links m' p x (l.map Block.addr) q y := by
  refine hseg.congr (fun a ha => ?_) (fun a ha => ?_)
  all_goals
    obtain ⟨c, hc, rfl⟩ := mem_map.mp ha
    simp only [hsame c hc]

/-- The first block behind gets the predecessor `r`. -/
theorem seg_relinkFirst (hseg : Links m p y (l.map Block.addr) last 0)
    (hnodup : (l.map Block.addr).Nodup)
    (hsame : ∀ c ∈ l, c.addr ≠ y → header m' c.addr = header m c.addr)
    (hy : l ≠ [] → header m' y = { header m y with prev := r }) :
    ∃ last', Links m' r y (l.map Block.addr) last' 0 := by
  refine hseg.relinkFirst hnodup (fun a ha => ?_) (fun a ha hay => ?_) (fun hl => ?_)
  · obtain ⟨c, hc, rfl⟩ := mem_map.mp ha
    by_cases hcy : c.addr = y
    · simp only [hcy, hy (ne_nil_of_mem hc)]
    · simp only [hsame c hc hcy]
  · obtain ⟨c, hc, rfl⟩ := mem_map.mp ha
    simp only [hsame c hc hay]
  · simp only [hy (fun h => hl (h ▸ rfl))]

/-- The last block before gets the successor `z`. -/
theorem seg_relinkLast (m' : Mem) (x' : UInt32) (hseg : Links m p x (l.map Block.addr) q y)
    (hnodup : (l.map Block.addr).Nodup)
    (hsame : ∀ c ∈ l, c.addr ≠ q → header m' c.addr = header m c.addr)
    (hq : l ≠ [] → x' = x ∧ header m' q = { header m q with next := z })
    (hx : l = [] → x' = z) :
    Links m' p x' (l.map Block.addr) q z := by
  refine hseg.relinkLast hnodup (fun a ha haq => ?_) (fun a ha => ?_) (fun hl => ?_)
    (fun hl => hx (map_eq_nil_iff.mp hl))
  · obtain ⟨c, hc, rfl⟩ := mem_map.mp ha
    simp only [hsame c hc haq]
  · obtain ⟨c, hc, rfl⟩ := mem_map.mp ha
    by_cases hcq : c.addr = q
    · simp only [hcq, (hq (ne_nil_of_mem hc)).2]
    · simp only [hsame c hc hcq]
  · obtain ⟨hxx, hqz⟩ := hq (fun h => hl (h ▸ rfl))
    simp only [hxx, hqz, and_self]

end Relink

/-! ### The writes as changes of the list -/

section Rewrites

variable {m m' : Mem} {head r : UInt32} {l1 l2 : List Block} {b c : Block} {size : UInt32}

/-- **A change in the middle of the list.** The blocks before and behind keep their headers, but the
first one behind points back at `r`, the last of the new blocks. -/
theorem Represents.replace (m' : Mem) (old new : List Block)
    (h : Represents m head (l1 ++ old ++ l2)) (hp : Placed (l1 ++ old ++ l2))
    (hsame : ∀ d ∈ l1 ++ l2, d.addr ≠ (l2.map Block.addr).headD 0 →
      header m' d.addr = header m d.addr)
    (hsucc : ∀ d, l2.head? = some d → header m' d.addr = { header m d.addr with prev := r })
    (hnew : ∀ d ∈ new, Describes (header m' d.addr) d)
    (hlinks : ∀ q x p y, Links m q x (old.map Block.addr) p y → y = (l2.map Block.addr).headD 0 →
      Links m' q x (new.map Block.addr) r y) :
    Represents m' head (l1 ++ new ++ l2) := by
  have hnodup := hp.nodup
  rw [map_append, map_append] at hnodup
  obtain ⟨-, hnodup2, hcross⟩ := nodup_append.mp hnodup
  -- the first block behind is not among those before
  have hne1 : ∀ d ∈ l1, d.addr ≠ (l2.map Block.addr).headD 0 := by
    intro d hd heq
    have hdm : d.addr ∈ l1.map Block.addr ++ old.map Block.addr :=
      mem_append_left _ (mem_map_of_mem hd)
    cases l2 with
    | nil =>
      have hfit := hp.fits d (mem_append_left _ (mem_append_left _ hd))
      exact hfit.addr_ne_zero heq
    | cons e l => exact hcross _ hdm _ (mem_map_of_mem mem_cons_self) heq
  refine ⟨fun d hd => ?_, ?_⟩
  · rcases mem_append.mp hd with hd | hd
    · rcases mem_append.mp hd with hd | hd
      · rw [hsame d (mem_append_left _ hd) (hne1 d hd)]
        exact h.nodes d (mem_append_left _ (mem_append_left _ hd))
      · exact hnew d hd
    · have hnode := h.nodes d (mem_append_right _ hd)
      by_cases hfirst : d.addr = (l2.map Block.addr).headD 0
      · cases l2 with
        | nil => cases hd
        | cons e l =>
          have he := hsucc e rfl
          rw [show e.addr = d.addr from hfirst.symm] at he
          rw [he]
          exact ⟨hnode.magic, hnode.size, hnode.pageCount, hnode.free⟩
      · rw [hsame d (mem_append_right _ hd) hfirst]
        exact hnode
  · obtain ⟨last, hseg⟩ := h.links
    rw [map_append, map_append] at hseg
    obtain ⟨p, y, h12, h2⟩ := DList.seg_append.mp hseg
    obtain ⟨q, x, h1, hmid⟩ := DList.seg_append.mp h12
    have hy := h2.first_eq
    obtain ⟨last', h2'⟩ := seg_relinkFirst (r := r) h2 hnodup2
      (fun d hd hdy => hsame d (mem_append_right _ hd) (hy ▸ hdy)) (fun hl => by
        cases l2 with
        | nil => exact absurd rfl hl
        | cons e l =>
          rw [hy]
          exact hsucc e rfl)
    refine ⟨last', ?_⟩
    rw [map_append, map_append]
    refine DList.seg_append.mpr ⟨r, y, DList.seg_append.mpr ⟨q, x, ?_, hlinks q x p y hmid hy⟩, h2'⟩
    exact seg_of_headers_eq h1 fun d hd => hsame d (mem_append_left _ hd) (hne1 d hd)

/-- `split_block` puts the rest of the block behind it. -/
theorem Represents.splitHeaders (h : Represents m head (l1 ++ b :: l2))
    (hp : Placed (l1 ++ b :: l2)) (hsize : size.toNat + 24 ≤ b.size.toNat) :
    Represents (splitHeaders m b.addr size) head (l1 ++ { b with size := size } ::
      b.rest size (header m (b.addr + headerSize + size)).pageCount :: l2) := by
  set c := b.addr + headerSize + size
  have hdesc := h.describes
  -- the new header lies inside the block, so it is apart from all others
  have hlo : c.toNat = b.addr.toNat + 24 + size.toNat :=
    rest_lo hp.fits_self hsize (w := 0)
  have hnb : Apart c b.addr := by
    unfold Apart
    omega
  have hin : ∀ d ∈ l1 ++ l2, Apart c d.addr := by
    intro d hd
    have hdis := hp.disjoint_of_mem hd
    unfold Block.Disjoint hi lo at hdis
    unfold Apart
    omega
  have hyb := h.apart_next_self hp
  have hyn : (header m b.addr).next ≠ 0 → Apart (header m b.addr).next c := by
    intro h0
    obtain ⟨e, he, heq⟩ := h.next_mem h0
    exact heq ▸ (hin e he).symm
  have key :=
    Represents.replace (r := c) (MyOS.splitHeaders m b.addr size) [b]
    [{ b with size := size }, b.rest size (header m c).pageCount]
    (by simpa using h) (by simpa using hp)
  simp only [append_assoc, cons_append, nil_append] at key
  refine key ?_ ?_ ?_ ?_
  · intro d hd hne
    exact header_splitHeaders_apart hnb (hp.disjoint_of_mem hd).apart (hin d hd)
      (h.apart_next hp hd (h.next_eq ▸ hne))
  · intro d hd
    obtain ⟨hdn, h0⟩ := h.next_of_head? hp hd
    rw [← hdn]
    exact header_splitHeaders_succ hnb h0 (hyb h0) (hyn h0)
  · intro d hd
    simp only [mem_cons, not_mem_nil, or_false] at hd
    rcases hd with rfl | rfl
    · rw [header_splitHeaders_block hnb hyb]
      exact ⟨hdesc.magic, rfl, hdesc.pageCount, hdesc.free⟩
    · show Describes (header _ c) _
      rw [header_splitHeaders_next hnb hyn, hdesc.size]
      exact ⟨rfl, rfl, rfl, rfl⟩
  · rintro q x p y ⟨hx, hq, -, hy⟩ -
    refine ⟨hx, ?_, ?_, ?_, rfl, ?_⟩
    · simp only [header_splitHeaders_block hnb hyb]
      exact hq
    · simp only [header_splitHeaders_block hnb hyb]
      rfl
    · show (header _ c).prev = _
      rw [header_splitHeaders_next hnb hyn]
    · show (header _ c).next = _
      rw [header_splitHeaders_next hnb hyn]
      exact hy

/-- `coalesce_next` takes the next block out of the list and adds its size. -/
theorem Represents.mergeHeaders (h : Represents m head (l1 ++ b :: c :: l2))
    (hp : Placed (l1 ++ b :: c :: l2)) :
    Represents (mergeHeaders m b.addr) head (l1 ++ b.absorb c :: l2) := by
  have hb := h.describes
  have hnext : (header m b.addr).next = c.addr := h.next_eq
  -- the same list, seen from its second block
  have hcons : l1 ++ b :: c :: l2 = (l1 ++ [b]) ++ c :: l2 := by simp
  have hc := (hcons ▸ h : Represents m head ((l1 ++ [b]) ++ c :: l2))
  have hpc := (hcons ▸ hp : Placed ((l1 ++ [b]) ++ c :: l2))
  have hbc : Apart b.addr c.addr := (hp.disjoint_of_mem (by simp)).apart
  have hbmem : b ∈ (l1 ++ [b]) ++ l2 := by simp
  have hyne : (header m c.addr).next ≠ b.addr := by
    intro heq
    have h0 : (header m c.addr).next ≠ 0 := heq ▸ hp.fits_self.addr_ne_zero
    rw [hc.next_eq] at heq h0
    obtain ⟨e, he, hadd⟩ := headD_addr_mem h0
    exact (hp.disjoint_of_mem (mem_append_right _ (mem_cons_of_mem _ he))).addr_ne
      (heq.symm.trans hadd.symm)
  have hyb : (header m c.addr).next ≠ 0 → Apart (header m c.addr).next b.addr :=
    hc.apart_next hpc hbmem hyne.symm
  have key := Represents.replace (r := b.addr) (MyOS.mergeHeaders m b.addr) [b, c] [b.absorb c]
    (by simpa using h) (by simpa using hp)
  simp only [append_assoc, cons_append, nil_append] at key
  refine key ?_ ?_ ?_ ?_
  · intro d hd hne
    have hd' : d ∈ l1 ++ c :: l2 := mem_of_mem_around hd
    have hdc : d ∈ (l1 ++ [b]) ++ l2 := by
      simp only [append_assoc, mem_append, mem_singleton] at hd ⊢
      tauto
    exact header_mergeHeaders_apart hnext hbc (hp.disjoint_of_mem hd').apart
      (hc.apart_next hpc hdc (hc.next_eq ▸ hne))
  · intro d hd
    obtain ⟨hdn, h0⟩ := hc.next_of_head? hpc hd
    rw [← hdn]
    exact header_mergeHeaders_succ hnext hbc h0 (hyb h0).symm
  · intro d hd
    obtain rfl := mem_singleton.mp hd
    show Describes (header _ b.addr) _
    rw [header_mergeHeaders_block hnext hbc hyb, hb.size, hc.describes.size]
    exact ⟨hb.magic, rfl, hb.pageCount, hb.free⟩
  · rintro q x p y ⟨hx, hq, -, -, -, hy⟩ -
    refine ⟨hx, ?_, rfl, ?_⟩
    · show (header _ b.addr).prev = _
      rw [header_mergeHeaders_block hnext hbc hyb]
      exact hq
    · show (header _ b.addr).next = _
      rw [header_mergeHeaders_block hnext hbc hyb]
      exact hy

/-- The flag of a block is set. -/
theorem Represents.setFree (h : Represents m head (l1 ++ b :: l2)) (hp : Placed (l1 ++ b :: l2))
    (v : Bool) : Represents (setFree m b.addr v) head (l1 ++ { b with free := v } :: l2) := by
  have hb := h.describes
  have hsame : ∀ d ∈ l1 ++ l2, header (MyOS.setFree m b.addr v) d.addr = header m d.addr :=
    fun d hd => header_setFree_apart m (hp.disjoint_of_mem hd).apart v
  have key := Represents.replace (r := b.addr) (MyOS.setFree m b.addr v) [b] [{ b with free := v }]
    (by simpa using h) (by simpa using hp)
  simp only [append_assoc, cons_append, nil_append] at key
  refine key (fun d hd _ => hsame d hd) ?_ ?_ ?_
  · intro d hd
    rw [hsame d (mem_append_right _ (mem_of_head? hd)), ← h.prev_of_head? hd]
  · intro d hd
    obtain rfl := mem_singleton.mp hd
    rw [header_setFree_self]
    exact ⟨hb.magic, hb.size, hb.pageCount, rfl⟩
  · rintro q x p y ⟨hx, hq, -, hy⟩ -
    refine ⟨hx, ?_, rfl, ?_⟩
    · simp only [header_setFree_self]
      exact hq
    · simp only [header_setFree_self]
      exact hy

/-- `unlink_block` takes the block out of the list. -/
theorem Represents.unlinkHeaders (h : Represents m head (l1 ++ b :: l2))
    (hp : Placed (l1 ++ b :: l2)) :
    Represents (unlinkHeaders m b.addr)
      (if (header m b.addr).prev ≠ 0 then head else (header m b.addr).next) (l1 ++ l2) := by
  set p := (header m b.addr).prev with hpe
  set n := (header m b.addr).next
  have hpb := h.apart_prev_self hp
  have hnodup := hp.nodup
  rw [map_append, map_cons] at hnodup
  obtain ⟨hnodup1, hnodupb, -⟩ := nodup_append.mp hnodup
  obtain ⟨hseg1, last, hseg2⟩ := h.at_block
  have hfit : ∀ d ∈ l1 ++ l2, d.addr ≠ 0 := fun d hd =>
    (hp.fits d (mem_of_mem_around hd)).addr_ne_zero
  -- the successor is not among the blocks before, nor the predecessor among those behind
  have hne1 : ∀ d ∈ l1, d.addr ≠ n := fun d hd => h.ne_next hp hd
  have hne2 : ∀ d ∈ l2, d.addr ≠ p := fun d hd => h.ne_prev hp hd
  have hprev : p ≠ 0 → header (MyOS.unlinkHeaders m b.addr) p = { header m p with next := n } := by
    intro hp0
    refine header_unlinkHeaders_prev hpb hp0 fun hn0 => ?_
    obtain ⟨e, he, heq⟩ := h.prev_mem hp0
    exact heq ▸ h.apart_next hp (mem_append_left _ he) (hne1 e he) hn0
  have hnext : n ≠ 0 → header (MyOS.unlinkHeaders m b.addr) n = { header m n with prev := p } := by
    intro hn0
    refine header_unlinkHeaders_next hpb hn0 fun hp0 => ?_
    obtain ⟨e, he, heq⟩ := h.prev_mem hp0
    exact heq ▸ (h.apart_next hp (mem_append_left _ he) (hne1 e he) hn0).symm
  have hsame : ∀ d ∈ l1 ++ l2, d.addr ≠ p → d.addr ≠ n →
      header (MyOS.unlinkHeaders m b.addr) d.addr = header m d.addr := by
    intro d hd hdp hdn
    refine header_unlinkHeaders_apart hpb (fun hp0 => ?_) (h.apart_next hp hd hdn)
    obtain ⟨e, he, heq⟩ := h.prev_mem hp0
    rw [hpe, ← heq] at hdp
    rw [← heq]
    exact hp.apart_of_ne (mem_append_left _ he) (mem_of_mem_around hd) hdp.symm
  refine ⟨fun d hd => ?_, ?_⟩
  · have hnode := h.nodes d (mem_of_mem_around hd)
    have h0 := hfit d hd
    by_cases hdp : d.addr = p
    · rw [hdp] at h0 hnode ⊢
      rw [hprev h0]
      exact ⟨hnode.magic, hnode.size, hnode.pageCount, hnode.free⟩
    · by_cases hdn : d.addr = n
      · rw [hdn] at h0 hnode ⊢
        rw [hnext h0]
        exact ⟨hnode.magic, hnode.size, hnode.pageCount, hnode.free⟩
      · rw [hsame d hd hdp hdn]
        exact hnode
  · have hp0 : l1 ≠ [] → p ≠ 0 := by
      intro hl
      have hmem := (hseg1.last_mem (fun hnil => hl (map_eq_nil_iff.mp hnil))).1
      obtain ⟨e, he, heq⟩ := mem_map.mp hmem
      rw [hpe, ← heq]
      exact hfit e (mem_append_left _ he)
    have hn0 : l2 ≠ [] → n ≠ 0 := by
      intro hl
      obtain ⟨e, l, rfl⟩ := exists_cons_of_ne_nil hl
      exact (h.next_of_head? hp rfl).2
    have h1 := seg_relinkLast (z := n) (MyOS.unlinkHeaders m b.addr)
      (if p ≠ 0 then head else n) hseg1 hnodup1
      (fun d hd hdp => hsame d (mem_append_left _ hd) hdp (hne1 d hd))
      (fun hl => ⟨if_pos (hp0 hl), hprev (hp0 hl)⟩)
      (fun hl => if_neg (not_not.mpr (by rw [hpe, h.prev_eq, hl]; rfl)))
    obtain ⟨last', h2⟩ := seg_relinkFirst (r := p) hseg2
      (nodup_cons.mp hnodupb).2
      (fun d hd hdn => hsame d (mem_append_right _ hd) (hne2 d hd) hdn)
      (fun hl => hnext (hn0 hl))
    refine ⟨last', ?_⟩
    rw [map_append]
    exact DList.seg_append.mpr ⟨_, _, h1, h2⟩

/-- A block is put at the end: the last one points to it. -/
theorem Represents.append {blocks : List Block} {head' : UInt32} (last : UInt32)
    (h : Represents m head blocks)
    (hp : Placed blocks) (hlast : last = (blocks.map Block.addr).getLastD 0)
    (hsame : ∀ d ∈ blocks, d.addr ≠ last → header m' d.addr = header m d.addr)
    (hprev : blocks ≠ [] → head' = head ∧ header m' last = { header m last with next := b.addr })
    (hhead : blocks = [] → head' = b.addr) (hb : Describes (header m' b.addr) b)
    (hbn : (header m' b.addr).next = 0) (hbp : (header m' b.addr).prev = last) :
    Represents m' head' (blocks ++ [b]) := by
  obtain ⟨q, hseg⟩ := h.links
  obtain rfl : q = last := hseg.last_eq.trans hlast.symm
  refine ⟨fun d hd => ?_, b.addr, ?_⟩
  · rcases mem_append.mp hd with hd | hd
    · have hnode := h.nodes d hd
      by_cases hdq : d.addr = q
      · rw [hdq] at hnode ⊢
        rw [(hprev (ne_nil_of_mem hd)).2]
        exact ⟨hnode.magic, hnode.size, hnode.pageCount, hnode.free⟩
      · rw [hsame d hd hdq]
        exact hnode
    · rw [mem_singleton.mp hd]
      exact hb
  · rw [map_append]
    refine DList.seg_append.mpr ⟨q, b.addr, ?_, rfl, hbp, rfl, hbn⟩
    exact seg_relinkLast _ _ hseg hp.nodup hsame hprev hhead

end Rewrites

/-! ### The walks -/

section Walks

variable {m : Mem} {p q x : UInt32}

/-- The walk of `block_from_pages` ends at the last block. -/
theorem findTail_eq {l : List Block} (hfits : ∀ b ∈ l, b.Fits) (hl : l ≠ [])
    (hseg : Links m p x (l.map Block.addr) q 0) {n : ℕ} (hn : l.length ≤ n) :
    findTail n m x = some q := by
  induction l generalizing p x n with
  | nil => exact absurd rfl hl
  | cons b l ih =>
    obtain ⟨n, rfl⟩ := Nat.exists_eq_add_of_lt (show 0 < n by simp at hn; omega)
    obtain ⟨rfl, -, hrest⟩ := hseg
    rw [Nat.zero_add]
    unfold findTail
    cases l with
    | nil => rw [if_neg (not_not.mpr hrest.2), hrest.1]
    | cons c l =>
      have hc : (header m b.addr).next = c.addr := hrest.1
      have h0 : (header m b.addr).next ≠ 0 := hc ▸ (hfits c (by simp)).addr_ne_zero
      rw [if_pos h0]
      exact ih (fun d hd => hfits d (mem_cons_of_mem _ hd)) (cons_ne_nil _ _) hrest
        (by simp at hn ⊢; omega)

/-- A block that can serve a request for `size` bytes. -/
def Block.Serves (size : UInt32) (b : Block) : Bool := b.free && b.size ≥ size

theorem serves_iff {size : UInt32} {b : Block} :
    b.Serves size = true ↔ b.free = true ∧ size.toNat ≤ b.size.toNat := by
  simp [Block.Serves, UInt32.le_iff_toNat_le]

/-- The walk of `find_free_block` finds the first block that serves the request. -/
theorem findFreeBlock_eq {l : List Block} (hfits : ∀ b ∈ l, b.Fits)
    (hnodes : ∀ b ∈ l, Describes (header m b.addr) b)
    (hseg : Links m p x (l.map Block.addr) q 0) (size : UInt32) {n : ℕ} (hn : l.length < n) :
    findFreeBlock n m x size = some (((l.find? (Block.Serves size)).map Block.addr).getD 0) := by
  induction l generalizing p x n with
  | nil =>
    obtain ⟨n, rfl⟩ := Nat.exists_eq_add_of_lt hn
    rw [show x = 0 from hseg.2]
    rfl
  | cons b l ih =>
    obtain ⟨n, rfl⟩ := Nat.exists_eq_add_of_lt (show 0 < n by omega)
    obtain ⟨rfl, -, hrest⟩ := hseg
    have hb := hnodes b mem_cons_self
    rw [Nat.zero_add]
    unfold findFreeBlock
    rw [if_neg (hfits b mem_cons_self).addr_ne_zero, hb.free, hb.size]
    by_cases hserves : b.Serves size = true
    · rw [List.find?_cons_of_pos hserves]
      exact if_pos hserves
    · rw [List.find?_cons_of_neg hserves]
      refine (if_neg hserves).trans (ih (fun d hd => hfits d (mem_cons_of_mem _ hd))
        (fun d hd => hnodes d (mem_cons_of_mem _ hd)) hrest ?_)
      simp only [length_cons] at hn
      omega

end Walks

end MyOS
