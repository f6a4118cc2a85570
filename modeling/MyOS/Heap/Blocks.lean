import MyOS.Heap.Basic
import MyOS.Lib.DList
import MyOS.Lib.DisjointSets
import Mathlib.Algebra.Order.BigOperators.Group.List

/-!
# The block list

What the heap's memory stands for: a list of blocks, each with its address, payload size, page
count and free flag. `Heap.Ok h blocks` says that the headers in memory hold these blocks, linked in
this order, that no two of them overlap, and that the two counters are the sums of their sizes.

The header accessors come first: a field that is set reads back, the other fields and the headers
that do not overlap keep their value, so later modules never look at bytes.
-/

namespace MyOS

open List

/-! ### Header accesses -/

/-- The headers at `b` and `c` do not overlap. -/
def Apart (b c : UInt32) : Prop := b.toNat + 24 ≤ c.toNat ∨ c.toNat + 24 ≤ b.toNat

theorem Apart.symm {b c : UInt32} (h : Apart b c) : Apart c b := Or.symm h

section Accesses

variable {m m' : Mem} {b c : UInt32}

/-- A header depends on its 24 bytes only. -/
theorem header_congr (h : ∀ k < 24, m' (b.toNat + k) = m (b.toNat + k)) :
    header m' b = header m b := by
  have word : ∀ off, off + 4 ≤ 24 →
      Mem.load32 m' (b.toNat + off) = Mem.load32 m (b.toNat + off) := fun off hoff =>
    Mem.load32_congr fun k hk => by
      rw [Nat.add_assoc]
      exact h (off + k) (by omega)
  unfold header
  rw [word 4 (by omega), word 8 (by omega), word 16 (by omega), word 20 (by omega), h 12 (by omega)]
  have h0 := word 0 (by omega)
  rw [Nat.add_zero] at h0
  rw [h0]

/-- A word stored in one header is not seen in another. -/
theorem header_store32_apart (hbc : Apart b c) {off : ℕ} (hoff : off + 4 ≤ 24) (v : UInt32) :
    header (Mem.store32 m (b.toNat + off) v) c = header m c := by
  unfold Apart at hbc
  exact header_congr fun k hk => Mem.store32_of_not_mem m v (by omega)

variable (m b)

@[simp] theorem header_setMagic_self (v : UInt32) :
    header (setMagic m b v) b = { header m b with magic := v } := by
  ext <;> simp (disch := omega) only [header, setMagic, Mem.load32_store32_self,
    Mem.load32_store32_of_disjoint, Mem.store32_of_not_mem]

@[simp] theorem header_setSize_self (v : UInt32) :
    header (setSize m b v) b = { header m b with size := v } := by
  ext <;> simp (disch := omega) only [header, setSize, Mem.load32_store32_self,
    Mem.load32_store32_of_disjoint, Mem.store32_of_not_mem]

@[simp] theorem header_setPageCount_self (v : UInt32) :
    header (setPageCount m b v) b = { header m b with pageCount := v } := by
  ext <;> simp (disch := omega) only [header, setPageCount, Mem.load32_store32_self,
    Mem.load32_store32_of_disjoint, Mem.store32_of_not_mem]

@[simp] theorem header_setNext_self (v : UInt32) :
    header (setNext m b v) b = { header m b with next := v } := by
  ext <;> simp (disch := omega) only [header, setNext, Mem.load32_store32_self,
    Mem.load32_store32_of_disjoint, Mem.store32_of_not_mem]

@[simp] theorem header_setPrev_self (v : UInt32) :
    header (setPrev m b v) b = { header m b with prev := v } := by
  ext <;> simp (disch := omega) only [header, setPrev, Mem.load32_store32_self,
    Mem.load32_store32_of_disjoint, Mem.store32_of_not_mem]

@[simp] theorem header_setFree_self (v : Bool) :
    header (setFree m b v) b = { header m b with free := v } := by
  have hbyte : (setFree m b v (b.toNat + 12) != 0) = v := by
    unfold setFree
    rw [Mem.store8_self]
    cases v <;> rfl
  apply Header.ext
  case free => exact hbyte
  all_goals
    refine Mem.load32_store8_of_disjoint m _ ?_
    omega

variable {b}

@[simp] theorem header_setMagic_apart (h : Apart b c) (v : UInt32) :
    header (setMagic m b v) c = header m c := header_store32_apart h (show 0 + 4 ≤ 24 by decide) v

@[simp] theorem header_setSize_apart (h : Apart b c) (v : UInt32) :
    header (setSize m b v) c = header m c := header_store32_apart h (by decide) v

@[simp] theorem header_setPageCount_apart (h : Apart b c) (v : UInt32) :
    header (setPageCount m b v) c = header m c := header_store32_apart h (by decide) v

@[simp] theorem header_setNext_apart (h : Apart b c) (v : UInt32) :
    header (setNext m b v) c = header m c := header_store32_apart h (by decide) v

@[simp] theorem header_setPrev_apart (h : Apart b c) (v : UInt32) :
    header (setPrev m b v) c = header m c := header_store32_apart h (by decide) v

@[simp] theorem header_setFree_apart (h : Apart b c) (v : Bool) :
    header (setFree m b v) c = header m c := by
  unfold Apart at h
  exact header_congr fun k hk => Mem.store8_of_ne m _ (by omega)

end Accesses

/-! ### Blocks -/

/-- A block of the list. -/
structure Block where
  addr : UInt32
  size : UInt32
  pageCount : UInt32
  free : Bool
deriving DecidableEq, Repr

namespace Block

/-- The first byte of the header. -/
def lo (b : Block) : ℕ := b.addr.toNat

/-- The end of the payload. -/
def hi (b : Block) : ℕ := b.addr.toNat + 24 + b.size.toNat

/-- Header and payload of `b` and `c` do not overlap. -/
def Disjoint (b c : Block) : Prop := b.hi ≤ c.lo ∨ c.hi ≤ b.lo

/-- The block lies in the address space above the first page, on 8-byte boundaries. -/
structure Fits (b : Block) : Prop where
  low : 4096 ≤ b.lo
  aligned : b.lo % 8 = 0
  size_aligned : b.size.toNat % 8 = 0
  bound : b.hi ≤ 2 ^ 32

/-- The header `hd` holds the block. -/
structure Describes (hd : Header) (b : Block) : Prop where
  magic : hd.magic = heapMagic
  size : hd.size = b.size
  pageCount : hd.pageCount = b.pageCount
  free : hd.free = b.free

/-- The payload bytes in use. -/
def usedBytes (b : Block) : ℕ := if b.free then 0 else b.size.toNat

theorem Disjoint.symm {b c : Block} (h : b.Disjoint c) : c.Disjoint b := Or.symm h

instance : Std.Symm Block.Disjoint := ⟨fun _ _ => Disjoint.symm⟩

theorem Disjoint.apart {b c : Block} (h : b.Disjoint c) : Apart b.addr c.addr := by
  unfold Disjoint hi lo at h
  unfold Apart
  omega

theorem Disjoint.addr_ne {b c : Block} (h : b.Disjoint c) : b.addr ≠ c.addr := by
  intro he
  have := h.apart
  rw [he] at this
  unfold Apart at this
  omega

theorem Fits.addr_ne_zero {b : Block} (h : b.Fits) : b.addr ≠ 0 := by
  intro h0
  have := h.low
  rw [lo, h0] at this
  cases this

end Block

open Block

/-- The blocks lie in the address space and do not overlap. -/
structure Placed (blocks : List Block) : Prop where
  fits : ∀ b ∈ blocks, b.Fits
  disjoint : blocks.Pairwise Block.Disjoint

/-- The sum of the payload sizes. -/
def totalSize (blocks : List Block) : ℕ := (blocks.map fun b => b.size.toNat).sum

/-- The sum of the payload sizes of the blocks in use. -/
def usedSize (blocks : List Block) : ℕ := (blocks.map Block.usedBytes).sum

/-- The headers of the memory link the addresses of a list both ways. -/
abbrev Links (m : Mem) : UInt32 → UInt32 → List UInt32 → UInt32 → UInt32 → Prop :=
  DList.Seg (fun a => (header m a).next) (fun a => (header m a).prev)

/-- The memory holds the list of blocks that begins at `head`. -/
structure Represents (m : Mem) (head : UInt32) (blocks : List Block) : Prop where
  nodes : ∀ b ∈ blocks, Block.Describes (header m b.addr) b
  links : ∃ last, Links m 0 head (blocks.map Block.addr) last 0

/-- **The invariant of the heap.** -/
structure Heap.Ok {σ : Type} (h : Heap σ) (blocks : List Block) : Prop where
  repr : Represents h.mem h.head blocks
  placed : Placed blocks
  total : h.total.toNat = totalSize blocks
  used : h.used.toNat = usedSize blocks

namespace Placed

variable {blocks l1 l2 : List Block} {b c : Block}

/-- Headers and payloads together fit into the address space. -/
theorem sum_le (h : Placed blocks) : (blocks.map fun b => 24 + b.size.toNat).sum ≤ 2 ^ 32 := by
  have hle := DisjointSets.sum_length_le h.disjoint (fun b hb => (h.fits b hb).bound)
  have heq : (fun b : Block => b.hi - b.lo) = fun b => 24 + b.size.toNat := by
    funext b; unfold hi lo; omega
  rwa [heq] at hle

theorem length_totalSize (h : Placed blocks) : 24 * blocks.length + totalSize blocks ≤ 2 ^ 32 := by
  have hle := h.sum_le
  have heq : ∀ l : List Block, (l.map fun b => 24 + b.size.toNat).sum
      = 24 * l.length + totalSize l := by
    intro l
    induction l with
    | nil => rfl
    | cons b l ih =>
      rw [map_cons, sum_cons, ih, totalSize, totalSize, map_cons, sum_cons,
        length_cons]
      omega
  rwa [heq] at hle

theorem nodup (h : Placed blocks) : (blocks.map Block.addr).Nodup :=
  pairwise_map.mpr (h.disjoint.imp fun hbc => hbc.addr_ne)

end Placed

/-! ### Blocks made of blocks -/

namespace Block

variable {b c d : Block} {size w : UInt32}

/-- What `split_block` cuts off behind the first `size` bytes. -/
def rest (b : Block) (size pageCount : UInt32) : Block :=
  ⟨b.addr + headerSize + size, b.size - size - headerSize, pageCount, true⟩

/-- `b` with its neighbour merged in. -/
def absorb (b c : Block) : Block := { b with size := b.size + (headerSize + c.size) }

/-- The block of a new region. -/
def ofPages (page pageCount : UInt32) : Block :=
  ⟨page, pageCount * pageSize - headerSize, pageCount, true⟩

theorem headerSize_toNat : headerSize.toNat = 24 := rfl

/-- A pointer to a payload that is not null did not wrap around. -/
theorem Fits.payload_toNat (hb : b.Fits) (h0 : b.addr + headerSize ≠ 0) :
    (b.addr + headerSize).toNat = b.addr.toNat + 24 := by
  have hne : (b.addr + headerSize).toNat ≠ 0 := fun hz => h0 (UInt32.toNat_inj.mp hz)
  have hbound := hb.bound
  rw [UInt32.toNat_add, headerSize_toNat] at hne ⊢
  unfold hi at hbound
  omega

theorem payload_ne_zero_of_lt (hlt : b.lo < 2 ^ 32 - 24) : b.addr + headerSize ≠ 0 := by
  intro hz
  have hz := congrArg UInt32.toNat hz
  rw [UInt32.toNat_add, headerSize_toNat, UInt32.toNat_zero] at hz
  rw [lo] at hlt
  omega

theorem hi_eq (b : Block) : b.hi = b.lo + 24 + b.size.toNat := rfl

theorem rest_lo (hb : b.Fits) (hsize : size.toNat + 24 ≤ b.size.toNat) :
    (b.rest size w).lo = b.lo + 24 + size.toNat := by
  have hbound := hb.bound
  unfold hi at hbound
  simp only [rest, lo, UInt32.toNat_add, headerSize_toNat]
  omega

theorem rest_size (hsize : size.toNat + 24 ≤ b.size.toNat) :
    (b.rest size w).size.toNat = b.size.toNat - size.toNat - 24 := by
  have := b.size.toNat_lt
  simp only [rest, UInt32.toNat_sub, headerSize_toNat]
  omega

theorem rest_hi (hb : b.Fits) (hsize : size.toNat + 24 ≤ b.size.toNat) :
    (b.rest size w).hi = b.hi := by
  rw [hi_eq, hi_eq, rest_lo hb hsize, rest_size hsize]
  omega

theorem Fits.rest (hb : b.Fits) (hsize : size.toNat + 24 ≤ b.size.toNat)
    (h8 : size.toNat % 8 = 0) : (b.rest size w).Fits := by
  have hlow := hb.low
  have ha := hb.aligned
  have hs := hb.size_aligned
  refine ⟨?_, ?_, ?_, ?_⟩
  · rw [rest_lo hb hsize]; omega
  · rw [rest_lo hb hsize]; omega
  · rw [rest_size hsize]; omega
  · rw [rest_hi hb hsize]; exact hb.bound

theorem Fits.shrink (hb : b.Fits) (hsize : size.toNat ≤ b.size.toNat)
    (h8 : size.toNat % 8 = 0) : { b with size := size }.Fits := by
  refine ⟨hb.low, hb.aligned, h8, le_trans ?_ hb.bound⟩
  exact Nat.add_le_add_left hsize _

section

variable (hb : b.Fits) (hc : c.Fits) (hbc : b.hi = c.lo)
include hb hc hbc

theorem absorb_size :
    (b.absorb c).size.toNat = b.size.toNat + 24 + c.size.toNat := by
  have hbound := hc.bound
  rw [hi_eq, ← hbc, hi_eq] at hbound
  have hlow := hb.low
  simp only [absorb, UInt32.toNat_add, headerSize_toNat]
  omega

theorem absorb_hi : (b.absorb c).hi = c.hi := by
  rw [hi_eq, absorb_size hb hc hbc, hi_eq c, ← hbc, hi_eq]
  show b.lo + 24 + (b.size.toNat + 24 + c.size.toNat) = _
  omega

theorem Fits.absorb : (b.absorb c).Fits := by
  have hbs := hb.size_aligned
  have hcs := hc.size_aligned
  refine ⟨hb.low, hb.aligned, ?_, ?_⟩
  · rw [absorb_size hb hc hbc]; omega
  · rw [absorb_hi hb hc hbc]; exact hc.bound

end

end Block

/-- A run of pages within the address space, as `pmm_alloc_pages` returns it. -/
structure PageRun (page count : UInt32) : Prop where
  ne_zero : page ≠ 0
  aligned : page.toNat % 4096 = 0
  count_pos : 0 < count.toNat
  bound : page.toNat + count.toNat * 4096 ≤ 2 ^ 32

namespace PageRun

variable {page count : UInt32}

theorem page_ge (h : PageRun page count) : 4096 ≤ page.toNat := by
  have hne : page.toNat ≠ 0 := fun h0 => h.ne_zero (UInt32.toNat_inj.mp h0)
  have := h.aligned
  omega

theorem size_eq (h : PageRun page count) :
    (ofPages page count).size.toNat = count.toNat * 4096 - 24 := by
  have := h.page_ge
  have := h.bound
  have := h.count_pos
  simp only [ofPages, UInt32.toNat_sub, UInt32.toNat_mul, headerSize_toNat,
    show pageSize.toNat = 4096 from rfl]
  omega

theorem hi_eq (h : PageRun page count) :
    (ofPages page count).hi = page.toNat + count.toNat * 4096 := by
  have := h.count_pos
  rw [Block.hi_eq, h.size_eq]
  show page.toNat + 24 + _ = _
  omega

theorem fits (h : PageRun page count) : (ofPages page count).Fits := by
  have := h.aligned
  have := h.page_ge
  refine ⟨?_, ?_, ?_, ?_⟩
  · exact h.page_ge
  · show page.toNat % 8 = 0
    omega
  · rw [h.size_eq]
    omega
  · rw [h.hi_eq]
    exact h.bound

end PageRun

/-! ### Counters -/

theorem usedSize_le_totalSize (blocks : List Block) : usedSize blocks ≤ totalSize blocks := by
  refine sum_le_sum fun b _ => ?_
  unfold Block.usedBytes
  split
  · exact Nat.zero_le _
  · exact le_refl _

end MyOS
