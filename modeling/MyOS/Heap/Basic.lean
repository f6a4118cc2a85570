import MyOS.Lib.Memory
import MyOS.Pmm.Basic

/-!
# The kernel heap

`kernel/mm/heap.c`: a doubly linked list of blocks, each a 24-byte header followed by its payload,
in pages that come from the page allocator. The list lives in the same memory as the payloads, so
the model keeps the memory as bytes. A header field that a function does not write keeps whatever
the memory held. The page allocator is a parameter, `PageSource`.

Loops that follow links are cut off after `loopBound` rounds and then have no result. There are
fewer than `loopBound` pointers, so a walk that is cut off has met one of them twice and would never
end. Likewise `kfree` clears one aligned header per recursive call, and the search of `kmalloc` adds
a region per round.
-/

namespace MyOS

/-- The page allocator as the heap sees it. -/
structure PageSource (σ : Type) where
  /-- `pmm_alloc_pages`. -/
  allocPages : σ → UInt32 → UInt32 × σ
  /-- `pmm_free_pages_block`. -/
  freePagesBlock : σ → UInt32 → UInt32 → σ

/-- The allocator of `pmm.c`. -/
def pmmSource : PageSource Pmm := ⟨Pmm.pmmAllocPages, Pmm.pmmFreePagesBlock⟩

/-! ### Headers -/

/-- `HEAP_MAGIC`. -/
def heapMagic : UInt32 := 0xC0DEF00D

/-- `HEAP_ALIGN_MAGIC`. -/
def heapAlignMagic : UInt32 := 0xA11A11A1

/-- `HEAP_MIN_SPLIT`. -/
def heapMinSplit : UInt32 := 32

/-- `sizeof(struct heap_block)`. -/
def headerSize : UInt32 := 24

/-- `struct heap_block`. -/
@[ext] structure Header where
  magic : UInt32
  size : UInt32
  pageCount : UInt32
  free : Bool
  next : UInt32
  prev : UInt32
deriving DecidableEq, Repr

/-- The header at address `b`. -/
def header (m : Mem) (b : UInt32) : Header where
  magic := m.load32 b.toNat
  size := m.load32 (b.toNat + 4)
  pageCount := m.load32 (b.toNat + 8)
  free := m (b.toNat + 12) != 0
  next := m.load32 (b.toNat + 16)
  prev := m.load32 (b.toNat + 20)

def setMagic (m : Mem) (b v : UInt32) : Mem := m.store32 b.toNat v

def setSize (m : Mem) (b v : UInt32) : Mem := m.store32 (b.toNat + 4) v

def setPageCount (m : Mem) (b v : UInt32) : Mem := m.store32 (b.toNat + 8) v

def setFree (m : Mem) (b : UInt32) (v : Bool) : Mem :=
  m.store8 (b.toNat + 12) (if v then 1 else 0)

def setNext (m : Mem) (b v : UInt32) : Mem := m.store32 (b.toNat + 16) v

def setPrev (m : Mem) (b v : UInt32) : Mem := m.store32 (b.toNat + 20) v

/-- The header that `block_from_pages` writes. -/
def regionHeader (m : Mem) (page pageCount : UInt32) : Mem :=
  let regionSize := pageCount * pageSize
  let m := setMagic m page heapMagic
  let m := setSize m page (regionSize - headerSize)
  let m := setPageCount m page pageCount
  let m := setFree m page true
  let m := setNext m page 0
  setPrev m page 0

/-- The headers that `split_block` writes. The page count of the new header is not among it. -/
def splitHeaders (m : Mem) (block size : UInt32) : Mem :=
  let next := block + headerSize + size
  let m := setMagic m next heapMagic
  let m := setSize m next ((header m block).size - size - headerSize)
  let m := setFree m next true
  let m := setNext m next (header m block).next
  let m := setPrev m next block
  let m := if (header m next).next ≠ 0 then setPrev m (header m next).next next else m
  let m := setNext m block next
  setSize m block size

/-- The headers that `coalesce_next` writes. -/
def mergeHeaders (m : Mem) (block : UInt32) : Mem :=
  let next := (header m block).next
  let m := setSize m block ((header m block).size + (headerSize + (header m next).size))
  let m := setNext m block (header m next).next
  if (header m block).next ≠ 0 then setPrev m (header m block).next block else m

/-- The headers that `unlink_block` writes. -/
def unlinkHeaders (m : Mem) (block : UInt32) : Mem :=
  let m := if (header m block).prev ≠ 0 then
    setNext m (header m block).prev (header m block).next else m
  if (header m block).next ≠ 0 then setPrev m (header m block).next (header m block).prev else m

/-! ### The heap -/

/-- The file-scope variables of `heap.c`, with the memory and the page allocator. -/
structure Heap (σ : Type) where
  mem : Mem
  head : UInt32
  total : UInt32
  used : UInt32
  invalidFreeCount : UInt32
  doubleFreeCount : UInt32
  pages : σ

/-- More rounds than there are pointers. -/
@[irreducible] def loopBound : ℕ := 2 ^ 32

/-- The loop of `block_from_pages` to the last block of the list. -/
def findTail : ℕ → Mem → UInt32 → Option UInt32
  | 0, _, _ => none
  | n + 1, m, tail =>
    if (header m tail).next ≠ 0 then findTail n m (header m tail).next else some tail

/-- The loop of `find_free_block` from `block` on; the null pointer is `0`. -/
def findFreeBlock : ℕ → Mem → UInt32 → UInt32 → Option UInt32
  | 0, _, _, _ => none
  | n + 1, m, block, size =>
    if block = 0 then some 0
    else if (header m block).free && (header m block).size ≥ size then some block
    else findFreeBlock n m (header m block).next size

namespace Heap

variable {σ : Type}

/-- `block_from_pages`. -/
def blockFromPages (h : Heap σ) (page pageCount : UInt32) : Option (Heap σ) :=
  let m := regionHeader h.mem page pageCount
  if h.head = 0 then
    some { h with mem := m, head := page, total := h.total + (header m page).size }
  else
    match findTail loopBound m h.head with
    | none => none
    | some tail =>
      let m := setNext m tail page
      let m := setPrev m page tail
      some { h with mem := m, total := h.total + (header m page).size }

/-- `split_block`. -/
def splitBlock (h : Heap σ) (block size : UInt32) : Heap σ :=
  if (header h.mem block).size < size + headerSize + heapMinSplit then h
  else { h with mem := splitHeaders h.mem block size, total := h.total - headerSize }

/-- `coalesce_next`. -/
def coalesceNext (h : Heap σ) (block : UInt32) : Heap σ :=
  let next := (header h.mem block).next
  if next = 0 ∨ (header h.mem next).free = false then h
  else if block + headerSize + (header h.mem block).size ≠ next then h
  else { h with mem := mergeHeaders h.mem block, total := h.total + headerSize }

/-- `unlink_block`. -/
def unlinkBlock (h : Heap σ) (block : UInt32) : Heap σ :=
  { h with
    mem := unlinkHeaders h.mem block
    head := if (header h.mem block).prev ≠ 0 then h.head else (header h.mem block).next }

/-- `release_whole_region_if_possible`. -/
def releaseWholeRegionIfPossible (P : PageSource σ) (h : Heap σ) (block : UInt32) : Heap σ :=
  if (header h.mem block).free = false ∨ (header h.mem block).pageCount = 0 then h
  else
    let regionPayload := (header h.mem block).pageCount * pageSize - headerSize
    if (header h.mem block).size ≠ regionPayload then h
    else
      let h := h.unlinkBlock block
      { h with
        total := h.total - (header h.mem block).size
        pages := P.freePagesBlock h.pages block (header h.mem block).pageCount }

/-- `heap_initialize`, on a memory and a page allocator in any state. -/
def heapInitialize (P : PageSource σ) (m : Mem) (pages : σ) : Option (Heap σ) :=
  let r := P.allocPages pages 1
  let h : Heap σ := ⟨m, 0, 0, 0, 0, 0, r.2⟩
  if r.1 ≠ 0 then h.blockFromPages r.1 1 else some h

/-- The number of pages `kmalloc` asks for. -/
def pagesNeeded (size : UInt32) : UInt32 := (size + headerSize + pageSize - 1) / pageSize

/-- The search of `kmalloc` for a free block, which adds regions until there is one. -/
def obtainBlock (P : PageSource σ) : ℕ → Heap σ → UInt32 → Option (UInt32 × Heap σ)
  | 0, _, _ => none
  | n + 1, h, size =>
    match findFreeBlock loopBound h.mem h.head size with
    | none => none
    | some block =>
      if block ≠ 0 then some (block, h)
      else
        let r := P.allocPages h.pages (pagesNeeded size)
        let h := { h with pages := r.2 }
        if r.1 = 0 then some (0, h)
        else
          match h.blockFromPages r.1 (pagesNeeded size) with
          | none => none
          | some h => obtainBlock P n h size

/-- `kmalloc`. -/
def kmalloc (P : PageSource σ) (h : Heap σ) (size : UInt32) : Option (UInt32 × Heap σ) :=
  if size = 0 then some (0, h)
  else
    let size := Word.alignUp size 8
    match obtainBlock P loopBound h size with
    | none => none
    | some (block, h) =>
      if block = 0 then some (0, h)
      else
        let h := h.splitBlock block size
        let h := { h with mem := setFree h.mem block false }
        some (block + headerSize, { h with used := h.used + (header h.mem block).size })

/-- The last part of `kfree`, from the header of a block in use. -/
def freeBlock (P : PageSource σ) (h : Heap σ) (block : UInt32) : Heap σ :=
  let h := { h with mem := setFree h.mem block true }
  let h := { h with used := h.used - (header h.mem block).size }
  let h := h.coalesceNext block
  let prev := (header h.mem block).prev
  if prev ≠ 0 ∧ (header h.mem prev).free = true then
    (h.coalesceNext prev).releaseWholeRegionIfPossible P prev
  else h.releaseWholeRegionIfPossible P block

/-- `kfree`, with a bound on the recursive calls for aligned pointers. The eight bytes before the
pointer are read as an `aligned_header` first. -/
def kfreeFrom (P : PageSource σ) : ℕ → Heap σ → UInt32 → Option (Heap σ)
  | 0, _, _ => none
  | n + 1, h, ptr =>
    if ptr = 0 then some h
    else
      let aligned := (ptr - 8).toNat
      if h.mem.load32 aligned = heapAlignMagic then
        let m := h.mem.store32 aligned 0
        kfreeFrom P n { h with mem := m } (m.load32 (aligned + 4))
      else
        let block := ptr - headerSize
        if (header h.mem block).magic ≠ heapMagic then
          some { h with invalidFreeCount := h.invalidFreeCount + 1 }
        else if (header h.mem block).free = true then
          some { h with doubleFreeCount := h.doubleFreeCount + 1 }
        else some (h.freeBlock P block)

/-- `kfree`. -/
def kfree (P : PageSource σ) (h : Heap σ) (ptr : UInt32) : Option (Heap σ) :=
  kfreeFrom P loopBound h ptr

/-- `heap_free_bytes`. -/
def heapFreeBytes (h : Heap σ) : UInt32 := h.total - h.used

end Heap

end MyOS
