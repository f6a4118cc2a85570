import MyOS.Lib.FirstFit
import MyOS.Lib.WordBitmap

/-!
# The physical page allocator

`kernel/mm/pmm.c`: one bit per 4 KiB page below 128 MiB, set for a page that is reserved or in use.
`pmm_initialize` clears the bits of the pages that the E820 map calls usable, `pmm_alloc_pages`
searches the managed range for a run of clear bits, and `pmm_free_pages_block` clears the bits of a
run again. The code does not check the index into the bitmap, so it is modelled as a function of all
natural numbers, of which the first `bitmapWords` are the array. Pointers and counters are 32-bit
words with the wraparound of the source.
-/

namespace MyOS

/-- `PMM_PAGE_SIZE`. -/
def pageSize : UInt32 := 4096

/-- `PMM_MANAGED_LIMIT`, which is `PAGING_IDENTITY_LIMIT`. -/
def managedLimit : UInt32 := 0x08000000

/-- `PMM_MAX_PAGES / 32`, the length of `page_bitmap`. -/
def bitmapWords : ℕ := 1024

/-- `E820_MAX_ENTRIES`. -/
def e820MaxEntries : ℕ := 32

/-- The address of `_kernel_end`, which `linker.ld` places behind the kernel at a page boundary. -/
structure KernelImage where
  kernelEnd : UInt32
  aligned : kernelEnd.toNat % 4096 = 0
  above_base : 0x10000 < kernelEnd.toNat

/-- `struct e820_entry`, without the field `acpi` that no code reads. -/
structure E820Entry where
  base : UInt64
  length : UInt64
  type : UInt32
deriving DecidableEq, Repr

/-- The file-scope variables of `pmm.c`. -/
structure Pmm where
  pageBitmap : ℕ → UInt32
  managedStart : UInt32
  managedEnd : UInt32
  totalPagesCount : UInt32
  usedPagesCount : UInt32

namespace Pmm

/-- `bitmap_test`. -/
def bitmapTest (p : Pmm) (pageIndex : ℕ) : Bool := WordBitmap.test p.pageBitmap pageIndex

/-! ### Initialisation -/

/-- The loop of `mark_usable_region` over the pages of the region. -/
def markPages : List ℕ → Pmm → Pmm
  | [], p => p
  | page :: pages, p =>
    markPages pages <| if p.bitmapTest page then
        { p with
          pageBitmap := WordBitmap.clear p.pageBitmap page
          totalPagesCount := p.totalPagesCount + 1 }
      else p

/-- `mark_usable_region`. -/
def markUsableRegion (p : Pmm) (start stop : UInt32) : Pmm :=
  let start := Word.alignUp start pageSize
  let stop := stop &&& ~~~ (pageSize - 1)
  let start := if start < p.managedStart then p.managedStart else start
  let stop := if stop > managedLimit then managedLimit else stop
  if stop ≤ start then p
  else
    let p := if stop > p.managedEnd then { p with managedEnd := stop } else p
    let firstPage := (start / pageSize).toNat
    let lastPage := (stop / pageSize).toNat
    markPages (List.range' firstPage (lastPage - firstPage)) p

/-- The body of the loop of `pmm_initialize` over the entries. -/
def markEntry (p : Pmm) (entry : E820Entry) : Pmm :=
  if entry.type ≠ 1 ∨ entry.length = 0 then p
  else if entry.base ≥ managedLimit.toUInt64 then p
  else
    let end64 := entry.base + entry.length
    let stop := if end64 > managedLimit.toUInt64 then managedLimit else end64.toUInt32
    p.markUsableRegion entry.base.toUInt32 stop

/-- `pmm_initialize`, where `kernelEnd` is the address of `_kernel_end`. What stands behind the
bitmap in memory is left alone. -/
def pmmInitialize (p : Pmm) (kernelEnd : UInt32) (entries : List E820Entry) : Pmm :=
  let managedStart := Word.alignUp kernelEnd pageSize
  let p : Pmm :=
    { pageBitmap := fun i => if i < bitmapWords then 0xFFFFFFFF else p.pageBitmap i
      managedStart := managedStart
      managedEnd := managedStart
      totalPagesCount := 0
      usedPagesCount := 0 }
  let p := (entries.take e820MaxEntries).foldl markEntry p
  if p.totalPagesCount = 0 then p.markUsableRegion p.managedStart 0x00400000 else p

/-! ### Allocation and release -/

/-- `pmm_alloc_pages`; the null pointer is `0`. -/
def pmmAllocPages (p : Pmm) (count : UInt32) : UInt32 × Pmm :=
  let firstPage := (p.managedStart / pageSize).toNat
  let lastPage := (p.managedEnd / pageSize).toNat
  if count = 0 ∨ count > p.totalPagesCount then (0, p)
  else
    match FirstFit.seek p.bitmapTest count.toNat lastPage (lastPage - firstPage) firstPage with
    | none => (0, p)
    | some page =>
      (UInt32.ofNat page * pageSize, { p with
          pageBitmap := WordBitmap.setRun p.pageBitmap page count.toNat
          usedPagesCount := p.usedPagesCount + count })

/-- `pmm_alloc_page`. -/
def pmmAllocPage (p : Pmm) : UInt32 × Pmm := p.pmmAllocPages 1

/-- The loop of `pmm_free_pages_block`. -/
def freePages : List ℕ → Pmm → Pmm
  | [], p => p
  | page :: pages, p =>
    freePages pages <| if p.bitmapTest page then
        { p with
          pageBitmap := WordBitmap.clear p.pageBitmap page
          usedPagesCount := p.usedPagesCount - 1 }
      else p

/-- `pmm_free_pages_block`. The sum with the product `count * PMM_PAGE_SIZE` and the page indices
are 32-bit values. -/
def pmmFreePagesBlock (p : Pmm) (address count : UInt32) : Pmm :=
  if count = 0 ∨ address < p.managedStart ∨ address ≥ p.managedEnd ∨ address % pageSize ≠ 0 then p
  else if address + count * pageSize > p.managedEnd then p
  else
    let firstPage := address / pageSize
    freePages ((List.range count.toNat).map fun i => (firstPage + UInt32.ofNat i).toNat) p

/-- `pmm_free_page`. -/
def pmmFreePage (p : Pmm) (page : UInt32) : Pmm := p.pmmFreePagesBlock page 1

/-- `pmm_free_pages`. -/
def pmmFreePages (p : Pmm) : UInt32 := p.totalPagesCount - p.usedPagesCount

end Pmm

end MyOS
