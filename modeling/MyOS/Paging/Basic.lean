import MyOS.Lib.Memory
import MyOS.Pmm.Basic

/-!
# Address spaces and page tables

`kernel/mm/paging.c`: the two-level page tables of the kernel and of the user address spaces. A new
space starts with a copy of the kernel's directory and so shares the kernel's tables; a table is
copied when a page is first mapped through it.

The kernel reaches all memory through its identity map, so the model has one byte memory that is
addressed physically, with the directories, tables, structures and static arrays (`KernelStatics`)
where the code puts them. The registers `cr0` and `cr3` and the translation cache are left out.

Where the fields of a `struct address_space` lie is a parameter, `SpaceLayout`. `packedLayout` is
the layout of the C structure: its 4100 bytes begin a page, and the last of them lie behind it.
`fieldLayout` gives every space a place of its own for its fields, outside of the memory; with it
the structure is a record.
-/

namespace MyOS

/-- `PAGE_PRESENT`. -/
def pagePresent : UInt32 := 1

/-- `PAGE_WRITABLE`. -/
def pageWritable : UInt32 := 2

/-- `PAGE_USER`. -/
def pageUser : UInt32 := 4

/-- `PAGE_ENTRIES`. -/
def pageEntries : ℕ := 1024

/-- `PAGE_TABLE_COUNT`. -/
def pageTableCount : ℕ := 32

/-- `FRAMEBUFFER_PAGE_TABLES`. -/
def framebufferPageTableCount : ℕ := 8

/-- Where the linker has put the static variables of `paging.c`: whole pages for the directory and
the tables, and a structure, inside the kernel and apart from each other. -/
structure KernelStatics extends KernelImage where
  /-- `kernel_page_directory`. -/
  kernelPageDirectory : UInt32
  /-- `identity_page_tables`. -/
  identityPageTables : UInt32
  /-- `framebuffer_page_tables`. -/
  framebufferPageTables : UInt32
  /-- `kernel_space`. -/
  kernelSpace : UInt32
  directory_aligned : kernelPageDirectory.toNat % 4096 = 0
  identity_aligned : identityPageTables.toNat % 4096 = 0
  framebuffer_aligned : framebufferPageTables.toNat % 4096 = 0
  space_aligned : kernelSpace.toNat % 4 = 0
  inside : ∀ x ∈ [(kernelPageDirectory.toNat, 4096), (identityPageTables.toNat, 32 * 4096),
    (framebufferPageTables.toNat, 8 * 4096), (kernelSpace.toNat, 4100)],
    0 < x.1 ∧ x.1 + x.2 ≤ kernelEnd.toNat
  apart : [(kernelPageDirectory.toNat, 4096), (identityPageTables.toNat, 32 * 4096),
    (framebufferPageTables.toNat, 8 * 4096), (kernelSpace.toNat, 4100)].Pairwise
    fun x y => x.1 + x.2 ≤ y.1 ∨ y.1 + y.2 ≤ x.1

/-- Where the `struct address_space` with a given address lies: its words begin at `base`. -/
structure SpaceLayout where
  base : UInt32 → ℕ
  aligned : ∀ space, space.toNat % 4 = 0 → base space % 4 = 0

/-- The address of `page_directory`. -/
def SpaceLayout.directoryAt (L : SpaceLayout) (space : UInt32) : ℕ := L.base space

/-- The address of `owned_tables[i]`. -/
def SpaceLayout.ownedAt (L : SpaceLayout) (space : UInt32) (i : ℕ) : ℕ := L.base space + 4 + 4 * i

/-- The C structure. -/
def packedLayout : SpaceLayout := ⟨fun space => space.toNat, fun _ h => h⟩

/-- Every structure at a place of its own, outside of the memory. -/
def fieldLayout : SpaceLayout := ⟨fun space => 2 ^ 32 + 8192 * space.toNat, fun _ _ => by omega⟩

/-- The memory, the page allocator, and `current_space`. -/
structure Paging where
  mem : Mem
  pmm : Pmm
  currentSpace : UInt32

/-! ### Tables -/

/-- `table[i]`. -/
def entry (m : Mem) (table : UInt32) (i : ℕ) : UInt32 := m.load32 (table.toNat + 4 * i)

/-- `table[i] = v`. -/
def setEntry (m : Mem) (table : UInt32) (i : ℕ) (v : UInt32) : Mem :=
  m.store32 (table.toNat + 4 * i) v

/-- `zero_page_table`. -/
def zeroPageTable (m : Mem) (table : UInt32) : Mem :=
  m.storeWords table.toNat pageEntries fun _ => 0

/-- `copy_page_table`, between two different tables or a table and itself. -/
def copyPageTable (m : Mem) (dst src : UInt32) : Mem :=
  m.storeWords dst.toNat pageEntries fun i => entry m src i

/-- `virtual_address >> 22`. -/
def directoryIndex (virtualAddress : UInt32) : ℕ := (virtualAddress >>> 22).toNat

/-- `(virtual_address >> 12) & 0x3FF`. -/
def tableIndex (virtualAddress : UInt32) : ℕ := ((virtualAddress >>> 12) &&& 0x3FF).toNat

/-- The address without its last 12 bits. -/
def pageOf (address : UInt32) : UInt32 := address &&& ~~~ (pageSize - 1)

/-- The test of `PAGE_PRESENT`. -/
def isPresent (e : UInt32) : Bool := e &&& pagePresent != 0

/-- The test of `PAGE_USER`. -/
def isUser (e : UInt32) : Bool := e &&& pageUser != 0

namespace Paging

/-! ### Initialisation -/

section Initialize

variable (L : SpaceLayout) (K : KernelStatics)

/-- A round of the loop of `paging_initialize` over the identity tables: table number `table` is
filled and entered in the directory. -/
def identityRound (m : Mem) (table : ℕ) : Mem :=
  let identityTable := K.identityPageTables + UInt32.ofNat (4096 * table)
  let m := m.storeWords identityTable.toNat pageEntries fun entry =>
    UInt32.ofNat ((table * pageEntries + entry) * 4096) ||| pagePresent ||| pageWritable
  setEntry m K.kernelPageDirectory table (identityTable ||| pagePresent ||| pageWritable)

/-- The loop of `paging_initialize` over the identity tables. -/
def mapIdentity (m : Mem) : Mem := (List.range pageTableCount).foldl (identityRound K) m

/-- The loop of `paging_initialize` over the pages of the framebuffer, from `address` on, with
`slots` tables in use. Every round maps at least one page, so the number of pages bounds the
rounds; the inner loop of a round ends with the table or with the framebuffer. -/
def mapFramebuffer : ℕ → Mem → UInt32 → UInt32 → ℕ → Mem
  | 0, m, _, _, _ => m
  | n + 1, m, address, stop, slots =>
    let directory := directoryIndex address
    let index := tableIndex address
    let count := min (pageEntries - index) ((stop.toNat - address.toNat) / 4096)
    let fill := fun (m : Mem) =>
      m.storeWords ((pageOf (entry m K.kernelPageDirectory directory)).toNat + 4 * index) count
        fun j => (address + UInt32.ofNat (4096 * j)) ||| pagePresent ||| pageWritable
    let address' := address + UInt32.ofNat (4096 * count)
    if address ≥ stop then m
    else if isPresent (entry m K.kernelPageDirectory directory) then
      mapFramebuffer n (fill m) address' stop slots
    else if slots ≥ framebufferPageTableCount then m
    else
      let table := K.framebufferPageTables + UInt32.ofNat (4096 * slots)
      let m := zeroPageTable m table
      let m := setEntry m K.kernelPageDirectory directory (table ||| pagePresent ||| pageWritable)
      mapFramebuffer n (fill m) address' stop (slots + 1)

/-- The first two loops of `paging_initialize`: the directory and `owned_tables` are cleared. -/
def clearKernelSpace (m : Mem) : Mem :=
  let m := m.storeWords K.kernelPageDirectory.toNat pageEntries fun _ => pageWritable
  m.storeWords (L.ownedAt K.kernelSpace 0) pageEntries fun _ => 0

/-- `paging_initialize`, where the loader has passed a framebuffer of `size` bytes at `physical` to
`paging_set_boot_framebuffer`. -/
def pagingInitialize (m : Mem) (pmm : Pmm) (physical size : UInt32) : Paging :=
  let m := mapIdentity K (clearKernelSpace L K m)
  let m :=
    if physical ≠ 0 ∧ size ≠ 0 then
      let start := pageOf physical
      let stop := pageOf (physical + size + pageSize - 1)
      mapFramebuffer K ((stop.toNat - start.toNat) / 4096) m start stop 0
    else m
  ⟨m.store32 (L.directoryAt K.kernelSpace) K.kernelPageDirectory, pmm, K.kernelSpace⟩

end Initialize

/-! ### Address spaces -/

section Spaces

variable (L : SpaceLayout) (K : KernelStatics)

/-- `space->page_directory`. -/
def pageDirectory (st : Paging) (space : UInt32) : UInt32 := st.mem.load32 (L.directoryAt space)

/-- `space->owned_tables[i]`. -/
def ownedTable (st : Paging) (space : UInt32) (i : ℕ) : UInt32 :=
  st.mem.load32 (L.ownedAt space i)

/-- `paging_switch_address_space`. -/
def pagingSwitchAddressSpace (st : Paging) (space : UInt32) : Paging :=
  if space = 0 ∨ pageDirectory L st space = 0 then st else { st with currentSpace := space }

/-- `paging_create_address_space`. -/
def pagingCreateAddressSpace (st : Paging) : UInt32 × Paging :=
  let (space, pmm) := st.pmm.pmmAllocPage
  if space = 0 then (0, { st with pmm := pmm })
  else
    let m := st.mem.storeWords (L.ownedAt space 0) pageEntries fun _ => 0
    let (directory, pmm) := pmm.pmmAllocPage
    if directory = 0 then (0, { st with mem := m, pmm := pmm.pmmFreePage space })
    else
      let m := copyPageTable m directory K.kernelPageDirectory
      (space, { st with mem := m.store32 (L.directoryAt space) directory, pmm := pmm })

/-- One round of the loop of `paging_destroy_address_space`. -/
def freeOwnedTable (space : UInt32) (st : Paging) (i : ℕ) : Paging :=
  if ownedTable L st space i ≠ 0 then
    { st with
      pmm := st.pmm.pmmFreePage (ownedTable L st space i)
      mem := st.mem.store32 (L.ownedAt space i) 0 }
  else st

/-- `paging_destroy_address_space`. -/
def pagingDestroyAddressSpace (st : Paging) (space : UInt32) : Paging :=
  if space = 0 ∨ space = K.kernelSpace then st
  else
    let st := if st.currentSpace = space then pagingSwitchAddressSpace L st K.kernelSpace else st
    let st := (List.range pageEntries).foldl (freeOwnedTable L space) st
    let directory := pageDirectory L st space
    let st := if directory ≠ 0 then { st with pmm := st.pmm.pmmFreePage directory } else st
    { st with pmm := st.pmm.pmmFreePage space }

/-- `ensure_table`. -/
def ensureTable (st : Paging) (space : UInt32) (index : ℕ) (flags : UInt32) : UInt32 × Paging :=
  let directory := pageDirectory L st space
  let e := entry st.mem directory index
  if isPresent e = false then
    let (table, pmm) := st.pmm.pmmAllocPage
    if table = 0 then (0, { st with pmm := pmm })
    else
      let m := zeroPageTable st.mem table
      let m := m.store32 (L.ownedAt space index) table
      let m := setEntry m directory index
        (table ||| pagePresent ||| pageWritable ||| (flags &&& pageUser))
      (table, { st with mem := m, pmm := pmm })
  else
    let table := pageOf e
    if space ≠ K.kernelSpace ∧ ownedTable L st space index = 0 then
      let (privateTable, pmm) := st.pmm.pmmAllocPage
      if privateTable = 0 then (0, { st with pmm := pmm })
      else
        let m := copyPageTable st.mem privateTable table
        let m := m.store32 (L.ownedAt space index) privateTable
        let m := setEntry m directory index
          (privateTable ||| pagePresent ||| pageWritable ||| (flags &&& pageUser))
        (privateTable, { st with mem := m, pmm := pmm })
    else
      (table, { st with
        mem := setEntry st.mem directory index (e ||| (flags &&& (pageWritable ||| pageUser))) })

/-- `paging_map_page_in_space`. -/
def pagingMapPageInSpace (st : Paging) (space virtualAddress physicalAddress flags : UInt32) :
    Bool × Paging :=
  if space = 0 ∨ pageDirectory L st space = 0 then (false, st)
  else
    let virtualAddress := pageOf virtualAddress
    let physicalAddress := pageOf physicalAddress
    let (table, st) := ensureTable L K st space (directoryIndex virtualAddress) flags
    if table = 0 then (false, st)
    else
      let e := physicalAddress ||| pagePresent ||| flags
      (true, { st with mem := setEntry st.mem table (tableIndex virtualAddress) e })

/-- `paging_unmap_page_in_space`. -/
def pagingUnmapPageInSpace (st : Paging) (space virtualAddress : UInt32) : Paging :=
  if space = 0 ∨ pageDirectory L st space = 0 then st
  else
    let e := entry st.mem (pageDirectory L st space) (directoryIndex virtualAddress)
    if isPresent e = false then st
    else { st with mem := setEntry st.mem (pageOf e) (tableIndex virtualAddress) 0 }

/-- `paging_get_physical_in_space`. -/
def pagingGetPhysicalInSpace (st : Paging) (space virtualAddress : UInt32) : UInt32 :=
  if space = 0 ∨ pageDirectory L st space = 0 then 0
  else
    let e := entry st.mem (pageDirectory L st space) (directoryIndex virtualAddress)
    if isPresent e = false then 0
    else
      let t := entry st.mem (pageOf e) (tableIndex virtualAddress)
      if isPresent t = false then 0
      else pageOf t ||| (virtualAddress &&& (pageSize - 1))

/-- `paging_get_physical`. -/
def pagingGetPhysical (st : Paging) (virtualAddress : UInt32) : UInt32 :=
  pagingGetPhysicalInSpace L st st.currentSpace virtualAddress

end Spaces

end Paging

end MyOS
