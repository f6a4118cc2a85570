import MyOS.Paging.Basic
import MyOS.User.Process

/-!
# Running a program

`run_loaded_image` of `kernel/core/usermode.c` and the functions that call it. It takes a page for
the stack, an address space and sixteen pages for the image, maps and fills them, starts a process
and enters user mode; every step has its own way back. `loadImage` is the part before the process is
allocated. Only its last step looks at the image (`Loaded.fill`), what comes before is
`prepareImage`.

`usermode_enter` is a parameter: it is given the entry, the stack and the state, and returns the
exit code and the state in which the program has ended. The image is read through a pointer into
memory of the kernel that no page of the allocator overlaps (a file buffer or `load_image`), so it
is a function on offsets; the files are lists of bytes.
-/

namespace MyOS

open Paging

/-- `USER_PAGE_FLAGS`. -/
def userPageFlags : UInt32 := 0x6

/-- `USER_PROGRAM_BASE`. -/
def userProgramBase : UInt32 := 0x00400000

/-- `USER_IMAGE_PAGES`. -/
def userImagePages : ℕ := 16

/-- `USER_IMAGE_PAGES * PAGE_SIZE`. -/
def userImageSize : UInt32 := 0x00010000

/-- `USER_STACK_BASE`. -/
def userStackBase : UInt32 := 0x00410000

/-- The address of the page `i` of the image. -/
def imageAddress (i : ℕ) : UInt32 := userProgramBase + UInt32.ofNat (4096 * i)

/-- The state that the functions of `usermode.c` work on. -/
structure UserState where
  paging : Paging
  processes : Processes

/-! ### Loading an image -/

/-- The loop that allocates `n` more pages, and the pages that it had when it failed. -/
def allocImagePages : ℕ → List UInt32 → Pmm → Except (List UInt32 × Pmm) (List UInt32 × Pmm)
  | 0, pages, pmm => .ok (pages, pmm)
  | n + 1, pages, pmm =>
    let (page, pmm) := pmm.pmmAllocPage
    if page = 0 then .error (pages, pmm) else allocImagePages n (pages ++ [page]) pmm

/-- The loop that maps the pages of the image from the page `i` on; where it fails, at which page.
-/
def mapImagePages (L : SpaceLayout) (K : KernelStatics) (space : UInt32) :
    List UInt32 → ℕ → Paging → Except (ℕ × Paging) Paging
  | [], _, st => .ok st
  | page :: pages, i, st =>
    match pagingMapPageInSpace L K st space (imageAddress i) page userPageFlags with
    | (true, st) => mapImagePages L K space pages (i + 1) st
    | (false, st) => .error (i, st)

/-- `pmm_free_page`. -/
def freePage (st : Paging) (page : UInt32) : Paging := { st with pmm := st.pmm.pmmFreePage page }

/-- The loop that frees pages of the image. -/
def freeImagePages (st : Paging) (pages : List UInt32) : Paging := pages.foldl freePage st

/-- The loop that unmaps the first `n` pages of the image. -/
def unmapImagePages (L : SpaceLayout) (space : UInt32) (st : Paging) (n : ℕ) : Paging :=
  (List.range n).foldl (fun st i => pagingUnmapPageInSpace L st space (imageAddress i)) st

/-- The loop that unmaps and frees the pages of the image. -/
def dropImagePages (L : SpaceLayout) (space : UInt32) (st : Paging)
    (pages : List UInt32) : Paging :=
  pages.zipIdx.foldl
    (fun st page => freePage (pagingUnmapPageInSpace L st space (imageAddress page.2)) page.1) st

/-- The loops that clear the pages. -/
def clearPages (m : Mem) (pages : List UInt32) : Mem :=
  pages.foldl (fun m page => m.storeBytes page.toNat 4096 fun _ => 0) m

/-- The loop that copies the image into its pages, from the page `n` on. -/
def copyFrom (m : Mem) (pages : List UInt32) (n : ℕ) (image : ℕ → UInt8) (size : ℕ) : Mem :=
  (pages.zipIdx n).foldl
    (fun m page => m.storeBytes page.1.toNat (min 4096 (size - 4096 * page.2))
      fun k => image (4096 * page.2 + k)) m

/-- What `run_loaded_image` holds when it allocates the process. -/
structure Loaded where
  space : UInt32
  stackPage : UInt32
  imagePages : List UInt32
  paging : Paging

/-- The part of `run_loaded_image` that takes and maps the pages. -/
def prepareImage (L : SpaceLayout) (K : KernelStatics) (st : Paging) : Except (ℤ × Paging) Loaded :=
  let (stackPage, pmm) := st.pmm.pmmAllocPage
  let (space, st) := pagingCreateAddressSpace L K { st with pmm := pmm }
  if stackPage = 0 ∨ space = 0 then
    let st := if space ≠ 0 then pagingDestroyAddressSpace L K st space else st
    let st := if stackPage ≠ 0 then freePage st stackPage else st
    .error (-22, st)
  else
    match allocImagePages userImagePages [] st.pmm with
    | .error (pages, pmm) =>
      let st := freeImagePages { st with pmm := pmm } pages
      .error (-22, freePage (pagingDestroyAddressSpace L K st space) stackPage)
    | .ok (pages, pmm) =>
      match mapImagePages L K space pages 0 { st with pmm := pmm } with
      | .error (i, st) =>
        let st := freeImagePages (unmapImagePages L space st i) pages
        .error (-23, freePage (pagingDestroyAddressSpace L K st space) stackPage)
      | .ok st =>
        match pagingMapPageInSpace L K st space userStackBase stackPage userPageFlags with
        | (false, st) =>
          let st := dropImagePages L space st pages
          .error (-24, freePage (pagingDestroyAddressSpace L K st space) stackPage)
        | (true, st) => .ok ⟨space, stackPage, pages, st⟩

/-- The loops that clear the pages and copy the image. -/
def Loaded.fill (l : Loaded) (image : ℕ → UInt8) (size : ℕ) : Loaded :=
  { l with paging := { l.paging with
      mem := copyFrom (clearPages l.paging.mem (l.imagePages ++ [l.stackPage])) l.imagePages 0 image
        size } }

/-- `run_loaded_image` up to the allocation of the process. -/
def loadImage (L : SpaceLayout) (K : KernelStatics) (st : Paging) (entry : UInt32)
    (image : ℕ → UInt8) (imageSize : UInt32) : Except (ℤ × Paging) Loaded :=
  if entry < userProgramBase ∨ entry ≥ userProgramBase + userImageSize ∨
    imageSize > userImageSize then
    .error (-21, st)
  else (prepareImage L K st).map fun l => l.fill image imageSize.toNat

/-- `run_loaded_image`. -/
def runLoadedImage (L : SpaceLayout) (K : KernelStatics)
    (usermodeEnter : UInt32 → UInt32 → UserState → ℤ × UserState) (st : UserState)
    (name : List UInt8) (entry : UInt32) (image : ℕ → UInt8) (imageSize : UInt32) : ℤ × UserState :=
  match loadImage L K st.paging entry image imageSize with
  | .error (code, paging) => (code, { st with paging := paging })
  | .ok loaded =>
    match st.processes.allocateProcess name entry with
    | none =>
      let paging := pagingUnmapPageInSpace L loaded.paging loaded.space userStackBase
      let paging := dropImagePages L loaded.space paging loaded.imagePages
      (-25, { st with
        paging := freePage (pagingDestroyAddressSpace L K paging loaded.space) loaded.stackPage })
    | some (i, processes) =>
      let processes := processes.update i fun e => { e with addressSpace := loaded.space }
      let (exitCode, st) := usermodeEnter entry (userStackBase + pageSize)
        ⟨pagingSwitchAddressSpace L loaded.paging loaded.space, processes⟩
      let paging := pagingSwitchAddressSpace L st.paging K.kernelSpace
      let processes := st.processes.update i fun e =>
        { e with exitCode := exitCode, state := .exited }
      let processes := processes.userProcessCloseAll
      let paging := pagingUnmapPageInSpace L paging loaded.space userStackBase
      let paging := freePage paging loaded.stackPage
      let paging := dropImagePages L loaded.space paging loaded.imagePages
      let paging := pagingDestroyAddressSpace L K paging loaded.space
      let processes := processes.update i fun e => { e with addressSpace := 0 }
      (exitCode, ⟨paging, { processes with current := none }⟩)

/-! ### Executable files -/

section Formats

variable (L : SpaceLayout) (K : KernelStatics)
  (usermodeEnter : UInt32 → UInt32 → UserState → ℤ × UserState)

/-- The byte at an offset of a file. -/
def fileByte (file : List UInt8) (i : ℕ) : UInt8 := file.getD i 0

/-- `run_mexe_program`. The fields of `struct user_exec_header` are at the offsets 0, 4 and 8. -/
def runMexeProgram (st : UserState) (name file : List UInt8) : ℤ × UserState :=
  let fileSize := UInt32.ofNat file.length
  if fileSize < 16 then (-10, st)
  else
    let magic := le32 (fileByte file) 0
    let entryOffset := le32 (fileByte file) 4
    let imageSize := le32 (fileByte file) 8
    if magic ≠ 0x4558454D ∨ entryOffset ≥ imageSize ∨ imageSize > userImageSize then (-11, st)
    else if 16 + imageSize > fileSize then (-12, st)
    else
      runLoadedImage L K usermodeEnter st name (userProgramBase + entryOffset)
        (fun i => fileByte file (16 + i)) imageSize

/-- `struct elf32_program_header`. -/
structure ProgramHeader where
  type : UInt32
  offset : UInt32
  vaddr : UInt32
  filesz : UInt32
  memsz : UInt32

/-- The program header at an offset of the file. -/
def programHeader (file : List UInt8) (off : ℕ) : ProgramHeader where
  type := le32 (fileByte file) off
  offset := le32 (fileByte file) (off + 4)
  vaddr := le32 (fileByte file) (off + 8)
  filesz := le32 (fileByte file) (off + 16)
  memsz := le32 (fileByte file) (off + 20)

/-- The loop of `run_elf_program` over `n` program headers from the header `i` on: `load_image`, and
`loaded`. -/
def loadSegments (file : List UInt8) (phoff : UInt32) :
    ℕ → ℕ → Mem → Bool → Except ℤ (Mem × Bool)
  | 0, _, loadImage, loaded => .ok (loadImage, loaded)
  | n + 1, i, loadImage, loaded =>
    let ph := programHeader file (phoff.toNat + 32 * i)
    if ph.type ≠ 1 then loadSegments file phoff n (i + 1) loadImage loaded
    else if ph.vaddr < userProgramBase ∨ ph.vaddr + ph.memsz < ph.vaddr ∨
        ph.vaddr + ph.memsz > userProgramBase + userImageSize then .error (-34)
    else if ph.offset + ph.filesz > UInt32.ofNat file.length ∨
      ph.filesz > ph.memsz then .error (-35)
    else
      let destination := ph.vaddr - userProgramBase
      loadSegments file phoff n (i + 1)
        (loadImage.storeBytes destination.toNat ph.filesz.toNat fun j =>
          fileByte file (ph.offset + UInt32.ofNat j).toNat) true

/-- `run_elf_program`. -/
def runElfProgram (st : UserState) (name file : List UInt8) : ℤ × UserState :=
  let fileSize := UInt32.ofNat file.length
  let ident := fileByte file
  let phentsize := le16 (fileByte file) 42
  let phnum := le16 (fileByte file) 44
  let entry := le32 (fileByte file) 24
  let phoff := le32 (fileByte file) 28
  if fileSize < 52 then (-30, st)
  else if ident 0 ≠ 0x7F ∨ ident 1 ≠ 0x45 ∨ ident 2 ≠ 0x4C ∨ ident 3 ≠ 0x46 then (-31, st)
  else if ident 4 ≠ 1 ∨ ident 5 ≠ 1 ∨ le16 (fileByte file) 16 ≠ 2 ∨ le16 (fileByte file) 18 ≠ 3 ∨
      le32 (fileByte file) 20 ≠ 1 ∨ phentsize ≠ 32 then (-32, st)
  else if phnum = 0 ∨ phoff + phnum.toUInt32 * 32 > fileSize then (-33, st)
  else if entry < userProgramBase ∨ entry ≥ userProgramBase + userImageSize then (-37, st)
  else
    match loadSegments file phoff phnum.toNat 0 ⟨fun _ => 0⟩ false with
    | .error code => (code, st)
    | .ok (loadImage, loaded) =>
      if loaded = false then (-36, st)
      else runLoadedImage L K usermodeEnter st name entry (fun i => loadImage i) userImageSize

/-- `usermode_run_program`, where `diskfs_read_file` has returned `file`. -/
def usermodeRunProgram (st : UserState) (name : List UInt8) (file : Option (List UInt8)) :
    ℤ × UserState :=
  match file with
  | none => (-10, st)
  | some file =>
    if UInt32.ofNat file.length < 4 then (-10, st)
    else if fileByte file 0 = 0x7F ∧ fileByte file 1 = 0x45 ∧ fileByte file 2 = 0x4C ∧
        fileByte file 3 = 0x46 then runElfProgram L K usermodeEnter st name file
    else runMexeProgram L K usermodeEnter st name file

end Formats

end MyOS
