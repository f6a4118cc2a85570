import MyOS.Diskfs.Alloc

/-!
# The operations of diskfs

The functions of `kernel/fs/diskfs/diskfs.c` that join the tables with the block layer: writing the
tables back, the journal marker, mounting, reading, and the four operations on files.

An operation that gets past its checks is a transaction: `begin_transaction`, a change of the tables
in memory, a chain of block writes joined by `&&` (`andThen`), `rebuild_file_list` and
`commit_transaction`. The chain stops at the first failure, and then the operation returns with the
tables already changed (`finishOp`).
-/

namespace MyOS.Diskfs

/-! ### Writing the tables back -/

/-- A step on the block layer that can fail. -/
abbrev BlockAction := BlockLayer → Bool × BlockLayer

/-- `f() && g()`. -/
def andThen (f g : BlockAction) : BlockAction := fun b =>
  let r := f b
  if r.1 then g r.2 else (false, r.2)

/-- `write_sector(sector, data) && diskfs_flush()`. -/
def writeThrough (sector : UInt32) (data : Sector) : BlockAction :=
  andThen (fun b => writeSector b sector data) diskfsFlush

/-- `write_bitmap`. -/
def writeBitmap (t : Tables) : BlockAction := writeThrough t.superblock.bitmapStart t.bitmap

/-- The sector of the inode table that holds slot `i`. -/
def inodeSector (sb : Superblock) (i : Fin 64) : UInt32 := sb.inodeStart + idx32 i / 8

/-- The offset of slot `i` in its sector. -/
def inodeOffset (i : Fin 64) : ℕ := i.val % 8 * Inode.bytes

/-- `write_inode`: the sector is read, patched and written back. -/
def writeInode (t : Tables) (i : Fin 64) : BlockAction := fun b =>
  let r := readSector b (inodeSector t.superblock i)
  match r.1 with
  | none => (false, r.2)
  | some sector => writeThrough (inodeSector t.superblock i)
      (sector.splice (inodeOffset i) (t.inodes i).byteAt Inode.bytes) r.2

/-- The sector `write_superblock` writes. -/
def superblockSector (sb : Superblock) : Sector := Bytes.zero.splice 0 sb.byteAt Superblock.size

/-- `write_superblock`. -/
def writeSuperblock (t : Tables) : BlockAction := writeThrough 0 (superblockSector t.superblock)

/-- The sector `write_journal` writes. -/
def journalSector (state : UInt32) : Sector :=
  ((Bytes.zero : Sector).splice 0 (leByte journalMagic) 4).splice 4 (leByte state) 4

/-- `superblock.journal_state = state`. -/
def Tables.setJournal (t : Tables) (state : UInt32) : Tables :=
  { t with superblock := { t.superblock with journalState := state } }

/-- The writes of `write_journal`, with `journal_state` already set. -/
def journalWrites (t : Tables) (state : UInt32) : BlockAction :=
  andThen (fun b => writeSector b 1 (journalSector state)) (writeSuperblock t)

/-- `write_journal`. -/
def writeJournal (s : Fs) (state : UInt32) : Bool × Fs :=
  let t := s.tables.setJournal state
  let w := journalWrites t state s.block
  (w.1, { s with tables := t, block := w.2 })

/-- `begin_transaction`. -/
def beginTransaction (s : Fs) : Bool × Fs := writeJournal s 1

/-- `commit_transaction`. -/
def commitTransaction (s : Fs) : Bool × Fs := writeJournal s 0

/-- The bytes at a buffer address. -/
abbrev Buffer := ℕ → UInt8

/-- The `k`-th sector `write_file_data` writes: its chunk of the data, padded with zeros. -/
def fileSector (buffer : Buffer) (size k : ℕ) : Sector :=
  Bytes.zero.splice 0 (fun j => buffer (k * 512 + j)) (min 512 (size - k * 512))

/-- The loop of `write_file_data` over the sectors still to write. -/
def writeChunks (first : UInt32) (buffer : Buffer) (size : ℕ) : List ℕ → BlockAction
  | [], b => (true, b)
  | k :: rest, b =>
    let w := writeSector b (first + UInt32.ofNat k) (fileSector buffer size k)
    if w.1 then writeChunks first buffer size rest w.2 else (false, w.2)

/-- `write_file_data`. -/
def writeFileData (first : UInt32) (buffer : Buffer) (size : UInt32) : BlockAction :=
  andThen (writeChunks first buffer size.toNat (List.range (sectorsForSize size).toNat)) diskfsFlush

/-! ### The visible file list -/

/-- The directory part of a visible name; only the parent itself is named. -/
def visibleDir (t : Tables) (parent : UInt32) : List UInt8 :=
  if h : parent.toNat < 64 then
    if parent ≠ idx32 rootInode ∧ (t.inodes ⟨parent.toNat, h⟩).type = typeDir then
      cstr (t.inodes ⟨parent.toNat, h⟩).name ++ [slash]
    else []
  else []

/-- The name of a file in the list, cut to fit `DISKFS_PATH_MAX`. -/
def visibleName (t : Tables) (i : Fin 64) : List UInt8 :=
  (slash :: (visibleDir t (t.inodes i).parent ++ cstr (t.inodes i).name)).take (pathMax - 1)

/-- `rebuild_file_list`. -/
def rebuildFileList (t : Tables) : List VisibleFile :=
  ((List.finRange 64).filter (fun i => decide (t.IsFile i))).map (fun i => ⟨i, visibleName t i⟩)

/-! ### Mounting -/

/-- The checks `diskfs_validate` makes on one slot. -/
def inodeValid (t : Tables) (i : Fin 64) : Bool :=
  let ino := t.inodes i
  ino.type == 0 ||
    ((i == rootInode || inodeNameValid ino.name.get) &&
     (i == rootInode || decide (ino.parent < t.superblock.inodeCount)) &&
     (ino.type != typeFile || (!decide (ino.firstSector < t.superblock.dataStart) &&
        !decide (ino.firstSector + ino.sectorCount > t.superblock.totalSectors) &&
        ino.sectorCount == sectorsForSize ino.size)))

/-- `diskfs_validate`. -/
def diskfsValidate (available : Bool) (t : Tables) : Bool :=
  available && t.superblock.magic == diskfsMagic && t.superblock.totalSectors == totalSectors &&
    decide (t.superblock.inodeCount.toNat ≤ 64) && (t.inodes rootInode).type == typeDir &&
    (List.finRange 64).all (fun i => !decide (t.InUse i) || inodeValid t i)

/-- The zeroed tables. -/
def Tables.zero : Tables := ⟨Superblock.zero, fun _ => Inode.zero, Bytes.zero⟩

/-- The inner loop of `diskfs_initialize`: the slots `base, …, base + 7` below 64 are copied from
`sector`. -/
def loadInodes (inodes : Fin 64 → Inode) (sector : Sector) (base : UInt32) : Fin 64 → Inode :=
  fun i => if idx32 i - base < 8 then
    Inode.ofBytes sector.get ((idx32 i - base).toNat * Inode.bytes) else inodes i

/-- The outer loop of `diskfs_initialize` over the sectors of the inode table still to read. -/
def readInodeTable (sb : Superblock) :
    List ℕ → (Fin 64 → Inode) → BlockLayer → Bool × (Fin 64 → Inode) × BlockLayer
  | [], inodes, b => (true, inodes, b)
  | k :: rest, inodes, b =>
    let r := rawReadSector b (sb.inodeStart + UInt32.ofNat k)
    match r.1 with
    | none => (false, inodes, r.2)
    | some sector => readInodeTable sb rest (loadInodes inodes sector (UInt32.ofNat k * 8)) r.2

/-- What the superblock check of `diskfs_initialize` accepts. -/
def superblockUsable (sb : Superblock) : Bool :=
  !(sb.magic != diskfsMagic || decide (sb.maxInodes > 64) || sb.bitmapSectors != 1 ||
    sb.totalSectors != totalSectors)

/-- The tables `diskfs_initialize` reads, and whether it got to the end of them. -/
def loadTables (b : BlockLayer) : Bool × Tables × BlockLayer :=
  let r := rawReadSector b 0
  match r.1 with
  | none => (false, Tables.zero, r.2)
  | some sector =>
    let sb := Superblock.ofBytes sector.get 0
    if superblockUsable sb then
      let m := rawReadSector r.2 sb.bitmapStart
      match m.1 with
      | none => (false, { Tables.zero with superblock := sb }, m.2)
      | some bitmap =>
        let n := readInodeTable sb (List.range sb.inodeSectors.toNat) (fun _ => Inode.zero) m.2
        (n.1, ⟨sb, n.2.1, bitmap⟩, n.2.2)
    else (false, { Tables.zero with superblock := sb }, r.2)

/-- The block layer `diskfs_initialize` starts with: an empty cache, and the clock where it was. -/
def remount (b : BlockLayer) (startLba : UInt32) : BlockLayer :=
  { b with fsStartLba := startLba, cache := fun _ => ⟨false, false, 0, Bytes.zero⟩ }

/-- `diskfs_initialize`, with the lines it writes to the serial port. -/
def diskfsInitialize (s : Fs) (startLba : UInt32) : Fs × List String :=
  let l := loadTables (remount s.block startLba)
  let fs : Fs := ⟨l.2.2, false, l.2.1, []⟩
  if l.1 && diskfsValidate true l.2.1 then
    let mounted := { fs with available := true }
    if l.2.1.superblock.journalState != 0 then
      let r := (writeJournal mounted 0).2
      ({ r with files := rebuildFileList r.tables },
        ["MyOS diskfs: recovered from dirty metadata journal marker.\n",
         "MyOS diskfs: mounted v2 directory filesystem.\n"])
    else
      ({ mounted with files := rebuildFileList l.2.1 },
        ["MyOS diskfs: mounted v2 directory filesystem.\n"])
  else (fs, [])

/-! ### Reading -/

/-- The loop of `diskfs_read_index`: whether it got to the end, and the bytes it copied. -/
def readLoop (first : UInt32) (offset size done : ℕ) (b : BlockLayer) :
    (Bool × List UInt8) × BlockLayer :=
  if _h : done < size then
    let absolute := offset + done
    let chunk := min (512 - absolute % 512) (size - done)
    let r := readSector b (first + UInt32.ofNat (absolute / 512))
    match r.1 with
    | none => ((false, []), r.2)
    | some sector =>
      let rest := readLoop first offset size (done + chunk) r.2
      ((rest.1.1, slice sector.get (absolute % 512) chunk ++ rest.1.2), rest.2)
  else ((true, []), b)
termination_by size - done
decreasing_by
  have : (offset + done) % 512 < 512 := Nat.mod_lt _ (by decide)
  omega

/-- `diskfs_read_index` into a buffer: the result and the bytes copied. An index of 64 or more is
refused by the test against `inode_count`, which a mounted filesystem bounds by 64. -/
def diskfsReadIndex (s : Fs) (index : Fin 64) (offset size : UInt32) : (Bool × List UInt8) × Fs :=
  if !s.available || !decide (s.tables.IsFile index) then ((false, []), s)
  else
    let ino := s.tables.inodes index
    if decide (offset ≥ ino.size) || size == 0 then ((true, []), s)
    else
      let size := if size > ino.size - offset then ino.size - offset else size
      let r := readLoop ino.firstSector offset.toNat size.toNat 0 s.block
      (r.1, { s with block := r.2 })

/-- `diskfs_index_size`. -/
def diskfsIndexSize (t : Tables) (index : Fin 64) : UInt32 :=
  if t.IsFile index then (t.inodes index).size else 0

/-! ### The operations -/

/-- The end of a transaction: with the tables changed to `t`, the block writes, and if they
succeed the file list and the commit. -/
def finishOp (s : Fs) (t : Tables) (writes : BlockAction) : Bool × Fs :=
  let w := writes s.block
  if w.1 then
    commitTransaction { s with tables := t, block := w.2, files := rebuildFileList t }
  else (false, { s with tables := t, block := w.2 })

/-- `diskfs_write_file` on an existing file, after `begin_transaction`. -/
def overwriteFile (s : Fs) (index : Fin 64) (buffer : Buffer) (size : UInt32) : Bool × Fs :=
  match resizeFile s.tables index size (sectorsForSize size) with
  | none => (false, (commitTransaction s).2)
  | some t => finishOp s t (andThen (writeFileData (t.inodes index).firstSector buffer size)
      (andThen (writeInode t index) (writeBitmap t)))

/-- `diskfs_write_file` on a new file, after `begin_transaction`. -/
def createFile (s : Fs) (parent : Fin 64) (leaf : List UInt8) (buffer : Buffer) (size : UInt32) :
    Bool × Fs :=
  match newFile s.tables (idx32 parent) leaf size (sectorsForSize size) with
  | (none, t) => (false, (commitTransaction { s with tables := t }).2)
  | (some index, t) =>
    finishOp s t (andThen (writeFileData (t.inodes index).firstSector buffer size)
      (andThen (writeInode t index) (andThen (writeSuperblock t) (writeBitmap t))))

/-- The parent and the leaf an operation gets from a path, when it may go on with them. -/
def parentAndLeaf (t : Tables) (path : CString) : Option (Fin 64 × List UInt8) :=
  (ensureParentDir t path).filter (fun r => inodeNameValid (fun i => r.2.getD i 0))

/-- `diskfs_write_file`; `none` is the null pointer. -/
def diskfsWriteFile (s : Fs) (path : Option CString) (buffer : Option Buffer) (size : UInt32) :
    Bool × Fs :=
  match path, buffer with
  | some path, some buffer =>
    if !s.available || decide (size > maxFileSize) then (false, s)
    else
      match parentAndLeaf s.tables path with
      | none => (false, s)
      | some (parent, leaf) =>
        let begun := beginTransaction s
        if begun.1 then
          match findChild s.tables (idx32 parent) leaf typeFile with
          | some index => overwriteFile begun.2 index buffer size
          | none => createFile begun.2 parent leaf buffer size
        else (false, begun.2)
  | _, _ => (false, s)

/-- `diskfs_delete_file`. -/
def diskfsDeleteFile (s : Fs) (path : Option CString) : Bool × Fs :=
  match diskfsFindFile s.tables path with
  | none => (false, s)
  | some index =>
    let begun := beginTransaction s
    if begun.1 then
      let t := removeFile begun.2.tables index
      finishOp begun.2 t (andThen (writeInode t index) (writeBitmap t))
    else (false, begun.2)

/-- `diskfs_rename_file`. -/
def diskfsRenameFile (s : Fs) (oldPath : Option CString) (newPath : CString) : Bool × Fs :=
  match diskfsFindFile s.tables oldPath, parentAndLeaf s.tables newPath with
  | some index, some (parent, leaf) =>
    match findChild s.tables (idx32 parent) leaf 0 with
    | some _ => (false, s)
    | none =>
      let begun := beginTransaction s
      if begun.1 then
        let t := moveFile begun.2.tables index (idx32 parent) leaf
        finishOp begun.2 t (writeInode t index)
      else (false, begun.2)
  | _, _ => (false, s)

/-- `diskfs_truncate_file`. The result of the read is ignored, so `file_buffer` holds whatever it
copied, over zeros. -/
def diskfsTruncateFile (s : Fs) (path : Option CString) (size : UInt32) : Bool × Fs :=
  if size > maxFileSize then (false, s)
  else
    match diskfsFindFile s.tables path with
    | none => if size == 0 then diskfsWriteFile s path (some (fun _ => 0)) 0 else (false, s)
    | some index =>
      let ino := s.tables.inodes index
      if size == ino.size then (true, s)
      else if size == 0 then diskfsWriteFile s path (some (fun _ => 0)) 0
      else if ino.size > readBufferSize || size > readBufferSize then (false, s)
      else
        let r := diskfsReadIndex s index 0 ino.size
        diskfsWriteFile r.2 path (some (fun k => r.1.2.getD k 0)) size

/-- A call that may change the filesystem. -/
inductive Op where
  | write (path : Option CString) (buffer : Option Buffer) (size : UInt32)
  | delete (path : Option CString)
  | rename (oldPath : Option CString) (newPath : CString)
  | truncate (path : Option CString) (size : UInt32)

/-- The answer and the state after a call. -/
def Op.exec (s : Fs) : Op → Bool × Fs
  | .write path buffer size => diskfsWriteFile s path buffer size
  | .delete path => diskfsDeleteFile s path
  | .rename oldPath newPath => diskfsRenameFile s oldPath newPath
  | .truncate path size => diskfsTruncateFile s path size

end MyOS.Diskfs
