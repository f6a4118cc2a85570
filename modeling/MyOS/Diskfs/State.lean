import MyOS.Diskfs.Block
import MyOS.Diskfs.Format
import MyOS.Lib.Word

/-!
# The state of diskfs

The file-scope variables of `kernel/fs/diskfs/diskfs.c`, in three parts: the block layer, the
tables (superblock, inode table and allocation bitmap, the metadata that is mirrored on disk), and
the visible file list that `rebuild_file_list` derives from the tables.

The visible list holds the first `visible_file_count` entries of `file_indices` and `file_names`;
the static `file_buffer` is local to the functions that fill it before every use.
-/

namespace MyOS.Diskfs

/-- `DISKFS_MAGIC`. -/
def diskfsMagic : UInt32 := 0x3246594D

/-- `DISKFS_JOURNAL_MAGIC`. -/
def journalMagic : UInt32 := 0x324E524A

/-- `DISKFS_NAME_MAX`. -/
def nameMax : ℕ := 31

/-- `DISKFS_PATH_MAX`. -/
def pathMax : ℕ := 64

/-- `DISKFS_READ_BUFFER_SIZE`. -/
def readBufferSize : UInt32 := 16384

/-- `DISKFS_MAX_FILE_SIZE`. -/
def maxFileSize : UInt32 := 1048576

/-- `DISKFS_ROOT_INODE`. -/
def rootInode : Fin 64 := 0

/-- An index of the inode table as the 32-bit value stored in inodes. -/
def idx32 (i : Fin 64) : UInt32 := UInt32.ofNat i.val

theorem idx32_toNat (i : Fin 64) : (idx32 i).toNat = i.val :=
  UInt32.toNat_ofNat_of_lt' (by unfold UInt32.size; omega)

theorem idx32_injective : Function.Injective idx32 := by
  intro i j h
  have := congrArg UInt32.toNat h
  rw [idx32_toNat, idx32_toNat] at this
  exact Fin.ext this

@[simp] theorem idx32_inj {i j : Fin 64} : idx32 i = idx32 j ↔ i = j := idx32_injective.eq_iff

/-- The metadata of the filesystem: `superblock`, `inodes` and `bitmap`. -/
@[ext] structure Tables where
  superblock : Superblock
  inodes : Fin 64 → Inode
  bitmap : Sector

namespace Tables

/-- Assignment to one inode. -/
def setInode (t : Tables) (i : Fin 64) (ino : Inode) : Tables :=
  { t with inodes := Function.update t.inodes i ino }

/-- `i < superblock.inode_count`. -/
def InUse (t : Tables) (i : Fin 64) : Prop := i.val < t.superblock.inodeCount.toNat

instance (t : Tables) (i : Fin 64) : Decidable (t.InUse i) := inferInstanceAs (Decidable (_ < _))

/-- A live file: a slot below `inode_count` of type file. -/
def IsFile (t : Tables) (i : Fin 64) : Prop := t.InUse i ∧ (t.inodes i).type = typeFile

instance (t : Tables) (i : Fin 64) : Decidable (t.IsFile i) := inferInstanceAs (Decidable (_ ∧ _))

end Tables

/-- One entry of the visible file list: `file_indices[k]` and `file_names[k]`. -/
structure VisibleFile where
  index : Fin 64
  name : List UInt8
deriving DecidableEq, Repr

/-- The state of diskfs. -/
structure Fs where
  block : BlockLayer
  available : Bool
  tables : Tables
  files : List VisibleFile

/-- A NUL-terminated string, as its bytes before the NUL. -/
structure CString where
  bytes : List UInt8
  nul_free : (0 : UInt8) ∉ bytes

end MyOS.Diskfs
