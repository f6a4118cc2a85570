import MyOS.Lib.Bytes
import Mathlib.Tactic.IntervalCases

/-!
# The on-disk format of diskfs

`struct diskfs_superblock` and `struct diskfs_inode` of `kernel/fs/diskfs/diskfs.c`, both packed,
with the byte layout that `mem_copy` between the structures and a sector relies on. `byteAt` is the
structure seen as memory; `ofBytes` reads it back. `Superblock.ofBytes_of_byteAt` and
`Inode.ofBytes_of_byteAt` are the round trips.
-/

namespace MyOS.Diskfs

/-! ### Superblock -/

/-- `struct diskfs_superblock`, 40 bytes. -/
@[ext] structure Superblock where
  magic : UInt32
  totalSectors : UInt32
  maxInodes : UInt32
  inodeCount : UInt32
  bitmapStart : UInt32
  bitmapSectors : UInt32
  inodeStart : UInt32
  inodeSectors : UInt32
  dataStart : UInt32
  journalState : UInt32
deriving DecidableEq, Repr

namespace Superblock

/-- `sizeof(struct diskfs_superblock)`. -/
def size : ℕ := 40

/-- The fields in memory order. -/
def words (sb : Superblock) : List UInt32 :=
  [sb.magic, sb.totalSectors, sb.maxInodes, sb.inodeCount, sb.bitmapStart, sb.bitmapSectors,
    sb.inodeStart, sb.inodeSectors, sb.dataStart, sb.journalState]

/-- The `i`-th byte of the structure. -/
def byteAt (sb : Superblock) (i : ℕ) : UInt8 := leByte (sb.words.getD (i / 4) 0) (i % 4)

/-- The structure stored at offset `off`. -/
def ofBytes (f : ℕ → UInt8) (off : ℕ) : Superblock where
  magic := le32 f off
  totalSectors := le32 f (off + 4)
  maxInodes := le32 f (off + 8)
  inodeCount := le32 f (off + 12)
  bitmapStart := le32 f (off + 16)
  bitmapSectors := le32 f (off + 20)
  inodeStart := le32 f (off + 24)
  inodeSectors := le32 f (off + 28)
  dataStart := le32 f (off + 32)
  journalState := le32 f (off + 36)

/-- `mem_zero(&superblock, sizeof(superblock))`. -/
def zero : Superblock := ⟨0, 0, 0, 0, 0, 0, 0, 0, 0, 0⟩

/-- **Superblock round trip.** -/
theorem ofBytes_of_byteAt {f : ℕ → UInt8} {off : ℕ} {sb : Superblock}
    (h : ∀ i < size, f (off + i) = sb.byteAt i) : ofBytes f off = sb := by
  have word : ∀ (w : ℕ) (hw : w < 10), le32 f (off + 4 * w) = sb.words.getD w 0 := by
    intro w hw
    refine le32_of_leByte (fun k hk => ?_)
    rw [Nat.add_assoc, h (4 * w + k) (by unfold size; omega), byteAt]
    rw [show (4 * w + k) / 4 = w by omega, show (4 * w + k) % 4 = k by omega]
  apply Superblock.ext
  · exact word 0 (by decide)
  · exact word 1 (by decide)
  · exact word 2 (by decide)
  · exact word 3 (by decide)
  · exact word 4 (by decide)
  · exact word 5 (by decide)
  · exact word 6 (by decide)
  · exact word 7 (by decide)
  · exact word 8 (by decide)
  · exact word 9 (by decide)

end Superblock

/-! ### Inodes -/

/-- `DISKFS_TYPE_FILE`. -/
def typeFile : UInt8 := 1

/-- `DISKFS_TYPE_DIR`. -/
def typeDir : UInt8 := 2

/-- `struct diskfs_inode`, 64 bytes. -/
@[ext] structure Inode where
  type : UInt8
  reserved0 : UInt8
  flags : UInt16
  size : UInt32
  firstSector : UInt32
  sectorCount : UInt32
  parent : UInt32
  name : Bytes 32
  reserved : Bytes 12
deriving DecidableEq

namespace Inode

/-- `DISKFS_INODE_SIZE`. -/
def bytes : ℕ := 64

/-- The `i`-th byte of the structure. -/
def byteAt (ino : Inode) (i : ℕ) : UInt8 :=
  if i = 0 then ino.type
  else if i = 1 then ino.reserved0
  else if i = 2 then UInt8.ofNat ino.flags.toNat
  else if i = 3 then UInt8.ofNat (ino.flags.toNat / 256)
  else if i < 8 then leByte ino.size (i - 4)
  else if i < 12 then leByte ino.firstSector (i - 8)
  else if i < 16 then leByte ino.sectorCount (i - 12)
  else if i < 20 then leByte ino.parent (i - 16)
  else if i < 52 then ino.name.get (i - 20)
  else ino.reserved.get (i - 52)

/-- The structure stored at offset `off`. -/
def ofBytes (f : ℕ → UInt8) (off : ℕ) : Inode where
  type := f off
  reserved0 := f (off + 1)
  flags := le16 f (off + 2)
  size := le32 f (off + 4)
  firstSector := le32 f (off + 8)
  sectorCount := le32 f (off + 12)
  parent := le32 f (off + 16)
  name := Bytes.ofFun (fun i => f (off + 20 + i))
  reserved := Bytes.ofFun (fun i => f (off + 52 + i))

/-- `mem_zero(&inodes[i], sizeof(struct diskfs_inode))`. -/
def zero : Inode := ⟨0, 0, 0, 0, 0, 0, 0, Bytes.zero, Bytes.zero⟩

/-- The bytes behind the fields: the name, and the reserved ones. -/
theorem byteAt_of_ge {ino : Inode} {i : ℕ} (h : 20 ≤ i) :
    ino.byteAt i = if i < 52 then ino.name.get (i - 20) else ino.reserved.get (i - 52) := by
  unfold byteAt
  rw [if_neg (by omega), if_neg (by omega), if_neg (by omega), if_neg (by omega),
    if_neg (by omega), if_neg (by omega), if_neg (by omega), if_neg (by omega)]

/-- **Inode round trip.** -/
theorem ofBytes_of_byteAt {f : ℕ → UInt8} {off : ℕ} {ino : Inode}
    (h : ∀ i < bytes, f (off + i) = ino.byteAt i) : ofBytes f off = ino := by
  have word : ∀ (o : ℕ) (v : UInt32), o + 4 ≤ bytes →
      (∀ k < 4, ino.byteAt (o + k) = leByte v k) → le32 f (off + o) = v := by
    intro o v ho hv
    refine le32_of_leByte (fun k hk => ?_)
    rw [Nat.add_assoc, h (o + k) (by omega)]
    exact hv k hk
  apply Inode.ext
  · exact h 0 (by decide)
  · exact h 1 (by decide)
  · refine le16_of_leByte (h 2 (by decide)) ?_
    exact h 3 (by decide)
  · refine word 4 _ (by decide) (fun k hk => ?_)
    interval_cases k <;> rfl
  · refine word 8 _ (by decide) (fun k hk => ?_)
    interval_cases k <;> rfl
  · refine word 12 _ (by decide) (fun k hk => ?_)
    interval_cases k <;> rfl
  · refine word 16 _ (by decide) (fun k hk => ?_)
    interval_cases k <;> rfl
  · refine Bytes.ext_get (fun i hi => ?_)
    rw [ofBytes]
    rw [Bytes.get_ofFun hi, Nat.add_assoc, h (20 + i) (by unfold bytes; omega)]
    rw [byteAt_of_ge (by omega), if_pos (by omega), Nat.add_sub_cancel_left]
  · refine Bytes.ext_get (fun i hi => ?_)
    rw [ofBytes]
    rw [Bytes.get_ofFun hi, Nat.add_assoc, h (52 + i) (by unfold bytes; omega)]
    rw [byteAt_of_ge (by omega), if_neg (by omega), Nat.add_sub_cancel_left]

/-- The inode at `off` depends on its own bytes only. -/
theorem ofBytes_congr {f g : ℕ → UInt8} {off off' : ℕ}
    (h : ∀ i < bytes, f (off + i) = g (off' + i)) : ofBytes f off = ofBytes g off' := by
  have word : ∀ o, o + 4 ≤ bytes → le32 f (off + o) = le32 g (off' + o) := by
    intro o ho
    refine le32_congr (fun k hk => ?_)
    rw [Nat.add_assoc, Nat.add_assoc]
    exact h (o + k) (by omega)
  apply Inode.ext
  · exact h 0 (by decide)
  · exact h 1 (by decide)
  · refine le16_congr (fun k hk => ?_)
    rw [Nat.add_assoc, Nat.add_assoc]
    exact h (2 + k) (by unfold bytes; omega)
  · exact word 4 (by decide)
  · exact word 8 (by decide)
  · exact word 12 (by decide)
  · exact word 16 (by decide)
  · refine Bytes.ext_get (fun i hi => ?_)
    simp only [ofBytes]
    rw [Bytes.get_ofFun hi, Bytes.get_ofFun hi, Nat.add_assoc, Nat.add_assoc]
    exact h (20 + i) (by unfold bytes; omega)
  · refine Bytes.ext_get (fun i hi => ?_)
    simp only [ofBytes]
    rw [Bytes.get_ofFun hi, Bytes.get_ofFun hi, Nat.add_assoc, Nat.add_assoc]
    exact h (52 + i) (by unfold bytes; omega)

end Inode

end MyOS.Diskfs
