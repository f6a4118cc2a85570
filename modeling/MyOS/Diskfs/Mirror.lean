import MyOS.Diskfs.Effects
import MyOS.Diskfs.Consistent

/-!
# Tables on disk

`Mirrors D t` says that the disk `D` holds the tables `t`: sector 0 decodes to the superblock,
sector 2 is the bitmap and sectors 3 to 10 decode to the inode table. Each write of the operations
moves the mirrored tables along (`Mirrors.superblock_write`, `Mirrors.bitmap_write`,
`Mirrors.inode_write`), and writes elsewhere do not disturb them (`Mirrors.congr`).
-/

namespace MyOS.Diskfs

open Function

/-- The sector of slot `i` in the `mkfs.py` layout. -/
def tableSector (i : Fin 64) : UInt32 := 3 + idx32 i / 8

theorem tableSector_toNat (i : Fin 64) : (tableSector i).toNat = 3 + i.val / 8 := by
  have hi := i.isLt
  have hdiv : (idx32 i / 8).toNat = i.val / 8 := by
    rw [UInt32.toNat_div, idx32_toNat]; rfl
  unfold tableSector
  rw [UInt32.toNat_add, hdiv]
  change (3 + i.val / 8) % 2 ^ 32 = 3 + i.val / 8
  omega

theorem inodeSector_of_layout {sb : Superblock} (h : sb.layout = mkfsLayout) (i : Fin 64) :
    inodeSector sb i = tableSector i := by
  unfold inodeSector
  rw [inodeStart_of_layout h]
  rfl

theorem tableSector_ne {i : Fin 64} {r : UInt32} (hr : r.toNat < 3 ∨ 11 ≤ r.toNat) :
    tableSector i ≠ r := by
  rintro rfl
  have hi := i.isLt
  rw [tableSector_toNat] at hr
  omega

/-- The disk holds the tables. -/
structure Mirrors (D : Disk) (t : Tables) : Prop where
  superblock : Superblock.ofBytes (D 0).get 0 = t.superblock
  bitmap : D 2 = t.bitmap
  inodes : ∀ i, Inode.ofBytes (D (tableSector i)).get (inodeOffset i) = t.inodes i

namespace Mirrors

variable {D D' : Disk} {t t' : Tables}

section

variable (h : Mirrors D t)
include h

theorem of_eq (heq : t = t') : Mirrors D t' := heq ▸ h

/-- Sector 1 and the data area do not matter. -/
theorem congr (hD : ∀ r : UInt32, r.toNat < 11 → r ≠ 1 → D' r = D r) :
    Mirrors D' t where
  superblock := by rw [hD 0 (by decide) (by decide)]; exact h.superblock
  bitmap := by rw [hD 2 (by decide) (by decide)]; exact h.bitmap
  inodes := fun i => by
    have hi := i.isLt
    rw [hD (tableSector i) (by rw [tableSector_toNat]; omega) (tableSector_ne (by decide))]
    exact h.inodes i

theorem superblock_write (sb : Superblock) :
    Mirrors (update D 0 (superblockSector sb)) { t with superblock := sb } where
  superblock := by
    rw [update_self]
    refine Superblock.ofBytes_of_byteAt fun i hi => ?_
    rw [Nat.zero_add]
    exact Bytes.get_splice_of_mem _ _ (by decide) (Nat.zero_le _) (by rwa [Nat.zero_add])
  bitmap := by rw [update_of_ne (by decide)]; exact h.bitmap
  inodes := fun i => by
    rw [update_of_ne (tableSector_ne (by decide))]
    exact h.inodes i

theorem bitmap_write (bitmap : Sector) :
    Mirrors (update D 2 bitmap) { t with bitmap := bitmap } where
  superblock := by rw [update_of_ne (by decide)]; exact h.superblock
  bitmap := update_self _ _ _
  inodes := fun i => by
    rw [update_of_ne (tableSector_ne (by decide))]
    exact h.inodes i

/-- Patching one slot leaves the others of its sector alone. -/
theorem inode_write (hl : t'.superblock.layout = mkfsLayout) (i : Fin 64) :
    Mirrors (patchInode t' i D) (t.setInode i (t'.inodes i)) := by
  unfold patchInode
  rw [inodeSector_of_layout hl]
  refine ⟨?_, ?_, fun j => ?_⟩
  · rw [update_of_ne (tableSector_ne (by decide)).symm]; exact h.superblock
  · rw [update_of_ne (tableSector_ne (by decide)).symm]; exact h.bitmap
  · by_cases hji : j = i
    · subst hji
      rw [update_self, setInode_self]
      refine Inode.ofBytes_of_byteAt fun k hk => ?_
      have hoff : inodeOffset j + Inode.bytes ≤ 512 := by
        unfold inodeOffset Inode.bytes; omega
      rw [Bytes.get_splice_of_mem _ _ hoff (by omega) (by omega), Nat.add_sub_cancel_left]
    · rw [setInode_of_ne _ _ hji, ← h.inodes j]
      by_cases hs : tableSector j = tableSector i
      · -- the same sector, at another offset
        have hsec := congrArg UInt32.toNat hs
        rw [tableSector_toNat, tableSector_toNat] at hsec
        have hne : j.val ≠ i.val := fun h => hji (Fin.ext h)
        rw [hs, update_self]
        refine Inode.ofBytes_congr fun k hk => ?_
        refine Bytes.get_splice_of_not_mem _ _ ?_
        unfold inodeOffset Inode.bytes at *
        omega
      · rw [update_of_ne hs]

/-- `write_journal` changes the marker and nothing else. -/
theorem journal_write (state : UInt32) :
    Mirrors (storeJournal (t.setJournal state) state D) (t.setJournal state) := by
  have hmir : Mirrors (update D 1 (journalSector state)) t :=
    h.congr fun r _ hr => update_of_ne hr _ _
  exact hmir.superblock_write _

end

end Mirrors

end MyOS.Diskfs
