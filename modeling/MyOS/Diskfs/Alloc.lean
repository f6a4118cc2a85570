import MyOS.Diskfs.Path
import MyOS.Lib.Bitmap
import MyOS.Lib.ExtentAlloc
import MyOS.Lib.FirstFit

/-!
# Allocation in diskfs

`alloc_inode`, `alloc_contiguous`, `free_extent` and `sectors_for_size` of
`kernel/fs/diskfs/diskfs.c`, and the four changes that the operations make to the tables with them:
a file is resized, created, removed or moved. All of it is about the tables alone:
`MyOS.Diskfs.Consistent` shows what the changes keep, and the order in which the tables are written
to disk is the subject of `MyOS.Diskfs.Ops`.
-/

namespace MyOS.Diskfs

open ExtentAlloc

/-! ### The allocator -/

/-- `bitmap_get`. -/
def bitmapGet (t : Tables) (sector : UInt32) : Bool := Bitmap.testBit t.bitmap sector.toNat

/-- The sectors `first, first + 1, …` of an extent, as the 32-bit sums the loops compute. -/
def extentSectors (first sectors : UInt32) : List ℕ :=
  (List.range sectors.toNat).map (fun i => (first + UInt32.ofNat i).toNat)

/-- `alloc_inode`: the first slot past the root that is beyond `inode_count` or free. -/
def allocInode (t : Tables) : Option (Fin 64) × Tables :=
  match (List.finRange 64).find? (fun i => decide (1 ≤ i.val) &&
      (!decide (t.InUse i) || (t.inodes i).type == 0)) with
  | none => (none, t)
  | some i =>
    (some i, if t.InUse i then t
      else { t with superblock := { t.superblock with inodeCount := idx32 i + 1 } })

/-- `alloc_contiguous`: the first sector of the run, and the tables with its bits set. -/
def allocContiguous (t : Tables) (sectors : UInt32) : Option UInt32 × Tables :=
  match FirstFit.scan (Bitmap.testBit t.bitmap) sectors.toNat
      (t.superblock.totalSectors.toNat - t.superblock.dataStart.toNat)
      t.superblock.dataStart.toNat t.superblock.dataStart.toNat 0 with
  | none => (none, t)
  | some runStart =>
    (some (UInt32.ofNat runStart),
      { t with bitmap :=
          Bitmap.putBits t.bitmap (extentSectors (UInt32.ofNat runStart) sectors) true })

/-- The sectors whose bits `free_extent` clears: its loop ends at the first one that is not below
`total_sectors`. -/
def freedSectors (t : Tables) (first sectors : UInt32) : List ℕ :=
  (extentSectors first sectors).takeWhile (fun n => decide (n < t.superblock.totalSectors.toNat))

/-- `free_extent`. -/
def freeExtent (t : Tables) (first sectors : UInt32) : Tables :=
  { t with bitmap := Bitmap.putBits t.bitmap (freedSectors t first sectors) false }

/-- `sectors_for_size`. -/
def sectorsForSize (size : UInt32) : UInt32 :=
  let sectors := (size + 512 - 1) / 512
  if sectors == 0 then 1 else sectors

/-! ### Changes to the tables -/

/-- An inode with another extent and size. -/
def Inode.withExtent (ino : Inode) (first sectors size : UInt32) : Inode :=
  { ino with firstSector := first, sectorCount := sectors, size := size }

/-- The in-memory part of `diskfs_write_file` on an existing file; `none` when there is no room
for its new extent. -/
def resizeFile (t : Tables) (i : Fin 64) (size sectors : UInt32) : Option Tables :=
  let ino := t.inodes i
  if sectors > ino.sectorCount then
    match allocContiguous t sectors with
    | (none, _) => none
    | (some first, t) => some ((freeExtent t ino.firstSector ino.sectorCount).setInode i
        (ino.withExtent first sectors size))
  else if sectors < ino.sectorCount then
    some ((freeExtent t (ino.firstSector + sectors) (ino.sectorCount - sectors)).setInode i
      (ino.withExtent ino.firstSector sectors size))
  else some (t.setInode i { ino with size := size })

/-- The inode of a new file: the slot is zeroed first. -/
def newInode (parent : UInt32) (leaf : List UInt8) (first sectors size : UInt32) : Inode :=
  { Inode.zero with
    type := typeFile
    parent := parent
    size := size
    firstSector := first
    sectorCount := sectors
    name := nameOf (leaf.take nameMax) }

/-- The in-memory part of `diskfs_write_file` on a new file; no slot is returned when there is no
slot or no room, and then the tables are as the failed allocation leaves them. -/
def newFile (t : Tables) (parent : UInt32) (leaf : List UInt8) (size sectors : UInt32) :
    Option (Fin 64) × Tables :=
  match allocInode t with
  | (none, t) => (none, t)
  | (some i, t) =>
    match allocContiguous t sectors with
    | (none, t) => (none, t)
    | (some first, t) => (some i, t.setInode i (newInode parent leaf first sectors size))

/-- The in-memory part of `diskfs_delete_file`. -/
def removeFile (t : Tables) (i : Fin 64) : Tables :=
  (freeExtent t (t.inodes i).firstSector (t.inodes i).sectorCount).setInode i Inode.zero

/-- The in-memory part of `diskfs_rename_file`. -/
def moveFile (t : Tables) (i : Fin 64) (parent : UInt32) (leaf : List UInt8) : Tables :=
  t.setInode i { t.inodes i with parent := parent, name := nameOf (leaf.take nameMax) }

/-! ### What the allocator does -/

theorem mem_extentSectors (first sectors : UInt32) (h : first.toNat + sectors.toNat ≤ 2 ^ 32)
    (n : ℕ) : n ∈ extentSectors first sectors ↔
      first.toNat ≤ n ∧ n < first.toNat + sectors.toNat := by
  have hval : ∀ i < sectors.toNat, (first + UInt32.ofNat i).toNat = first.toNat + i := by
    intro i hi
    exact Word.toNat_add_ofNat (by omega)
  unfold extentSectors
  rw [List.mem_map]
  constructor
  · rintro ⟨i, hi, rfl⟩
    rw [List.mem_range] at hi
    rw [hval i hi]
    omega
  · rintro ⟨h₁, h2⟩
    refine ⟨n - first.toNat, List.mem_range.mpr (by omega), ?_⟩
    rw [hval _ (by omega)]
    omega

theorem idx32_succ_toNat (i : Fin 64) : (idx32 i + 1).toNat = i.val + 1 := by
  have := i.isLt
  rw [UInt32.toNat_add, idx32_toNat, UInt32.toNat_one]
  omega

/-- **What `alloc_inode` can do**: reuse a free slot, take the next one beyond `inode_count`, or
find the table full. -/
theorem allocInode_cases {t : Tables} (hpos : 1 ≤ t.superblock.inodeCount.toNat) :
    (∃ i, allocInode t = (some i, t) ∧ t.InUse i ∧ i ≠ rootInode ∧ (t.inodes i).type = 0) ∨
    (∃ i : Fin 64, allocInode t = (some i,
        { t with superblock := { t.superblock with inodeCount := idx32 i + 1 } }) ∧
      i.val = t.superblock.inodeCount.toNat ∧ i ≠ rootInode) ∨
    (allocInode t = (none, t) ∧ ∀ i, i ≠ rootInode → t.InUse i ∧ (t.inodes i).type ≠ 0) := by
  have hroot : ∀ i : Fin 64, 1 ≤ i.val ↔ i ≠ rootInode := by
    intro i
    rw [ne_eq, Fin.ext_iff, show (rootInode : Fin 64).val = 0 from rfl]
    omega
  unfold allocInode
  cases hfind : (List.finRange 64).find? (fun i => decide (1 ≤ i.val) &&
      (!decide (t.InUse i) || (t.inodes i).type == 0)) with
  | none =>
    refine .inr (.inr ⟨rfl, fun i hi => ?_⟩)
    have h := find?_finRange_eq_none_iff.mp hfind i
    simpa [(hroot i).mpr hi] using h
  | some i =>
    obtain ⟨hp, hmin⟩ := find?_finRange_eq_some_iff.mp hfind
    simp only [Bool.and_eq_true, decide_eq_true_eq, Bool.or_eq_true, Bool.not_eq_true',
      decide_eq_false_iff_not, beq_iff_eq] at hp
    by_cases hu : t.InUse i
    · left
      exact ⟨i, by simp [hu], hu, (hroot i).mp hp.1, hp.2.resolve_left (not_not.mpr hu)⟩
    · right; left
      refine ⟨i, by simp [hu], ?_, (hroot i).mp hp.1⟩
      -- every slot below the answer is in use, so the answer is the first one that is not
      have hge : t.superblock.inodeCount.toNat ≤ i.val := Nat.le_of_not_lt hu
      by_contra hne
      obtain ⟨j, hj⟩ : ∃ j : Fin 64, j.val = i.val - 1 := ⟨⟨i.val - 1, by omega⟩, rfl⟩
      have hused := hmin j (Fin.lt_def.mpr (by omega))
      simp only [Bool.and_eq_false_iff, decide_eq_false_iff_not, Bool.or_eq_false_iff,
        Bool.not_eq_false', decide_eq_true_eq] at hused
      rcases hused with hzero | ⟨hlt, -⟩
      · omega
      · have : j.val < t.superblock.inodeCount.toNat := hlt
        omega

/-- The bits of a run inside the filesystem, set one after the other. -/
theorem testBit_setRun (b : Sector) {r : ℕ} {sectors : UInt32} (h : r + sectors.toNat ≤ 4096)
    (n : ℕ) : Bitmap.testBit (Bitmap.putBits b (extentSectors (UInt32.ofNat r) sectors) true) n =
      true ↔ Bitmap.testBit b n = true ∨ (r ≤ n ∧ n < r + sectors.toNat) := by
  have hr : (UInt32.ofNat r).toNat = r := UInt32.toNat_ofNat_of_lt' (by unfold UInt32.size; omega)
  have hmem := mem_extentSectors (UInt32.ofNat r) sectors (by omega)
  rw [hr] at hmem
  rw [Bitmap.testBit_putBits_true _ (fun k hk => ?_), hmem]
  have := (hmem k).mp hk
  omega

/-- **What `alloc_contiguous` can do**: claim the lowest free run of the data area, or find that
there is none. -/
theorem allocContiguous_cases {t : Tables} {sectors : UInt32} (hs : 0 < sectors.toNat)
    (htotal : t.superblock.totalSectors = totalSectors) :
    (∃ first t', allocContiguous t sectors = (some first, t') ∧
      t.superblock.dataStart.toNat ≤ first.toNat ∧ first.toNat + sectors.toNat ≤ 4096 ∧
      (∀ n, first.toNat ≤ n → n < first.toNat + sectors.toNat →
        Bitmap.testBit t.bitmap n = false) ∧
      t'.superblock = t.superblock ∧ t'.inodes = t.inodes ∧
      ∀ n, Bitmap.testBit t'.bitmap n = true ↔
        Bitmap.testBit t.bitmap n = true ∨
          (first.toNat ≤ n ∧ n < first.toNat + sectors.toNat)) ∨
    (allocContiguous t sectors = (none, t) ∧ ∀ r, t.superblock.dataStart.toNat ≤ r →
      r + sectors.toNat ≤ 4096 → ¬ FirstFit.Run (Bitmap.testBit t.bitmap) r sectors.toNat) := by
  have htotal' : t.superblock.totalSectors.toNat = 4096 := by rw [htotal]; rfl
  unfold allocContiguous
  rw [htotal']
  cases hscan : FirstFit.scan (Bitmap.testBit t.bitmap) sectors.toNat
      (4096 - t.superblock.dataStart.toNat) t.superblock.dataStart.toNat
      t.superblock.dataStart.toNat 0 with
  | none => exact .inr ⟨rfl, FirstFit.scan_none hs hscan⟩
  | some r =>
    obtain ⟨hlo, hhi, hrun, -⟩ := FirstFit.scan_some hs hscan
    have hr : (UInt32.ofNat r).toNat = r := UInt32.toNat_ofNat_of_lt' (by unfold UInt32.size; omega)
    refine .inl ⟨UInt32.ofNat r, _, rfl, by omega, by omega, ?_, rfl, rfl, fun n => ?_⟩
    · rw [hr]; exact hrun
    · rw [hr]; exact testBit_setRun t.bitmap hhi n

/-- The places where a run of free sectors fits in the data area. -/
def freeRuns (t : Tables) (sectors : UInt32) : Set ℕ :=
  FirstFit.fits (Bitmap.testBit t.bitmap) t.superblock.dataStart.toNat
    t.superblock.totalSectors.toNat sectors.toNat

/-- **`alloc_contiguous` is an exact first fit.** It succeeds when the run fits somewhere in the
data area, then returns the least such place and sets the bits of that run and no other, and it
changes nothing when it fails. The start of the data area may be anything, even beyond its end. -/
theorem allocContiguous_exact_firstFit (t : Tables) (sectors : UInt32)
    (htotal : t.superblock.totalSectors = totalSectors) (hs : 1 ≤ sectors.toNat) :
    ((allocContiguous t sectors).1.isSome = true ↔ (freeRuns t sectors).Nonempty) ∧
    (∀ first, (allocContiguous t sectors).1 = some first →
      IsLeast (freeRuns t sectors) first.toNat ∧
      (∀ n, Bitmap.testBit (allocContiguous t sectors).2.bitmap n = true ↔
        Bitmap.testBit t.bitmap n = true ∨
          (first.toNat ≤ n ∧ n < first.toNat + sectors.toNat)) ∧
      (allocContiguous t sectors).2.superblock = t.superblock ∧
      (allocContiguous t sectors).2.inodes = t.inodes) ∧
    ((allocContiguous t sectors).1 = none → (allocContiguous t sectors).2 = t) := by
  have hfinds : FirstFit.Finds (Bitmap.testBit t.bitmap) t.superblock.dataStart.toNat
      t.superblock.totalSectors.toNat sectors.toNat _ := FirstFit.scan_finds hs
  have htotal' : t.superblock.totalSectors.toNat = 4096 := by rw [htotal]; rfl
  rcases Set.eq_empty_or_nonempty (freeRuns t sectors) with hempty | hne
  · have hfail : allocContiguous t sectors = (none, t) := by
      unfold allocContiguous
      rw [hfinds.eq_none_iff.mpr hempty]
    rw [hfail, hempty]
    exact ⟨by simp, nofun, fun _ => rfl⟩
  · obtain ⟨r, hscan, hleast⟩ := hfinds.exists_of_nonempty hne
    have hhi : r + sectors.toNat ≤ 4096 := htotal' ▸ hleast.1.2.1
    have hr : (UInt32.ofNat r).toNat = r := by
      rw [UInt32.toNat_ofNat']
      exact Nat.mod_eq_of_lt (by omega)
    have hfound : allocContiguous t sectors = (some (UInt32.ofNat r), ⟨t.superblock, t.inodes,
        Bitmap.putBits t.bitmap (extentSectors (UInt32.ofNat r) sectors) true⟩) := by
      unfold allocContiguous
      rw [hscan]
    rw [hfound]
    refine ⟨⟨fun _ => hne, fun _ => rfl⟩, fun first h => ?_, nofun⟩
    cases h
    rw [hr]
    exact ⟨hleast, testBit_setRun t.bitmap hhi, rfl, rfl⟩

/-- A data area from sector 11 in which 11 and 14 are in use: two sectors fit between them, three
do not. -/
def gapTables : Tables :=
  ⟨{ Superblock.zero with totalSectors := totalSectors, dataStart := 11 }, fun _ => Inode.zero,
    fun i => if i.val = 0 then 0xFF else if i.val = 1 then 0x4F else 0⟩

theorem allocContiguous_exact_firstFit_gap : (allocContiguous gapTables 3).1 = some 15 ∧
    IsLeast (freeRuns gapTables 3) 15 := by
  have hfound : (allocContiguous gapTables 3).1 = some 15 := by decide +kernel
  obtain ⟨-, hsome, -⟩ := allocContiguous_exact_firstFit gapTables 3 rfl (by decide)
  exact ⟨hfound, (hsome 15 hfound).1⟩

/-- `free_extent` on an extent inside the filesystem clears exactly its bits. -/
theorem testBit_freeExtent {t : Tables} (first sectors : UInt32)
    (htotal : t.superblock.totalSectors = totalSectors)
    (h : first.toNat + sectors.toNat ≤ 4096) (n : ℕ) :
    Bitmap.testBit (freeExtent t first sectors).bitmap n = true ↔
      Bitmap.testBit t.bitmap n = true ∧
        ¬ (first.toNat ≤ n ∧ n < first.toNat + sectors.toNat) := by
  have hmem := mem_extentSectors first sectors (by omega)
  have htotal' : t.superblock.totalSectors.toNat = 4096 := by rw [htotal]; rfl
  have hfreed : freedSectors t first sectors = extentSectors first sectors := by
    unfold freedSectors
    rw [List.takeWhile_eq_self_iff]
    intro k hk
    have := (hmem k).mp hk
    rw [htotal', decide_eq_true_eq]
    omega
  unfold freeExtent
  rw [hfreed, Bitmap.testBit_putBits_false _ (fun k hk => ?_), hmem]
  have := (hmem k).mp hk
  omega

theorem sectorsForSize_pos (size : UInt32) : 0 < (sectorsForSize size).toNat := by
  unfold sectorsForSize
  by_cases h : (size + 512 - 1) / 512 = 0
  · simp [h]
  · have hne : ((size + 512 - 1) / 512).toNat ≠ 0 :=
      fun h0 => h (UInt32.toNat_inj.mp (h0.trans UInt32.toNat_zero.symm))
    simp only [beq_iff_eq, h, if_false]
    omega

/-- `sectors_for_size` in exact arithmetic, for the sizes on which it does not wrap. -/
theorem sectorsForSize_toNat {size : UInt32} (h : size.toNat + 511 < 2 ^ 32) :
    (sectorsForSize size).toNat = max 1 ((size.toNat + 511) / 512) := by
  have hdiv : ((size + 512 - 1) / 512).toNat = (size.toNat + 511) / 512 := by
    rw [UInt32.toNat_div, UInt32.toNat_sub, UInt32.toNat_add]
    simp
    omega
  unfold sectorsForSize
  by_cases h0 : (size + 512 - 1) / 512 = 0
  · rw [h0, UInt32.toNat_zero] at hdiv
    simp only [h0, beq_self_eq_true, if_true, UInt32.toNat_one]
    omega
  · have hne : ((size + 512 - 1) / 512).toNat ≠ 0 :=
      fun h1 => h0 (UInt32.toNat_inj.mp (h1.trans UInt32.toNat_zero.symm))
    simp only [beq_iff_eq, h0, if_false]
    omega

end MyOS.Diskfs
