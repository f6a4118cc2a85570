import MyOS.Diskfs.Run

/-!
# Mounting

`diskTables D` are the tables that a disk holds, whatever layout its superblock gives. A mount that
gets to the end of them has read exactly these (`loadTables_eq`, `mount_tables`).

On a drive that never fails the mount of a built layout does get there (`loadTables_reliable`), so
whether it succeeds is up to `diskfs_validate` (`mount_available_iff`), and a clean mount is a good
state (`Good.of_mount`).
-/

namespace MyOS.Diskfs

open BlockCache List

/-! ### Reading the tables -/

/-- Raw reads of the drive: nothing but the drive's counters has moved. -/
structure RawReads (b b' : BlockLayer) : Prop where
  moves : Moves noWrites b b'
  cache : b'.cache = b.cache
  onDisk : b'.onDisk = b.onDisk
  history : b'.ata.history = b.ata.history

theorem RawReads.refl (b : BlockLayer) : RawReads b b := ⟨.refl, rfl, rfl, rfl⟩

variable {b : BlockLayer} {t : Tables} {s0 : Fs} {start : UInt32}

theorem RawReads.trans {b1 b2 : BlockLayer} (h : RawReads b b1) (h' : RawReads b1 b2) :
    RawReads b b2 :=
  ⟨h.moves.trans h'.moves, h'.cache.trans h.cache, h'.onDisk.trans h.onDisk,
    h'.history.trans h.history⟩

theorem rawReadSector_rawReads (b : BlockLayer) (k : UInt32) :
    RawReads b (rawReadSector b k).2 := by
  rcases rawReadSector_cases b k with ⟨-, h⟩ | ⟨-, ho, h⟩ | ⟨-, left, ho, h⟩ <;> rw [h]
  · exact .refl b
  · exact ⟨.single (.read b ho), rfl, rfl, rfl⟩
  · exact ⟨.single (.readFault b _ ho), rfl, rfl, rfl⟩

theorem rawReadSector_eq_some {k : UInt32} {v : Sector} (h : (rawReadSector b k).1 = some v) :
    v = b.onDisk k := by
  rcases rawReadSector_cases b k with ⟨-, hr⟩ | ⟨-, -, hr⟩ | ⟨-, left, -, hr⟩ <;> rw [hr] at h
  · cases h
  · exact (Option.some.inj h).symm
  · cases h

theorem rawReadSector_reliable (hr : b.Reliable) {k : UInt32} (hk : k < totalSectors) :
    (rawReadSector b k).1 = some (b.onDisk k) := by
  rcases rawReadSector_cases b k with ⟨hlt, -⟩ | ⟨-, -, h⟩ | ⟨-, left, ho, -⟩
  · exact absurd hk hlt
  · rw [h]
  · exact nomatch (hr _).symm.trans ho

/-- The tables on a disk, found where its superblock says. Slots behind the inode table are
zero. -/
def diskTables (D : Disk) : Tables :=
  let sb := Superblock.ofBytes (D 0).get 0
  ⟨sb, fun i => if i.val / 8 < sb.inodeSectors.toNat then
    Inode.ofBytes (D (inodeSector sb i)).get (inodeOffset i) else Inode.zero, D sb.bitmapStart⟩

theorem inodeSectors_of_layout (hl : t.superblock.layout = mkfsLayout) :
    t.superblock.inodeSectors.toNat = 8 :=
  congrArg (fun sb => sb.inodeSectors.toNat) hl

theorem Mirrors.diskTables_eq {D : Disk} (h : Mirrors D t) (hl : t.superblock.layout = mkfsLayout) :
    diskTables D = t := by
  unfold diskTables
  refine Tables.ext h.superblock (funext fun i => ?_) ?_
  · have hi := i.isLt
    dsimp only
    rw [h.superblock, inodeSectors_of_layout hl, if_pos (by omega), inodeSector_of_layout hl]
    exact h.inodes i
  · dsimp only
    rw [h.superblock, bitmapStart_of_layout hl]
    exact h.bitmap

/-- Slot `i` is copied from sector `k` of the table exactly when it lies in it, as long as the
index of its first slot does not wrap around. -/
theorem loadInodes_apply (inodes : Fin 64 → Inode) (sector : Sector) {k : ℕ} (hk : k < 2 ^ 29)
    (i : Fin 64) : loadInodes inodes sector (UInt32.ofNat k * 8) i
      = if i.val / 8 = k then Inode.ofBytes sector.get (inodeOffset i) else inodes i := by
  have hi := i.isLt
  have hbase : (UInt32.ofNat k * 8).toNat = k * 8 :=
    Word.toNat_ofNat_mul (show k * 8 < 2 ^ 32 by omega)
  have hsub : (idx32 i - UInt32.ofNat k * 8).toNat = (2 ^ 32 - k * 8 + i.val) % 2 ^ 32 := by
    rw [UInt32.toNat_sub, hbase, idx32_toNat]
  unfold loadInodes
  by_cases heq : i.val / 8 = k
  · have hval : (idx32 i - UInt32.ofNat k * 8).toNat = i.val % 8 := by rw [hsub]; omega
    rw [if_pos heq, if_pos (by rw [UInt32.lt_iff_toNat_lt, hval]; change _ < 8; omega), hval]
    rfl
  · rw [if_neg heq, if_neg]
    rw [UInt32.lt_iff_toNat_lt, hsub]
    change ¬ _ < 8
    omega

theorem inodeSector_eq {sb : Superblock} {k : ℕ} {i : Fin 64} (hi : i.val / 8 = k) :
    sb.inodeStart + UInt32.ofNat k = inodeSector sb i := by
  have hlt := i.isLt
  congr 1
  apply UInt32.toNat_inj.mp
  rw [UInt32.toNat_div, idx32_toNat, UInt32.toNat_ofNat_of_lt' (by unfold UInt32.size; omega), ← hi]
  rfl

section InodeTable

variable {sb : Superblock} {l : List ℕ} {b : BlockLayer} {inodes : Fin 64 → Inode}

theorem readInodeTable_rawReads : RawReads b (readInodeTable sb l inodes b).2.2 := by
  induction l generalizing b inodes with
  | nil => exact .refl b
  | cons k l ih =>
    have h := rawReadSector_rawReads b (sb.inodeStart + UInt32.ofNat k)
    unfold readInodeTable
    cases hr : (rawReadSector b (sb.inodeStart + UInt32.ofNat k)).1 with
    | none => simp only [hr]; exact h
    | some v => simp only [hr]; exact h.trans ih

/-- A complete loop has read its sectors, so they were in range. -/
theorem readInodeTable_range (hok : (readInodeTable sb l inodes b).1 = true) :
    ∀ k ∈ l, sb.inodeStart + UInt32.ofNat k < totalSectors := by
  induction l generalizing b inodes with
  | nil => exact fun k hk => absurd hk not_mem_nil
  | cons k l ih =>
    unfold readInodeTable at hok
    cases hr : (rawReadSector b (sb.inodeStart + UInt32.ofNat k)).1 with
    | none => simp [hr] at hok
    | some v =>
      simp only [hr] at hok
      refine forall_mem_cons.mpr ⟨?_, ih hok⟩
      rcases rawReadSector_cases b (sb.inodeStart + UInt32.ofNat k) with
        ⟨-, h⟩ | ⟨hlt, -⟩ | ⟨hlt, -⟩
      · rw [h] at hr
        cases hr
      · exact hlt
      · exact hlt

/-- A table that has been read to its end is not longer than the disk. -/
theorem inodeSectors_le
    (h : ∀ k ∈ List.range sb.inodeSectors.toNat, sb.inodeStart + UInt32.ofNat k < totalSectors) :
    sb.inodeSectors.toNat ≤ 4096 := by
  by_contra hlong
  -- the first sector and the one 4096 behind it cannot both be on the disk
  have h0 := UInt32.lt_iff_toNat_lt.mp (h 0 (mem_range.mpr (by omega)))
  have h1 := UInt32.lt_iff_toNat_lt.mp (h 4096 (mem_range.mpr (by omega)))
  rw [UInt32.toNat_add, UInt32.toNat_ofNat'] at h0 h1
  change (sb.inodeStart.toNat + 0) % 2 ^ 32 < 4096 at h0
  change (sb.inodeStart.toNat + 4096) % 2 ^ 32 < 4096 at h1
  have := sb.inodeStart.toNat_lt
  omega

/-- A complete loop over the table sectors `l` has decoded the slots in them. -/
theorem readInodeTable_true (hl : ∀ k ∈ l, k < 2 ^ 29)
    (hok : (readInodeTable sb l inodes b).1 = true) :
    (readInodeTable sb l inodes b).2.1 = fun i => if i.val / 8 ∈ l then
      Inode.ofBytes (b.onDisk (inodeSector sb i)).get (inodeOffset i) else inodes i := by
  induction l generalizing b inodes with
  | nil => simp [readInodeTable]
  | cons k l ih =>
    have hk := hl k mem_cons_self
    have hframe := (rawReadSector_rawReads b (sb.inodeStart + UInt32.ofNat k)).onDisk
    unfold readInodeTable at hok ⊢
    cases hr : (rawReadSector b (sb.inodeStart + UInt32.ofNat k)).1 with
    | none => simp [hr] at hok
    | some v =>
      simp only [hr] at hok ⊢
      rw [ih (fun j hj => hl j (mem_cons_of_mem _ hj)) hok, hframe, rawReadSector_eq_some hr]
      funext i
      rw [loadInodes_apply _ _ hk]
      by_cases hil : i.val / 8 ∈ l
      · rw [if_pos hil, if_pos (mem_cons_of_mem _ hil)]
      · rw [if_neg hil]
        by_cases hik : i.val / 8 = k
        · rw [if_pos hik, if_pos (hik ▸ mem_cons_self), inodeSector_eq hik]
        · rw [if_neg hik, if_neg (by simp [hik, hil])]

theorem readInodeTable_reliable (hstart : sb.inodeStart = 3) (hl : ∀ k ∈ l, k < 8)
    (hr : b.Reliable) : (readInodeTable sb l inodes b).1 = true := by
  induction l generalizing b inodes with
  | nil => rfl
  | cons k l ih =>
    have hk := hl k mem_cons_self
    have hsec : sb.inodeStart + UInt32.ofNat k < totalSectors := by
      rw [hstart, UInt32.lt_iff_toNat_lt, Word.toNat_add_ofNat (by change 3 + k < 2 ^ 32; omega)]
      change 3 + k < 4096
      omega
    unfold readInodeTable
    simp only [rawReadSector_reliable hr hsec]
    exact ih (fun j hj => hl j (mem_cons_of_mem _ hj))
      ((rawReadSector_rawReads b _).moves.reliable hr)

end InodeTable

theorem loadTables_rawReads (b : BlockLayer) : RawReads b (loadTables b).2.2 := by
  have h0 := rawReadSector_rawReads b 0
  unfold loadTables
  cases hr : (rawReadSector b 0).1 with
  | none => simp only [hr]; exact h0
  | some v =>
    simp only [hr]
    split
    · have h1 := rawReadSector_rawReads (rawReadSector b 0).2
        (Superblock.ofBytes v.get 0).bitmapStart
      split
      · exact h0.trans h1
      · exact h0.trans (h1.trans readInodeTable_rawReads)
    · exact h0

theorem superblockUsable_of_layout (hl : t.superblock.layout = mkfsLayout) :
    superblockUsable t.superblock = true := by
  have h1 : t.superblock.magic = diskfsMagic := magic_of_layout hl
  have h2 : t.superblock.maxInodes = 64 := congrArg Superblock.maxInodes hl
  have h3 : t.superblock.bitmapSectors = 1 := congrArg Superblock.bitmapSectors hl
  have h4 : t.superblock.totalSectors = totalSectors := totalSectors_of_layout hl
  unfold superblockUsable
  rw [h1, h2, h3, h4]
  decide

/-- **The mount reads what the disk holds**, if it gets to the end of it. -/
theorem loadTables_eq (hok : (loadTables b).1 = true) :
    (loadTables b).2.1 = diskTables b.onDisk := by
  have hframe := (rawReadSector_rawReads b 0).onDisk
  unfold loadTables at hok ⊢
  cases hr : (rawReadSector b 0).1 with
  | none => simp [hr] at hok
  | some v =>
    obtain rfl := rawReadSector_eq_some hr
    simp only [hr] at hok ⊢
    generalize hsb : Superblock.ofBytes (b.onDisk 0).get 0 = sb at hok ⊢
    cases hu : superblockUsable sb with
    | false => simp [hu] at hok
    | true =>
      simp only [hu, if_true] at hok ⊢
      cases hr2 : (rawReadSector (rawReadSector b 0).2 sb.bitmapStart).1 with
      | none => simp [hr2] at hok
      | some bitmap =>
        have hframe2 := (rawReadSector_rawReads (rawReadSector b 0).2 sb.bitmapStart).onDisk
        simp only [hr2] at hok ⊢
        have hlen := inodeSectors_le (readInodeTable_range hok)
        have hsmall : ∀ k ∈ List.range sb.inodeSectors.toNat, k < 2 ^ 29 := by
          intro k hk
          have := mem_range.mp hk
          omega
        unfold diskTables
        rw [hsb]
        refine Tables.ext rfl ?_ ?_
        · rw [readInodeTable_true hsmall hok, hframe2, hframe]
          simp only [mem_range]
        · rw [rawReadSector_eq_some hr2, hframe]

section LoadTables

variable {b : BlockLayer} {t : Tables} (hm : Mirrors b.onDisk t)
  (hl : t.superblock.layout = mkfsLayout)
include hm hl

theorem loadTables_true (hok : (loadTables b).1 = true) : (loadTables b).2.1 = t :=
  (loadTables_eq hok).trans (hm.diskTables_eq hl)

theorem loadTables_reliable (hr : b.Reliable) : (loadTables b).1 = true := by
  have h0 := rawReadSector_rawReads b 0
  have hr1 := h0.moves.reliable hr
  have hr2 := (rawReadSector_rawReads (rawReadSector b 0).2 2).moves.reliable hr1
  unfold loadTables
  simp only [rawReadSector_reliable hr (show (0 : UInt32) < totalSectors by decide), hm.superblock,
    superblockUsable_of_layout hl, if_true, bitmapStart_of_layout hl,
    rawReadSector_reliable hr1 (show (2 : UInt32) < totalSectors by decide),
    inodeSectors_of_layout hl]
  exact readInodeTable_reliable (inodeStart_of_layout hl) (fun k hk => mem_range.mp hk) hr2

end LoadTables

/-! ### The mounted state -/

theorem remount_ok (b : BlockLayer) (start : UInt32) : (remount b start).Ok :=
  BlockLayer.Ok.empty fun _ => rfl

theorem remount_settled (b : BlockLayer) (start : UInt32) : Settled (remount b start).cache :=
  fun _ h => absurd h Bool.false_ne_true

/-- With an empty cache the logical disk is the disk. -/
theorem remount_logical (b : BlockLayer) (start : UInt32) :
    (remount b start).logical = (remount b start).onDisk :=
  ((remount_ok b start).onDisk_eq (remount_settled b start)).symm

/-- An available filesystem has loaded its tables to the end, and they passed the checks. -/
theorem mount_available (h : (diskfsInitialize s0 start).1.available = true) :
    (loadTables (remount s0.block start)).1 = true ∧
      diskfsValidate true (loadTables (remount s0.block start)).2.1 = true := by
  by_contra hno
  rw [← Bool.and_eq_true] at hno
  unfold diskfsInitialize at h
  rw [if_neg hno] at h
  cases h

theorem Tables.setJournal_self (h : t.superblock.journalState = 0) : t.setJournal 0 = t := by
  unfold Tables.setJournal
  rw [← h]

/-- **A mount shows the tables on disk**, with the marker cleared. -/
theorem mount_tables (h : (diskfsInitialize s0 start).1.available = true) :
    (diskfsInitialize s0 start).1.tables
      = (diskTables fun r => s0.block.ata.sectors (start + r)).setJournal 0 := by
  obtain ⟨hload, hvalid⟩ := mount_available h
  have ht : (loadTables (remount s0.block start)).2.1
      = diskTables fun r => s0.block.ata.sectors (start + r) := loadTables_eq hload
  rw [ht] at hvalid
  unfold diskfsInitialize
  dsimp only
  rw [hload, ht, hvalid, Bool.and_self, if_pos rfl]
  by_cases hj : (diskTables fun r =>
      s0.block.ata.sectors (start + r)).superblock.journalState = 0
  · rw [if_neg (by simp [hj])]
    exact (Tables.setJournal_self hj).symm
  · rw [if_pos (by simp [hj])]
    rfl

/-- **A clean mount** shows the tables on disk, whatever the drive does. -/
theorem mount_clean (hm : Mirrors (remount s0.block start).onDisk t)
    (hl : t.superblock.layout = mkfsLayout) (hj : t.superblock.journalState = 0)
    (h : (diskfsInitialize s0 start).1.available = true) :
    ∃ b, (diskfsInitialize s0 start).1 = ⟨b, true, t, rebuildFileList t⟩ ∧
      RawReads (remount s0.block start) b := by
  obtain ⟨hload, hvalid⟩ := mount_available h
  have ht := loadTables_true hm hl hload
  refine ⟨(loadTables (remount s0.block start)).2.2, ?_, loadTables_rawReads _⟩
  rw [ht] at hvalid
  unfold diskfsInitialize
  simp [hload, ht, hvalid, hj]

/-- Whether the mount succeeds on a drive that never fails is up to `diskfs_validate`. -/
theorem mount_available_iff (hr : s0.block.Reliable)
    (hm : Mirrors (remount s0.block start).onDisk t) (hl : t.superblock.layout = mkfsLayout) :
    (diskfsInitialize s0 start).1.available = true ↔ diskfsValidate true t = true := by
  have hload := loadTables_reliable (b := remount s0.block start) hm hl hr
  have ht := loadTables_true hm hl hload
  constructor
  · intro h
    have hv := (mount_available h).2
    rwa [ht] at hv
  · intro hv
    unfold diskfsInitialize
    simp only [hload, ht, hv, Bool.and_self, if_true]
    split <;> rfl

/-- A clean mount on a drive that never fails is a good state. -/
theorem Good.of_mount {leak : Set ℕ} (hr : s0.block.Reliable)
    (hm : Mirrors (remount s0.block start).onDisk t) (hc : t.Consistent leak)
    (hj : t.superblock.journalState = 0) (h : (diskfsInitialize s0 start).1.available = true) :
    Good leak (diskfsInitialize s0 start).1 := by
  obtain ⟨b, heq, hb⟩ := mount_clean hm hc.layout hj h
  have hlog : b.logical = (remount s0.block start).onDisk := by
    rw [Moves.logical_eq hb.moves (remount_ok _ _), remount_logical]
  rw [heq]
  refine ⟨hb.moves.ok (remount_ok _ _), hb.moves.reliable hr, ?_, rfl, hj, hc, ?_, rfl⟩
  · change Settled b.cache
    rw [hb.cache]
    exact remount_settled _ _
  · exact hlog ▸ hm

end MyOS.Diskfs
