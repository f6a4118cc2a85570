import MyOS.Diskfs.Fsck
import MyOS.Diskfs.Image

/-!
# What the mount accepts

`diskfs_initialize` accepts a disk when `diskfs_validate` does. The checks are made on 32-bit sums,
and some fields are not checked at all:

* `data_start` may be anything;
* `first_sector + sector_count` may wrap around and pass as small;
* `size + 511` may wrap around, so that a size of almost 4 GiB passes with one sector;
* extents are not compared with one another.

`mount_sufficient_iff` says that these four are all that is missing: an accepted disk is safe to
work on, and `diskfs_fsck` stays inside its 512-byte arrays, exactly when none of them happens.
`data_start_accepted` is a disk on which the first happens.
-/

namespace MyOS.Diskfs

open List

/-! ### The checks -/

/-- What `diskfs_validate` checks on a slot in use. -/
structure InodeValid (t : Tables) (i : Fin 64) : Prop where
  name : i ≠ rootInode → inodeNameValid (t.inodes i).name.get = true
  parent : i ≠ rootInode → (t.inodes i).parent < t.superblock.inodeCount
  first : (t.inodes i).type = typeFile → t.superblock.dataStart ≤ (t.inodes i).firstSector
  last : (t.inodes i).type = typeFile →
    (t.inodes i).firstSector + (t.inodes i).sectorCount ≤ t.superblock.totalSectors
  count : (t.inodes i).type = typeFile →
    (t.inodes i).sectorCount = sectorsForSize (t.inodes i).size

theorem inodeValid_iff (t : Tables) (i : Fin 64) :
    inodeValid t i = true ↔ ((t.inodes i).type ≠ 0 → InodeValid t i) := by
  have himp : ∀ {p q : Prop}, (p ∨ q) ↔ (¬ p → q) := or_iff_not_imp_left
  unfold inodeValid
  simp only [Bool.or_eq_true, Bool.and_eq_true, beq_iff_eq, bne_iff_ne, decide_eq_true_eq,
    Bool.not_eq_true', decide_eq_false_iff_not, UInt32.not_lt, himp, ne_eq, not_not]
  refine imp_congr_right fun _ => ⟨?_, ?_⟩
  · rintro ⟨⟨hname, hparent⟩, hfile⟩
    exact ⟨hname, hparent, fun hf => (hfile hf).1.1, fun hf => (hfile hf).1.2,
      fun hf => (hfile hf).2⟩
  · intro h
    exact ⟨⟨h.name, h.parent⟩, fun hf => ⟨⟨h.first hf, h.last hf⟩, h.count hf⟩⟩

/-- What `diskfs_validate` checks. -/
structure Validated (t : Tables) : Prop where
  magic : t.superblock.magic = diskfsMagic
  total : t.superblock.totalSectors = totalSectors
  count : t.superblock.inodeCount.toNat ≤ 64
  root : (t.inodes rootInode).type = typeDir
  inode : ∀ i, t.InUse i → (t.inodes i).type ≠ 0 → InodeValid t i

theorem diskfsValidate_iff (t : Tables) : diskfsValidate true t = true ↔ Validated t := by
  unfold diskfsValidate
  simp only [Bool.true_and, Bool.and_eq_true, beq_iff_eq, decide_eq_true_eq, all_eq_true,
    mem_finRange, forall_const, Bool.or_eq_true, Bool.not_eq_true', decide_eq_false_iff_not,
    inodeValid_iff]
  constructor
  · rintro ⟨⟨⟨⟨hmagic, htotal⟩, hcount⟩, hroot⟩, hall⟩
    exact ⟨hmagic, htotal, hcount, hroot, fun i hu => (hall i).resolve_left (not_not_intro hu)⟩
  · intro h
    refine ⟨⟨⟨⟨h.magic, h.total⟩, h.count⟩, h.root⟩, fun i => ?_⟩
    by_cases hu : t.InUse i
    · exact .inr (h.inode i hu)
    · exact .inl hu

/-- The tables of an available filesystem have passed the checks. -/
theorem mount_validated {s0 : Fs} {start : UInt32}
    (h : (diskfsInitialize s0 start).1.available = true) :
    Validated (diskfsInitialize s0 start).1.tables := by
  obtain ⟨hload, hvalid⟩ := mount_available h
  rw [← diskfsValidate_iff]
  unfold diskfsInitialize
  dsimp only
  rw [hload, hvalid, Bool.and_self, if_pos rfl]
  -- clearing the marker changes nothing that is checked
  split
  · exact hvalid
  · exact hvalid

/-! ### What the checks are for -/

/-- The sectors at which `diskfs_fsck` looks into `seen` and `bitmap`: those that it marks
(`fsck_seen`), and those that it compares at the end. -/
def fsckSectors (t : Tables) : List ℕ :=
  List.range t.superblock.dataStart.toNat ++ (List.finRange 64).flatMap (slotSectors t) ++
    List.range t.superblock.totalSectors.toNat

/-- The mounted tables are safe to work on. -/
structure MountSufficient (t : Tables) : Prop where
  data_start : t.superblock.dataStart.toNat ≤ 4096
  bounds : ∀ i, t.IsFile i → t.superblock.dataStart.toNat ≤ (t.inodes i).firstSector.toNat ∧
    (t.inodes i).firstSector.toNat + (t.inodes i).sectorCount.toNat ≤ 4096
  room : ∀ i, t.IsFile i → (t.inodes i).size.toNat ≤ 512 * (t.inodes i).sectorCount.toNat
  disjoint : ∀ i j, i ≠ j → Disjoint (t.extent i) (t.extent j)
  /-- The arrays of `diskfs_fsck` are indexed inside their bounds. -/
  fsck : ∀ n ∈ fsckSectors t, n < 4096
  /-- So is the bitmap: by the scan of `alloc_contiguous`, -/
  scan : ∀ n, t.superblock.dataStart.toNat ≤ n → n < t.superblock.totalSectors.toNat → n < 4096
  /-- by the marking of the run it finds, and by `free_extent`. -/
  alloc : ∀ sectors first u, allocContiguous t sectors = (some first, u) →
    ∀ n ∈ extentSectors first sectors, n < 4096
  free : ∀ first sectors, ∀ n ∈ freedSectors t first sectors, n < 4096

/-- What `diskfs_validate` does not check. -/
structure UncheckedOk (t : Tables) : Prop where
  data_start : t.superblock.dataStart.toNat ≤ 4096
  extent : ∀ i, t.IsFile i →
    (t.inodes i).firstSector.toNat + (t.inodes i).sectorCount.toNat < 2 ^ 32
  size : ∀ i, t.IsFile i → (t.inodes i).size.toNat + 511 < 2 ^ 32
  disjoint : ∀ i j, i ≠ j → Disjoint (t.extent i) (t.extent j)

section Sufficient

variable {t : Tables}

/-- The loop of `free_extent` checks every sector. -/
theorem lt_of_mem_freedSectors (h : t.superblock.totalSectors = totalSectors)
    {first sectors : UInt32} {n : ℕ} (hn : n ∈ freedSectors t first sectors) : n < 4096 := by
  have hlt := mem_takeWhile_imp hn
  rw [h, decide_eq_true_eq] at hlt
  exact hlt

/-- The run that `alloc_contiguous` finds ends before `total_sectors`. -/
theorem lt_of_mem_allocated (h : t.superblock.totalSectors = totalSectors)
    {sectors first : UInt32} {u : Tables} (ha : allocContiguous t sectors = (some first, u)) {n : ℕ}
    (hn : n ∈ extentSectors first sectors) : n < 4096 := by
  by_cases hpos : 0 < sectors.toNat
  · rcases allocContiguous_cases hpos h with ⟨r, u', heq, -, hhi, -⟩ | ⟨hnone, -⟩
    · rw [ha] at heq
      obtain ⟨hr, -⟩ := Prod.mk.inj heq
      cases hr
      have := (mem_extentSectors first sectors (by omega) n).mp hn
      omega
    · rw [ha] at hnone
      exact absurd (Prod.mk.inj hnone).1 (by simp)
  · unfold extentSectors at hn
    rw [Nat.eq_zero_of_not_pos hpos] at hn
    cases hn

/-- Without wrap-around the checks bound every extent. -/
theorem Validated.file_bounds (h : Validated t) (hu : UncheckedOk t) {i : Fin 64}
    (hi : t.IsFile i) :
    t.superblock.dataStart.toNat ≤ (t.inodes i).firstSector.toNat ∧
    (t.inodes i).firstSector.toNat + (t.inodes i).sectorCount.toNat ≤ 4096 := by
  have hv := h.inode i hi.1 (by rw [hi.2]; decide)
  refine ⟨UInt32.le_iff_toNat_le.mp (hv.first hi.2), ?_⟩
  have hlast := UInt32.le_iff_toNat_le.mp (hv.last hi.2)
  rw [h.total, UInt32.toNat_add, Nat.mod_eq_of_lt (hu.extent i hi)] at hlast
  exact hlast

theorem Validated.room (h : Validated t) (hu : UncheckedOk t) {i : Fin 64} (hi : t.IsFile i) :
    (t.inodes i).size.toNat ≤ 512 * (t.inodes i).sectorCount.toNat := by
  have hv := h.inode i hi.1 (by rw [hi.2]; decide)
  rw [hv.count hi.2, sectorsForSize_toNat (hu.size i hi)]
  omega

/-- `diskfs_fsck` looks at the metadata, at the extents and at the bitmap. -/
theorem lt_of_mem_fsckSectors (htotal : t.superblock.totalSectors = totalSectors)
    (hdata : t.superblock.dataStart.toNat ≤ 4096) (hbounds : ∀ i, t.IsFile i →
      (t.inodes i).firstSector.toNat + (t.inodes i).sectorCount.toNat ≤ 4096)
    {n : ℕ} (hn : n ∈ fsckSectors t) : n < 4096 := by
  unfold fsckSectors at hn
  rw [mem_append, mem_append, mem_range, mem_range, mem_flatMap] at hn
  rcases hn with (hlow | ⟨i, -, hi⟩) | hall
  · omega
  · unfold slotSectors at hi
    split at hi
    · rename_i hfile
      have hb := hbounds i hfile.1
      have := (mem_extentSectors _ _ (by omega) n).mp hi
      omega
    · cases hi
  · rw [htotal] at hall
    exact hall

/-- Checked tables without the unchecked faults are safe to work on. -/
theorem Validated.sufficient (h : Validated t) (hu : UncheckedOk t) : MountSufficient t where
  data_start := hu.data_start
  bounds := fun _ hi => h.file_bounds hu hi
  room := fun _ hi => h.room hu hi
  disjoint := hu.disjoint
  fsck := fun _ hn => lt_of_mem_fsckSectors h.total hu.data_start
    (fun _ hi => (h.file_bounds hu hi).2) hn
  scan := fun n _ hn => by
    rw [h.total] at hn
    exact hn
  alloc := fun _ _ _ ha _ hn => lt_of_mem_allocated h.total ha hn
  free := fun _ _ _ hn => lt_of_mem_freedSectors h.total hn

/-- Tables that are safe to work on have none of the faults. -/
theorem MountSufficient.unchecked (h : MountSufficient t) : UncheckedOk t := by
  refine ⟨h.data_start, fun i hi => ?_, fun i hi => ?_, h.disjoint⟩
  · have := (h.bounds i hi).2
    omega
  · have hb := (h.bounds i hi).2
    have hroom := h.room i hi
    omega

end Sufficient

theorem UncheckedOk.setJournal {t : Tables} (h : UncheckedOk t) (state : UInt32) :
    UncheckedOk (t.setJournal state) := ⟨h.data_start, h.extent, h.size, h.disjoint⟩

/-- **What mount validation is worth.** Whatever the drive holds and does, an available filesystem
is safe to work on exactly when on disk the superblock's `data_start` lies on the disk, no sum that
`diskfs_validate` compares wraps around, and no two extents overlap. -/
theorem mount_sufficient_iff {s0 : Fs} {start : UInt32}
    (h : (diskfsInitialize s0 start).1.available = true) :
    MountSufficient (diskfsInitialize s0 start).1.tables ↔
      UncheckedOk (diskTables fun r => s0.block.ata.sectors (start + r)) := by
  have hvalid := mount_validated h
  rw [mount_tables h] at hvalid ⊢
  constructor
  · intro hsuff
    have hu := hsuff.unchecked
    exact ⟨hu.data_start, hu.extent, hu.size, hu.disjoint⟩
  · intro hu
    exact hvalid.sufficient (hu.setJournal 0)

theorem mount_sufficient_iff_motd : MountSufficient motdFs.tables ↔
    UncheckedOk (diskTables fun r => (motdMachine fun _ => .done).block.ata.sectors (2048 + r)) :=
  mount_sufficient_iff motd_available

/-- A drive with an empty root directory and `data_start = 5000`. -/
def farDataStart : UInt32 → Sector := fun lba =>
  if lba = 0 then superblockSector ⟨diskfsMagic, 4096, 64, 1, 2, 1, 3, 8, 5000, 0⟩
  else if lba = 3 then Bytes.zero.splice 0 { Inode.zero with type := typeDir }.byteAt Inode.bytes
  else Bytes.zero

/-- The mount accepts a data area that begins behind the end of the disk, and `diskfs_fsck` then
writes behind the end of `seen`. -/
theorem data_start_accepted :
    (diskfsInitialize (machineOn farDataStart fun _ => .done) 0).1.available = true ∧
    4096 ∈ fsckSectors (diskfsInitialize (machineOn farDataStart fun _ => .done) 0).1.tables ∧
    ¬ MountSufficient (diskfsInitialize (machineOn farDataStart fun _ => .done) 0).1.tables := by
  have hfar : (diskfsInitialize (machineOn farDataStart fun _ => .done)
      0).1.tables.superblock.dataStart.toNat = 5000 := by decide +kernel
  refine ⟨by decide +kernel, ?_, fun h => ?_⟩
  · unfold fsckSectors
    rw [append_assoc, mem_append, mem_range, hfar]
    exact .inl (by decide)
  · have := h.data_start
    omega

end MyOS.Diskfs
