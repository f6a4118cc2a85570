import MyOS.Diskfs.Mount
import MyOS.Mkfs.Tables

/-!
# Filesystems mounted from a built image

`MountedImage s` says that `s` is what `diskfs_initialize` makes of a drive that holds an image
built by `mkfs.py` from some dictionary of files. On a drive that never fails it is a good state
(`MountedImage.good`), so everything proved about runs applies to it. The first such result is
`allocation_exact`: whatever is called, and whatever the drive does, the inode table and the bitmap
agree after every call and `diskfs_fsck` finds no error.
-/

namespace MyOS.Diskfs

open BlockCache ExtentAlloc

/-- The drive holds, from `start` on, the image that `mkfs.py` builds from `files`. The keys of a
dictionary are distinct. -/
structure HoldsImage (files : List (List Char × List UInt8)) (image : ℕ → UInt8) (s0 : Fs)
    (start : UInt32) : Prop where
  nodup : (files.map Prod.fst).Nodup
  built : Mkfs.main files = .ok image
  sectors : ∀ r < totalSectors, s0.block.ata.sectors (start + r) = Mkfs.imageSector image r

/-- `s` has been mounted from a built image. -/
def MountedImage (s : Fs) : Prop :=
  ∃ files image s0 start, HoldsImage files image s0 start ∧ s = (diskfsInitialize s0 start).1 ∧
    s.available = true

/-- The tables of a built image, on the drive and as the builder meant them. -/
theorem HoldsImage.mirrors {files : List (List Char × List UInt8)} {image : ℕ → UInt8} {s0 : Fs}
    {start : UInt32} (h : HoldsImage files image s0 start) :
    ∃ b, Mkfs.addFiles (files.mergeSort Mkfs.pathLe) Mkfs.start = .ok b ∧ b.Ok ∧
      (∀ k, 11 * 512 ≤ k → image k = b.image k) ∧
      Mirrors (remount s0.block start).onDisk (Mkfs.builtTables b) := by
  obtain ⟨b, hadd, hput⟩ := Mkfs.main_eq_ok h.built
  have hok := Mkfs.addFiles_ok Mkfs.start_ok hadd
  refine ⟨b, hadd, hok, fun k hk => Mkfs.image_data hput hok hk, ?_⟩
  refine (Mkfs.image_mirrors hput hok).congr fun r hr _ => ?_
  refine h.sectors r ?_
  rw [UInt32.lt_iff_toNat_lt]
  change _ < 4096
  omega

section

variable {s : Fs} (h : MountedImage s)
include h

/-- **What a mounted image is**: the builder's tables, over raw reads of its disk. -/
theorem MountedImage.eq : ∃ files image s0 start b b',
    HoldsImage files image s0 start ∧
    Mkfs.addFiles (files.mergeSort Mkfs.pathLe) Mkfs.start = .ok b ∧ b.Ok ∧
    s = ⟨b', true, Mkfs.builtTables b, rebuildFileList (Mkfs.builtTables b)⟩ ∧
    RawReads (remount s0.block start) b' ∧
    Mirrors (remount s0.block start).onDisk (Mkfs.builtTables b) := by
  obtain ⟨files, image, s0, start, himg, rfl, havail⟩ := h
  obtain ⟨b, hadd, hok, -, hm⟩ := himg.mirrors
  obtain ⟨b', heq, hb'⟩ := mount_clean hm (Mkfs.builtTables_consistent hok).layout rfl havail
  exact ⟨files, image, s0, start, b, b', himg, hadd, hok, heq, hb', hm⟩

theorem MountedImage.consistent : s.tables.Consistent ∅ := by
  obtain ⟨-, -, -, -, b, b', -, -, hok, rfl, -⟩ := h.eq
  exact Mkfs.builtTables_consistent hok

theorem MountedImage.block_ok : s.block.Ok := by
  obtain ⟨-, -, s0, start, b, b', -, -, -, rfl, hb', -⟩ := h.eq
  exact hb'.moves.ok (remount_ok _ _)

theorem MountedImage.available : s.available = true := by
  obtain ⟨-, -, -, -, -, -, havail⟩ := h
  exact havail

/-- On a drive that never fails a mounted image is a good state. -/
theorem MountedImage.good (hr : s.block.Reliable) : Good ∅ s := by
  obtain ⟨files, image, s0, start, himg, rfl, havail⟩ := h
  obtain ⟨b, -, hok, -, hm⟩ := himg.mirrors
  obtain ⟨b', heq, hb'⟩ := mount_clean hm (Mkfs.builtTables_consistent hok).layout rfl havail
  have hr0 : s0.block.Reliable := by
    intro k
    rw [heq] at hr
    have := hr k
    rwa [hb'.moves.accounts.outcome] at this
  exact Good.of_mount hr0 hm (Mkfs.builtTables_consistent hok) rfl havail

end

/-! ### A small image -/

/-- The dictionary with the one file `/etc/motd`, whose content is `hi`. -/
def motdFiles : List (List Char × List UInt8) :=
  [(['/', 'e', 't', 'c', '/', 'm', 'o', 't', 'd'], [104, 105])]

/-- The builder at the end of the loop: the root, the directory `etc` and the file `motd`. -/
def motdBuilder : Mkfs.Builder :=
  (Mkfs.start.addDir ['/', 'e', 't', 'c'] 0 ['e', 't', 'c']).addData 1 ['m', 'o', 't', 'd']
    [104, 105]

theorem addFiles_motd :
    Mkfs.addFiles (motdFiles.mergeSort Mkfs.pathLe) Mkfs.start = .ok motdBuilder := by
  rw [motdFiles, List.mergeSort_singleton]
  rfl

/-- Its image. -/
def motdImage : ℕ → UInt8 :=
  match Mkfs.main motdFiles with
  | .ok image => image
  | .error _ => fun _ => 0

theorem main_motd : Mkfs.main motdFiles = .ok motdImage := by
  have hok : ∃ image, Mkfs.main motdFiles = .ok image := by
    unfold Mkfs.main
    rw [addFiles_motd]
    exact ⟨_, rfl⟩
  obtain ⟨image, himage⟩ := hok
  unfold motdImage
  rw [himage]

/-- A machine that has just been switched on, whose drive answers as `outcome` says. -/
def machineOn (sectors : UInt32 → Sector) (outcome : ℕ → AtaOutcome) : Fs where
  block :=
    { fsStartLba := 0
      cache := fun _ => ⟨false, false, 0, Bytes.zero⟩
      cacheClock := 0
      ata := ⟨sectors, outcome, 0, 0, []⟩ }
  available := false
  tables := Tables.zero
  files := []

/-- A machine whose drive holds the image from sector 2048 on. -/
def motdMachine (outcome : ℕ → AtaOutcome) : Fs :=
  machineOn (fun lba => Mkfs.imageSector motdImage (lba - 2048)) outcome

/-- The small image, mounted from a drive that never fails. -/
def motdFs : Fs := (diskfsInitialize (motdMachine fun _ => .done) 2048).1

theorem motd_holdsImage (outcome : ℕ → AtaOutcome) :
    HoldsImage motdFiles motdImage (motdMachine outcome) 2048 where
  nodup := by decide
  built := main_motd
  sectors := fun r _ => by
    change Mkfs.imageSector motdImage (2048 + r - 2048) = _
    rw [UInt32.add_comm, UInt32.add_sub_cancel]

theorem motd_available : motdFs.available = true := by decide +kernel

theorem motd_mounted : MountedImage motdFs :=
  ⟨_, _, _, _, motd_holdsImage _, rfl, motd_available⟩

/-- A drive that fails one call. -/
def failsOnce (n k : ℕ) : AtaOutcome := if k = n then .error none else .done

/-- The small image, mounted from such a drive. The mount makes ten calls, and `begin_transaction`
of an operation the next four. -/
def failingFs (n : ℕ) : Fs := (diskfsInitialize (motdMachine (failsOnce n)) 2048).1

theorem failing_mounted {n : ℕ} (h : (failingFs n).available = true) : MountedImage (failingFs n) :=
  ⟨_, _, _, _, motd_holdsImage _, rfl, h⟩

theorem motd_reliable : motdFs.block.Reliable := by
  obtain ⟨b, hadd, hok, -, hm⟩ := (motd_holdsImage fun _ => .done).mirrors
  obtain ⟨b', heq, hb'⟩ :=
    mount_clean hm (Mkfs.builtTables_consistent hok).layout rfl motd_available
  have hblock : motdFs.block = b' := congrArg Fs.block heq
  rw [hblock]
  exact hb'.moves.reliable fun _ => rfl

/-! ### The allocation invariant over whole runs -/

/-- The inode table and the bitmap agree exactly. -/
structure AllocationExact (t : Tables) : Prop where
  bounds : ∀ i, t.IsFile i → t.superblock.dataStart.toNat ≤ (t.inodes i).firstSector.toNat ∧
    (t.inodes i).firstSector.toNat + (t.inodes i).sectorCount.toNat
      ≤ t.superblock.totalSectors.toNat
  size : ∀ i, t.IsFile i → (t.inodes i).sectorCount = sectorsForSize (t.inodes i).size
  disjoint : ∀ i j, i ≠ j → Disjoint (t.extent i) (t.extent j)
  bitmap : ∀ n : UInt32, n < t.superblock.totalSectors →
    (bitmapGet t n = true ↔ n < t.superblock.dataStart ∨ ∃ i, n.toNat ∈ t.extent i)

theorem Tables.Consistent.exact {t : Tables} (h : t.Consistent ∅) : AllocationExact t where
  bounds := fun i hi => by
    obtain ⟨-, hlo, hhi⟩ := h.file_bounds hi
    rw [h.data_toNat, h.total_toNat]
    exact ⟨hlo, hhi⟩
  size := h.size
  disjoint := h.alloc.disjoint
  bitmap := fun n hn => by
    have hused := h.alloc.used_iff n.toNat (UInt32.lt_iff_toNat_lt.mp hn)
    rw [UInt32.lt_iff_toNat_lt]
    refine hused.trans ?_
    simp only [Set.mem_empty_iff_false, or_false]

/-- The tables stay consistent in every run, and the filesystem mounted. -/
theorem MountedImage.run_consistent {s : Fs} (hs : MountedImage s) (ops : List Op) :
    (run s ops).tables.Consistent ∅ ∧ (run s ops).available = true :=
  run_induction (P := fun s => s.tables.Consistent ∅ ∧ s.available = true)
    (fun _ op h => ⟨exec_consistent h.1 op, (exec_available h.1 op).trans h.2⟩)
    ⟨hs.consistent, hs.available⟩ ops

/-- **The allocation invariant holds after every call.** For every sequence of operations on a
mounted image the extents and the bitmap agree, and `diskfs_fsck` returns 0. The drive may fail at
will. -/
theorem allocation_exact {s : Fs} (hs : MountedImage s) (ops : List Op) :
    AllocationExact (run s ops).tables ∧
      ∀ reportSize, (diskfsFsck (run s ops) reportSize).1 = 0 := by
  obtain ⟨hconsistent, havail⟩ := hs.run_consistent ops
  exact ⟨hconsistent.exact, fun reportSize => diskfsFsck_eq_zero havail hconsistent reportSize⟩

/-- `/etc`, as a C string. -/
def etcPath : CString := ⟨[47, 101, 116, 99], by decide⟩

/-- `/x`, as a C string. -/
def xPath : CString := ⟨[47, 120], by decide⟩

/-- `/etc/motd`, as a C string. -/
def motdPath : CString := ⟨[47, 101, 116, 99, 47, 109, 111, 116, 100], by decide⟩

/-- The invariant after a file grows over a sector boundary, is renamed and another is deleted. -/
theorem allocation_exact_motd :
    AllocationExact (run motdFs [.write (some motdPath) (some fun _ => 7) 600,
      .rename (some motdPath) xPath, .delete (some motdPath)]).tables ∧
    ∀ reportSize, (diskfsFsck (run motdFs [.write (some motdPath) (some fun _ => 7) 600,
      .rename (some motdPath) xPath, .delete (some motdPath)]) reportSize).1 = 0 :=
  allocation_exact motd_mounted _

/-- With `/x` beside `/etc/motd` the check passes, and the extents of the two are apart. -/
theorem fsck_exact_twoFiles :
    let s := run motdFs [.write (some xPath) (some fun _ => 5) 9]
    (s.tables.IsFile 2 ∧ s.tables.IsFile 3) ∧ (diskfsFsck s 96).1 = 0 ∧
      Disjoint (s.tables.extent 2) (s.tables.extent 3) := by
  intro s
  obtain ⟨h, havail⟩ := motd_mounted.run_consistent [.write (some xPath) (some fun _ => 5) 9]
  have hpass : (diskfsFsck s 96).1 = 0 := diskfsFsck_eq_zero havail h 96
  refine ⟨by decide +kernel, hpass, ?_⟩
  have hexact := fsck_exact s havail (UInt32.toNat_inj.mp h.total_toNat)
    (by rw [h.data_toNat]; decide) (fun i hi => (h.file_bounds hi).2.2.trans_lt (by decide)) 96
  exact (hexact.mp hpass).2.1 2 3 (by decide)

end MyOS.Diskfs
