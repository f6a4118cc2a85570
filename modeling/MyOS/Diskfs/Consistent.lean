import MyOS.Diskfs.Alloc

/-!
# The allocation invariant of diskfs

`Tables.Consistent leak t` says that the inode table and the bitmap agree: live extents lie in the
data area, have the length their size asks for and share no sector, and a bit is set exactly for the
metadata, the live extents and the sectors of `leak`, which is empty unless there was a crash.

The changes of `MyOS.Diskfs.Alloc` have one shape, `Replaces t t' i`: the inode `i` gets another
extent, made of sectors it had or that were free, and the bitmap follows. `Consistent.replaces`
shows once that this keeps the invariant.
-/

namespace MyOS.Diskfs

open ExtentAlloc Function

/-! ### The invariant -/

/-- The superblock without the two fields that operations change. -/
def Superblock.layout (sb : Superblock) : Superblock :=
  { sb with inodeCount := 0, journalState := 0 }

/-- The layout of an image built by `mkfs.py`. -/
def mkfsLayout : Superblock := ⟨diskfsMagic, 4096, 64, 0, 2, 1, 3, 8, 11, 0⟩

/-- The sectors an inode owns. -/
def Inode.sectors (ino : Inode) : Set ℕ :=
  {n | ino.type = typeFile ∧ ino.firstSector.toNat ≤ n ∧
    n < ino.firstSector.toNat + ino.sectorCount.toNat}

namespace Tables

/-- The sectors of a live file; no sectors for any other slot. -/
def extent (t : Tables) (i : Fin 64) : Set ℕ := {n | t.InUse i ∧ n ∈ (t.inodes i).sectors}

instance (t : Tables) (i : Fin 64) (n : ℕ) : Decidable (n ∈ t.extent i) :=
  inferInstanceAs (Decidable (_ ∧ _ ∧ _ ∧ _))

/-- The sectors marked in the bitmap. -/
def used (t : Tables) : Set ℕ := {n | Bitmap.testBit t.bitmap n = true}

/-- The inode table and the bitmap agree. -/
structure Consistent (leak : Set ℕ) (t : Tables) : Prop where
  layout : t.superblock.layout = mkfsLayout
  count_pos : 1 ≤ t.superblock.inodeCount.toNat
  count_le : t.superblock.inodeCount.toNat ≤ 64
  /-- The slots beyond `inode_count` are free. -/
  spare : ∀ i, ¬ t.InUse i → (t.inodes i).type = 0
  size : ∀ i, t.IsFile i → (t.inodes i).sectorCount = sectorsForSize (t.inodes i).size
  room : ∀ i, t.IsFile i → (t.inodes i).size.toNat ≤ 512 * (t.inodes i).sectorCount.toNat
  alloc : Allocated t.extent t.superblock.dataStart.toNat t.superblock.totalSectors.toNat t.used
    leak

end Tables

section Layout

variable {sb : Superblock} (h : sb.layout = mkfsLayout)
include h

theorem magic_of_layout : sb.magic = diskfsMagic := congrArg Superblock.magic h

theorem totalSectors_of_layout : sb.totalSectors = totalSectors :=
  congrArg Superblock.totalSectors h

theorem dataStart_of_layout : sb.dataStart.toNat = 11 :=
  congrArg (fun sb => sb.dataStart.toNat) h

theorem bitmapStart_of_layout : sb.bitmapStart = 2 := congrArg Superblock.bitmapStart h

theorem inodeStart_of_layout : sb.inodeStart = 3 := congrArg Superblock.inodeStart h

end Layout

namespace Tables.Consistent

variable {leak : Set ℕ} {t : Tables} (h : t.Consistent leak)
include h

theorem total_toNat : t.superblock.totalSectors.toNat = 4096 := by
  rw [totalSectors_of_layout h.layout]; rfl

theorem data_toNat : t.superblock.dataStart.toNat = 11 := dataStart_of_layout h.layout

/-- A live file's extent: not empty, and inside the data area. -/
theorem file_bounds {i : Fin 64} (hi : t.IsFile i) : 0 < (t.inodes i).sectorCount.toNat ∧
    11 ≤ (t.inodes i).firstSector.toNat ∧
    (t.inodes i).firstSector.toNat + (t.inodes i).sectorCount.toNat ≤ 4096 := by
  have hpos : 0 < (t.inodes i).sectorCount.toNat := by
    rw [h.size i hi]; exact sectorsForSize_pos _
  have hb := h.alloc.bounds i
  rw [h.total_toNat, h.data_toNat] at hb
  have hfirst := hb (a := (t.inodes i).firstSector.toNat) ⟨hi.1, hi.2, le_refl _, by omega⟩
  have hlast := hb (a := (t.inodes i).firstSector.toNat + (t.inodes i).sectorCount.toNat - 1)
    ⟨hi.1, hi.2, by omega, by omega⟩
  rw [Set.mem_Ico] at hfirst hlast
  omega

theorem mem_used {i : Fin 64} {n : ℕ} (hn : n ∈ t.extent i) : n ∈ t.used := h.alloc.mem_used hn

/-- The marked sectors are those of one file and the others. -/
theorem used_iff (i : Fin 64) (n : ℕ) :
    n ∈ t.used ↔ n ∈ t.extent i ∨ (n ∈ t.used ∧ n ∉ t.extent i) := by
  constructor
  · intro hu
    by_cases hn : n ∈ t.extent i
    · exact .inl hn
    · exact .inr ⟨hu, hn⟩
  · rintro (hn | ⟨hu, -⟩)
    · exact h.mem_used hn
    · exact hu

end Tables.Consistent

variable {t t' : Tables} {i : Fin 64} {leak : Set ℕ} {size : UInt32}

theorem Tables.not_mem_used {n : ℕ} (h : Bitmap.testBit t.bitmap n = false) :
    n ∉ t.used := fun hu => absurd (h.symm.trans hu) (by decide)

/-- A slot that is in use adds nothing to the slots in use. -/
theorem Tables.InUse.or_iff (hi : t.InUse i) (j : Fin 64) : t.InUse j ↔ t.InUse j ∨ j = i :=
  ⟨.inl, fun hj => hj.elim id fun hji => hji ▸ hi⟩

theorem Tables.IsFile.mem_extent (hi : t.IsFile i) (n : ℕ) :
    n ∈ t.extent i ↔ (t.inodes i).firstSector.toNat ≤ n ∧
      n < (t.inodes i).firstSector.toNat + (t.inodes i).sectorCount.toNat :=
  ⟨fun hn => hn.2.2, fun hn => ⟨hi.1, hi.2, hn⟩⟩

theorem Tables.extent_of_type_zero (hi : (t.inodes i).type = 0) : t.extent i = ∅ := by
  refine Set.eq_empty_of_forall_notMem fun n hn => ?_
  exact nomatch hi.symm.trans hn.2.1

/-! ### One inode changes -/

/-- `t'` is `t` with another inode in slot `i`, its sectors taken from its own and the free ones,
and the bitmap updated accordingly. -/
structure Replaces (t t' : Tables) (i : Fin 64) : Prop where
  inodes : ∀ j, j ≠ i → t'.inodes j = t.inodes j
  layout : t'.superblock.layout = t.superblock.layout
  journal : t'.superblock.journalState = t.superblock.journalState
  count_le : t'.superblock.inodeCount.toNat ≤ 64
  inUse : ∀ j, t'.InUse j ↔ t.InUse j ∨ j = i
  size : (t'.inodes i).type = typeFile →
    (t'.inodes i).sectorCount = sectorsForSize (t'.inodes i).size ∧
    (t'.inodes i).size.toNat ≤ 512 * (t'.inodes i).sectorCount.toNat
  bounds : (t'.inodes i).sectors ⊆ Set.Ico 11 4096
  free : ∀ n ∈ (t'.inodes i).sectors, n ∈ t.extent i ∨ n ∉ t.used
  used : ∀ n < 4096, n ∈ t'.used ↔ n ∈ (t'.inodes i).sectors ∨ (n ∈ t.used ∧ n ∉ t.extent i)

/-- The extents after a replacement. -/
theorem Replaces.extent_eq (h : Replaces t t' i) :
    t'.extent = update t.extent i (t'.inodes i).sectors := by
  funext j
  by_cases hj : j = i
  · subst hj
    rw [update_self]
    exact Set.ext fun n => ⟨fun hn => hn.2, fun hn => ⟨(h.inUse j).mpr (.inr rfl), hn⟩⟩
  · rw [update_of_ne hj]
    refine Set.ext fun n => ?_
    unfold Tables.extent
    rw [h.inodes j hj, Set.mem_ofPred_eq, Set.mem_ofPred_eq, h.inUse j]
    simp [hj]

/-- Another slot is a file after a replacement exactly when it was one before. -/
theorem Replaces.isFile_iff {j : Fin 64} (h : Replaces t t' i) (hj : j ≠ i) :
    t'.IsFile j ↔ t.IsFile j := by
  unfold Tables.IsFile
  rw [h.inodes j hj, h.inUse j]
  simp [hj]

/-- **A replacement keeps the invariant.** -/
theorem Tables.Consistent.replaces (h : t.Consistent leak) (hr : Replaces t t' i) :
    t'.Consistent leak := by
  have hlayout : t'.superblock.layout = mkfsLayout := hr.layout.trans h.layout
  have hroot : t.InUse rootInode := h.count_pos
  have hfile : ∀ j, t'.IsFile j → j = i ∨ (t'.inodes j = t.inodes j ∧ t.IsFile j) := by
    intro j hj
    by_cases hji : j = i
    · exact .inl hji
    · exact .inr ⟨hr.inodes j hji, (hr.isFile_iff hji).mp hj⟩
  refine ⟨hlayout, ?_, hr.count_le, fun j hj => ?_, fun j hj => ?_, fun j hj => ?_, ?_⟩
  · exact (hr.inUse rootInode).mpr (.inl hroot)
  · rw [hr.inUse, not_or] at hj
    rw [hr.inodes j hj.2]
    exact h.spare j hj.1
  · rcases hfile j hj with rfl | ⟨heq, hj'⟩
    · exact (hr.size hj.2).1
    · rw [heq]; exact h.size j hj'
  · rcases hfile j hj with rfl | ⟨heq, hj'⟩
    · exact (hr.size hj.2).2
    · rw [heq]; exact h.room j hj'
  · have halloc := h.alloc
    rw [h.total_toNat, h.data_toNat] at halloc
    rw [totalSectors_of_layout hlayout, dataStart_of_layout hlayout, hr.extent_eq]
    exact halloc.replace i hr.bounds hr.free hr.used

/-! ### The four changes -/

theorem setInode_self (t : Tables) (i : Fin 64) (ino : Inode) :
    (t.setInode i ino).inodes i = ino := update_self _ _ _

theorem setInode_of_ne (t : Tables) {j : Fin 64} (ino : Inode) (hj : j ≠ i) :
    (t.setInode i ino).inodes j = t.inodes j := update_of_ne hj _ _

/-- The largest size a write accepts needs no more than 2048 sectors, so nothing wraps. -/
theorem room_of_le_maxFileSize (h : size ≤ maxFileSize) :
    size.toNat ≤ 512 * (sectorsForSize size).toNat ∧ (sectorsForSize size).toNat ≤ 2048 := by
  have hle : size.toNat ≤ 1048576 := UInt32.le_iff_toNat_le.mp h
  rw [sectorsForSize_toNat (by omega)]
  omega

/-- A file that keeps its slot and gets the extent `[first, first + sectors)`. -/
theorem Replaces.of_resize (first : UInt32) (h : t.Consistent leak) (hi : t.IsFile i)
    (hsize : size ≤ maxFileSize) (hsb : t'.superblock = t.superblock)
    (hino : t'.inodes = update t.inodes i
      ((t.inodes i).withExtent first (sectorsForSize size) size)) (hlo : 11 ≤ first.toNat)
    (hhi : first.toNat + (sectorsForSize size).toNat ≤ 4096)
    (hfree : ∀ n, first.toNat ≤ n → n < first.toNat + (sectorsForSize size).toNat →
      n ∈ t.extent i ∨ n ∉ t.used) (hused : ∀ n < 4096, n ∈ t'.used ↔ (first.toNat ≤ n ∧
      n < first.toNat + (sectorsForSize size).toNat) ∨ (n ∈ t.used ∧ n ∉ t.extent i)) :
    Replaces t t' i := by
  have hself : t'.inodes i = (t.inodes i).withExtent first (sectorsForSize size) size := by
    rw [hino, update_self]
  have hsectors : ∀ n, n ∈ (t'.inodes i).sectors ↔
      first.toNat ≤ n ∧ n < first.toNat + (sectorsForSize size).toNat := by
    intro n
    rw [hself]
    exact ⟨fun hn => hn.2, fun hn => ⟨hi.2, hn⟩⟩
  refine ⟨fun j hj => ?_, by rw [hsb], by rw [hsb], by rw [hsb]; exact h.count_le, fun j => ?_,
    fun _ => ?_, fun n hn => ?_, fun n hn => ?_, fun n hn => ?_⟩
  · rw [hino, update_of_ne hj]
  · rw [← hi.1.or_iff j]
    unfold Tables.InUse
    rw [hsb]
  · rw [hself]
    exact ⟨rfl, (room_of_le_maxFileSize hsize).1⟩
  · have := (hsectors n).mp hn
    exact ⟨by omega, by omega⟩
  · have := (hsectors n).mp hn
    exact hfree n this.1 this.2
  · rw [hsectors, hused n hn]

section Resize

variable {leak : Set ℕ} {t t1 : Tables} {i : Fin 64} (h : t.Consistent leak) (hi : t.IsFile i)
include h hi

/-- The bitmap after a file has grown: the new extent was free, so releasing the old one
afterwards does not touch it. -/
theorem used_grow {first sectors : UInt32} (hsb : t1.superblock = t.superblock)
    (hfree : ∀ n, first.toNat ≤ n → n < first.toNat + sectors.toNat →
      Bitmap.testBit t.bitmap n = false)
    (hbits : ∀ n, Bitmap.testBit t1.bitmap n = true ↔ Bitmap.testBit t.bitmap n = true ∨
      (first.toNat ≤ n ∧ n < first.toNat + sectors.toNat)) (n : ℕ) :
    n ∈ (freeExtent t1 (t.inodes i).firstSector (t.inodes i).sectorCount).used ↔
      (first.toNat ≤ n ∧ n < first.toNat + sectors.toNat) ∨ (n ∈ t.used ∧ n ∉ t.extent i) := by
  obtain ⟨-, -, hhi⟩ := h.file_bounds hi
  have htotal : t1.superblock.totalSectors = totalSectors := by
    rw [hsb]
    exact totalSectors_of_layout h.layout
  have hcleared := testBit_freeExtent (t := t1) _ _ htotal hhi n
  rw [hbits, ← hi.mem_extent] at hcleared
  refine hcleared.trans ?_
  constructor
  · rintro ⟨hu | hnew, hnot⟩
    · exact .inr ⟨hu, hnot⟩
    · exact .inl hnew
  · rintro (hnew | ⟨hu, hnot⟩)
    · exact ⟨.inr hnew, fun hold => Tables.not_mem_used (hfree n hnew.1 hnew.2) (h.mem_used hold)⟩
    · exact ⟨.inl hu, hnot⟩

/-- The bitmap after the tail of an extent has been released. -/
theorem used_shrink {sectors : UInt32} (hle : sectors.toNat ≤ (t.inodes i).sectorCount.toNat)
    (n : ℕ) :
    n ∈ (freeExtent t ((t.inodes i).firstSector + sectors)
        ((t.inodes i).sectorCount - sectors)).used ↔
      ((t.inodes i).firstSector.toNat ≤ n ∧ n < (t.inodes i).firstSector.toNat + sectors.toNat) ∨
        (n ∈ t.used ∧ n ∉ t.extent i) := by
  obtain ⟨-, -, hhi⟩ := h.file_bounds hi
  have hext := hi.mem_extent n
  have hfirst : ((t.inodes i).firstSector + sectors).toNat
      = (t.inodes i).firstSector.toNat + sectors.toNat := by
    rw [UInt32.toNat_add]
    exact Nat.mod_eq_of_lt (by omega)
  have hlen : ((t.inodes i).sectorCount - sectors).toNat
      = (t.inodes i).sectorCount.toNat - sectors.toNat :=
    UInt32.toNat_sub_of_le _ _ (UInt32.le_iff_toNat_le.mpr hle)
  have hcleared := testBit_freeExtent ((t.inodes i).firstSector + sectors)
    ((t.inodes i).sectorCount - sectors) (totalSectors_of_layout h.layout) (by omega) n
  rw [hfirst, hlen] at hcleared
  refine hcleared.trans ?_
  constructor
  · rintro ⟨hu, hnot⟩
    -- a marked sector outside the tail is in the part that stays, or not the file's
    by_cases hn : n ∈ t.extent i
    · have := hext.mp hn
      exact .inl ⟨this.1, by omega⟩
    · exact .inr ⟨hu, hn⟩
  · rintro (hstay | ⟨hu, hnot⟩)
    · exact ⟨h.mem_used (hext.mpr ⟨hstay.1, by omega⟩), by omega⟩
    · rw [hext] at hnot
      exact ⟨hu, by omega⟩

end Resize

/-- **A resize is a replacement** of one inode's extent and size. -/
theorem resizeFile_replaces (h : t.Consistent leak) (hi : t.IsFile i) (hsize : size ≤ maxFileSize)
    (hr : resizeFile t i size (sectorsForSize size) = some t') :
    Replaces t t' i ∧ t'.superblock = t.superblock ∧ ∃ first, t'.inodes = update t.inodes i
      ((t.inodes i).withExtent first (sectorsForSize size) size) := by
  obtain ⟨-, hlo, hhi⟩ := h.file_bounds hi
  have hext := hi.mem_extent
  unfold resizeFile at hr
  by_cases hgrow : sectorsForSize size > (t.inodes i).sectorCount
  · -- grow: the extent moves to a free run
    rw [if_pos hgrow] at hr
    rcases allocContiguous_cases (sectorsForSize_pos size) (totalSectors_of_layout h.layout) with
      ⟨first, t1, halloc, hlo', hhi', hfree, hsb, hin, hbits⟩ | ⟨halloc, -⟩
    · rw [halloc] at hr
      cases hr
      rw [h.data_toNat] at hlo'
      have hino : update t1.inodes i
          ((t.inodes i).withExtent first (sectorsForSize size) size) = update t.inodes i
          ((t.inodes i).withExtent first (sectorsForSize size) size) := by rw [hin]
      exact ⟨Replaces.of_resize _ h hi hsize hsb hino hlo' hhi'
        (fun n h1 h2 => .inr (Tables.not_mem_used (hfree n h1 h2)))
        (fun n _ => used_grow h hi hsb hfree hbits n), hsb, first, hino⟩
    · rw [halloc] at hr
      cases hr
  · rw [if_neg hgrow] at hr
    have hle : (sectorsForSize size).toNat ≤ (t.inodes i).sectorCount.toNat :=
      UInt32.le_iff_toNat_le.mp (UInt32.not_lt.mp hgrow)
    by_cases hshrink : sectorsForSize size < (t.inodes i).sectorCount
    · -- shrink: the tail of the extent is released
      rw [if_pos hshrink] at hr
      cases hr
      exact ⟨Replaces.of_resize _ h hi hsize rfl rfl hlo (by omega)
        (fun n h1 h2 => .inl ((hext n).mpr ⟨h1, by omega⟩))
        (fun n _ => used_shrink h hi hle n), rfl, _, rfl⟩
    · -- same length: only the size changes
      rw [if_neg hshrink] at hr
      cases hr
      have heq : sectorsForSize size = (t.inodes i).sectorCount :=
        UInt32.le_antisymm (UInt32.not_lt.mp hgrow) (UInt32.not_lt.mp hshrink)
      refine ⟨Replaces.of_resize (t.inodes i).firstSector h hi hsize rfl
        (by rw [heq]; rfl) hlo (by rw [heq]; exact hhi)
        (fun n h1 h2 => .inl ((hext n).mpr ⟨h1, by rwa [← heq]⟩)) (fun n _ => ?_), rfl,
        (t.inodes i).firstSector, by rw [heq]; rfl⟩
      rw [heq, ← hext]
      exact h.used_iff i n

theorem Inode.sectors_zero : Inode.zero.sectors = ∅ :=
  Set.eq_empty_of_forall_notMem fun _ hn => absurd hn.1 (by decide)

/-- **A removal is a replacement** by the zeroed inode. -/
theorem removeFile_replaces (h : t.Consistent leak) (hi : t.IsFile i) :
    Replaces t (removeFile t i) i := by
  obtain ⟨-, -, hhi⟩ := h.file_bounds hi
  have hself : (removeFile t i).inodes i = Inode.zero := setInode_self _ _ _
  refine ⟨fun j hj => setInode_of_ne _ _ hj, rfl, rfl, h.count_le, hi.1.or_iff, fun hz => ?_,
    ?_, ?_, fun n hn => ?_⟩
  · rw [hself] at hz
    cases hz
  · rw [hself, Inode.sectors_zero]; exact Set.empty_subset _
  · rw [hself, Inode.sectors_zero]; exact fun n hn => absurd hn (Set.notMem_empty n)
  · rw [hself, Inode.sectors_zero, hi.mem_extent]
    refine (testBit_freeExtent _ _ (totalSectors_of_layout h.layout) hhi n).trans ?_
    exact ⟨.inr, fun hn => hn.resolve_left (Set.notMem_empty n)⟩

/-- **A move is a replacement** that keeps the extent. -/
theorem moveFile_replaces (h : t.Consistent leak) (hi : t.IsFile i) (parent : UInt32)
    (leaf : List UInt8) :
    Replaces t (moveFile t i parent leaf) i := by
  obtain ⟨-, hlo, hhi⟩ := h.file_bounds hi
  have hself : (moveFile t i parent leaf).inodes i = { t.inodes i with
      parent := parent, name := nameOf (leaf.take nameMax) } := setInode_self _ _ _
  have hsectors : ∀ n, n ∈ ((moveFile t i parent leaf).inodes i).sectors ↔ n ∈ t.extent i := by
    intro n
    rw [hself]
    exact ⟨fun hn => ⟨hi.1, hn⟩, fun hn => hn.2⟩
  refine ⟨fun j hj => setInode_of_ne _ _ hj, rfl, rfl, h.count_le, hi.1.or_iff, fun _ => ?_,
    fun n hn => ?_, fun n hn => .inl ((hsectors n).mp hn), fun n hn => ?_⟩
  · rw [hself]
    exact ⟨h.size i hi, h.room i hi⟩
  · have := (hi.mem_extent n).mp ((hsectors n).mp hn)
    exact ⟨by omega, by omega⟩
  · rw [hsectors]
    exact h.used_iff i n

/-- A slot `alloc_inode` may return: free, and either in use or the first one that is not. The
tables `t'` are `t` with `inode_count` covering it. -/
structure Claims (t t' : Tables) (i : Fin 64) : Prop where
  inodes : t'.inodes = t.inodes
  bitmap : t'.bitmap = t.bitmap
  layout : t'.superblock.layout = t.superblock.layout
  journal : t'.superblock.journalState = t.superblock.journalState
  count_le : t'.superblock.inodeCount.toNat ≤ 64
  inUse : ∀ j, t'.InUse j ↔ t.InUse j ∨ j = i
  free : (t.inodes i).type = 0
  ne_root : i ≠ rootInode

theorem allocInode_claims (h : t.Consistent leak) :
    (∃ i t', allocInode t = (some i, t') ∧ Claims t t' i) ∨ allocInode t = (none, t) := by
  rcases allocInode_cases h.count_pos with
    ⟨i, ha, hu, hroot, htype⟩ | ⟨i, ha, hcount, hroot⟩ | ⟨ha, -⟩
  · exact .inl ⟨i, t, ha, rfl, rfl, rfl, rfl, h.count_le, hu.or_iff, htype, hroot⟩
  · have hlast := i.isLt
    refine .inl ⟨i, _, ha, rfl, rfl, rfl, rfl, ?_, fun j => ?_, ?_, hroot⟩
    · dsimp only
      rw [idx32_succ_toNat]
      omega
    · unfold Tables.InUse
      rw [idx32_succ_toNat, Fin.ext_iff]
      omega
    · refine h.spare i fun hu => ?_
      have : i.val < t.superblock.inodeCount.toNat := hu
      omega
  · exact .inr ha

/-- Claiming a slot alone is a replacement: the slot stays free. -/
theorem Claims.replaces (hc : Claims t t' i) : Replaces t t' i := by
  have hself : (t'.inodes i).sectors = ∅ := by
    rw [hc.inodes]
    exact Set.eq_empty_of_forall_notMem fun _ hn => absurd (hc.free.symm.trans hn.1) (by decide)
  refine ⟨fun j _ => by rw [hc.inodes], hc.layout, hc.journal, hc.count_le, hc.inUse, fun hf => ?_,
    ?_, ?_, fun n _ => ?_⟩
  · rw [hc.inodes, hc.free] at hf
    cases hf
  · rw [hself]; exact Set.empty_subset _
  · rw [hself]; exact fun n hn => absurd hn (Set.notMem_empty n)
  · rw [hself, Tables.extent_of_type_zero hc.free]
    unfold Tables.used
    rw [hc.bitmap]
    simp

/-- **A creation is a replacement**: the claimed slot gets an inode with sectors that were free. -/
theorem Claims.create {t1 t2 : Tables} (hc : Claims t t1 i) (parent : UInt32) (leaf : List UInt8)
    {first : UInt32} (hsize : size ≤ maxFileSize) (hlo : 11 ≤ first.toNat)
    (hhi : first.toNat + (sectorsForSize size).toNat ≤ 4096)
    (hfree : ∀ n, first.toNat ≤ n → n < first.toNat + (sectorsForSize size).toNat →
      Bitmap.testBit t1.bitmap n = false) (hsb : t2.superblock = t1.superblock)
    (hin : t2.inodes = t1.inodes)
    (hbits : ∀ n, Bitmap.testBit t2.bitmap n = true ↔ Bitmap.testBit t1.bitmap n = true ∨
      (first.toNat ≤ n ∧ n < first.toNat + (sectorsForSize size).toNat)) :
    Replaces t (t2.setInode i (newInode parent leaf first (sectorsForSize size) size)) i := by
  have hself := setInode_self t2 i (newInode parent leaf first (sectorsForSize size) size)
  have hsectors : ∀ n, n ∈ (newInode parent leaf first (sectorsForSize size) size).sectors ↔
      first.toNat ≤ n ∧ n < first.toNat + (sectorsForSize size).toNat :=
    fun n => ⟨fun hn => hn.2, fun hn => ⟨rfl, hn⟩⟩
  have hsb' : (t2.setInode i (newInode parent leaf first (sectorsForSize size) size)).superblock
      = t1.superblock := hsb
  refine ⟨fun j hj => ?_, ?_, ?_, ?_, fun j => ?_, fun _ => ?_, fun n hn => ?_, fun n hn => ?_,
    fun n hn => ?_⟩
  · rw [setInode_of_ne _ _ hj, hin, hc.inodes]
  · rw [hsb']; exact hc.layout
  · rw [hsb']; exact hc.journal
  · rw [hsb']; exact hc.count_le
  · rw [← hc.inUse j]
    unfold Tables.InUse
    rw [hsb']
  · rw [hself]
    exact ⟨rfl, (room_of_le_maxFileSize hsize).1⟩
  · rw [hself, hsectors] at hn
    exact ⟨by omega, by omega⟩
  · rw [hself, hsectors] at hn
    have hclear := hfree n hn.1 hn.2
    rw [hc.bitmap] at hclear
    exact .inr (Tables.not_mem_used hclear)
  · -- the slot was free, so it had no sectors to give back
    rw [hself, hsectors, Tables.extent_of_type_zero hc.free]
    refine (hbits n).trans ?_
    rw [hc.bitmap, or_comm]
    exact or_congr_right (and_iff_left (Set.notMem_empty n)).symm

/-- **What the creation of a file can do**: put a new inode into a free slot, or fail, which at
most raises `inode_count`. -/
theorem newFile_cases (parent : UInt32) (leaf : List UInt8) (h : t.Consistent leak)
    (hsize : size ≤ maxFileSize) :
    (∃ i t' first, newFile t parent leaf size (sectorsForSize size) = (some i, t') ∧
      Replaces t t' i ∧ (t.inodes i).type = 0 ∧ i ≠ rootInode ∧
      t'.inodes = update t.inodes i (newInode parent leaf first (sectorsForSize size) size)) ∨
    (∃ t', newFile t parent leaf size (sectorsForSize size) = (none, t') ∧
      (t' = t ∨ ∃ i, Claims t t' i)) := by
  unfold newFile
  rcases allocInode_claims h with ⟨i, t1, ha, hc⟩ | ha
  · rw [ha]
    dsimp only
    have h1 := h.replaces hc.replaces
    rcases allocContiguous_cases (sectorsForSize_pos size) (totalSectors_of_layout h1.layout) with
      ⟨first, t2, halloc, hlo, hhi, hfree, hsb, hin, hbits⟩ | ⟨halloc, -⟩
    · rw [halloc]
      rw [h1.data_toNat] at hlo
      refine .inl ⟨i, _, first, rfl, hc.create parent leaf hsize hlo hhi hfree hsb hin hbits,
        hc.free, hc.ne_root, ?_⟩
      unfold Tables.setInode
      rw [hin, hc.inodes]
    · rw [halloc]
      exact .inr ⟨t1, rfl, .inr ⟨i, hc⟩⟩
  · rw [ha]
    exact .inr ⟨t, rfl, .inl rfl⟩

end MyOS.Diskfs
