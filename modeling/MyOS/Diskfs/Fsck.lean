import MyOS.Diskfs.Consistent

/-!
# The filesystem check

`diskfs_fsck` of `kernel/fs/diskfs/diskfs.c`: it marks the metadata and every file extent in a
private bitmap, counts the sectors it meets twice and the extents that leave the data area, and
compares the result with the allocation bitmap up to the first difference.

`SectorsAccounted` says what it looks for, and `FsckState.Exact` is the invariant of its loop, which
says both ways what an error count of zero means: `diskfs_fsck` returns 0 exactly on such tables
(`fsck_exact`).
-/

namespace MyOS.Diskfs

open List

/-- `append_report` on a report buffer of `reportSize` bytes; a null buffer is one of size 0. -/
def appendReport (reportSize : ℕ) (report : List Char) (text : String) : List Char :=
  if reportSize = 0 then report
  else report ++ text.toList.take (reportSize - 1 - report.length)

/-- The local variables of `diskfs_fsck`. -/
structure FsckState where
  seen : Sector
  errors : ℕ
  report : List Char

namespace FsckState

/-- `errors++` and a line of the report. -/
def error (reportSize : ℕ) (text : String) (st : FsckState) : FsckState :=
  { st with errors := st.errors + 1, report := appendReport reportSize st.report text }

/-- One sector of an extent. -/
def visit (reportSize : ℕ) (st : FsckState) (sector : ℕ) : FsckState :=
  let st := if Bitmap.testBit st.seen sector then st.error reportSize "overlapping extent\n" else st
  { st with seen := Bitmap.setBit st.seen sector }

/-- One slot of the inode table. -/
def inode (t : Tables) (reportSize : ℕ) (st : FsckState) (i : Fin 64) : FsckState :=
  if t.IsFile i then
    let ino := t.inodes i
    if ino.firstSector < t.superblock.dataStart ∨
        ino.firstSector + ino.sectorCount > t.superblock.totalSectors then
      st.error reportSize "file extent out of bounds\n"
    else (extentSectors ino.firstSector ino.sectorCount).foldl (visit reportSize) st
  else st

/-- The comparison with the bitmap, up to the first difference. -/
def compare (t : Tables) (reportSize : ℕ) (st : FsckState) : FsckState :=
  if (List.range t.superblock.totalSectors.toNat).any
      (fun n => Bitmap.testBit t.bitmap n != Bitmap.testBit st.seen n) then
    st.error reportSize "bitmap mismatch\n"
  else st

end FsckState

/-- The state in which `diskfs_fsck` starts on the inode table: the metadata is marked. -/
def fsckStart (t : Tables) : FsckState :=
  ⟨Bitmap.putBits Bytes.zero (List.range t.superblock.dataStart.toNat) true, 0, []⟩

/-- `diskfs_fsck`: the number of errors and the report. -/
def diskfsFsck (s : Fs) (reportSize : ℕ) : UInt32 × List Char :=
  if s.available then
    let st := (((List.finRange 64).foldl (FsckState.inode s.tables reportSize)
      (fsckStart s.tables))).compare s.tables reportSize
    (UInt32.ofNat st.errors,
      if st.errors = 0 then appendReport reportSize st.report "diskfs fsck: clean\n" else st.report)
  else (1, appendReport reportSize [] "diskfs unavailable\n")

/-! ### What the check looks for -/

namespace Tables

/-- The extent of a file, if slot `i` is one, lies in the data area; also when it has no sector. -/
def InDataArea (t : Tables) (i : Fin 64) : Prop :=
  t.IsFile i → t.superblock.dataStart.toNat ≤ (t.inodes i).firstSector.toNat ∧
    (t.inodes i).firstSector.toNat + (t.inodes i).sectorCount.toNat ≤ 4096

/-- Every sector belongs to the metadata, to one file, or to nobody, and the bitmap knows it. -/
structure SectorsAccounted (t : Tables) : Prop where
  bounds : ∀ i, t.InDataArea i
  disjoint : ∀ i j, i ≠ j → Disjoint (t.extent i) (t.extent j)
  bitmap : ∀ n < 4096, Bitmap.testBit t.bitmap n = true ↔
    n < t.superblock.dataStart.toNat ∨ ∃ i, n ∈ t.extent i

/-- The domain of the check: the size of the disk, and extents that do not wrap around. -/
structure Checkable (t : Tables) : Prop where
  total : t.superblock.totalSectors.toNat = 4096
  data : t.superblock.dataStart.toNat ≤ 4096
  sum : ∀ i, t.IsFile i →
    (t.inodes i).firstSector.toNat + (t.inodes i).sectorCount.toNat < 2 ^ 32

theorem extent_eq_empty {t : Tables} {i : Fin 64} (hf : ¬ t.IsFile i) : t.extent i = ∅ :=
  Set.eq_empty_of_forall_notMem fun _ hn => hf ⟨hn.1, hn.2.1⟩

end Tables

/-! ### Visiting sectors and slots -/

theorem seen_visit (reportSize : ℕ) (st : FsckState) (k : ℕ) :
    (st.visit reportSize k).seen = Bitmap.setBit st.seen k := by
  unfold FsckState.visit
  split <;> rfl

theorem seen_foldl_visit (reportSize : ℕ) (st : FsckState) (ks : List ℕ) :
    (ks.foldl (FsckState.visit reportSize) st).seen = Bitmap.putBits st.seen ks true := by
  induction ks generalizing st with
  | nil => rfl
  | cons k ks ih =>
    rw [foldl_cons, ih, seen_visit]
    rfl

/-- The sectors that `diskfs_fsck` marks for a slot of the inode table. -/
def slotSectors (t : Tables) (i : Fin 64) : List ℕ :=
  if t.IsFile i ∧ ¬ ((t.inodes i).firstSector < t.superblock.dataStart ∨
      (t.inodes i).firstSector + (t.inodes i).sectorCount > t.superblock.totalSectors) then
    extentSectors (t.inodes i).firstSector (t.inodes i).sectorCount else []

/-- **What `diskfs_fsck` has marked** when it comes to the comparison: the metadata, and the sectors
of every slot. -/
theorem fsck_seen (t : Tables) (reportSize : ℕ) :
    ((List.finRange 64).foldl (FsckState.inode t reportSize) (fsckStart t)).seen =
      Bitmap.putBits Bytes.zero (List.range t.superblock.dataStart.toNat ++
        (List.finRange 64).flatMap (slotSectors t)) true := by
  have hslot : ∀ (st : FsckState) i, (st.inode t reportSize i).seen =
      Bitmap.putBits st.seen (slotSectors t i) true := by
    intro st i
    unfold FsckState.inode slotSectors
    by_cases hfile : t.IsFile i
    · simp only [hfile, if_true, true_and]
      split_ifs
      · rfl
      · exact seen_foldl_visit ..
    · simp only [hfile, if_false, false_and]
      rfl
  have hloop : ∀ (l : List (Fin 64)) (st : FsckState),
      (l.foldl (FsckState.inode t reportSize) st).seen =
        Bitmap.putBits st.seen (l.flatMap (slotSectors t)) true := by
    intro l
    induction l with
    | nil => exact fun _ => rfl
    | cons i l ih =>
      intro st
      rw [foldl_cons, ih, hslot, flatMap_cons]
      exact foldl_append.symm
  rw [hloop]
  exact foldl_append.symm

theorem visit_seen (reportSize : ℕ) (st : FsckState) {k : ℕ} (hk : k < 4096) (n : ℕ) :
    Bitmap.testBit (st.visit reportSize k).seen n = true ↔
      Bitmap.testBit st.seen n = true ∨ n = k := by
  rw [seen_visit, Bitmap.testBit_setBit _ (by omega), Bool.or_eq_true, decide_eq_true_eq,
    eq_comm (a := k)]

theorem visit_errors (reportSize : ℕ) (st : FsckState) (k : ℕ) :
    (st.visit reportSize k).errors = st.errors + if Bitmap.testBit st.seen k then 1 else 0 := by
  unfold FsckState.visit
  split <;> rfl

/-- A list of distinct sectors: they are marked afterwards, and each that was marked before is an
error. -/
theorem foldl_visit (reportSize : ℕ) (st : FsckState) {ks : List ℕ} (hnodup : ks.Nodup)
    (hlt : ∀ k ∈ ks, k < 4096) :
    (∀ n, Bitmap.testBit (ks.foldl (FsckState.visit reportSize) st).seen n = true ↔
      Bitmap.testBit st.seen n = true ∨ n ∈ ks) ∧
    (ks.foldl (FsckState.visit reportSize) st).errors
      = st.errors + ks.countP (fun k => Bitmap.testBit st.seen k) := by
  induction ks generalizing st with
  | nil => simp
  | cons k ks ih =>
    rw [nodup_cons] at hnodup
    have hseen := visit_seen reportSize st (hlt k mem_cons_self)
    obtain ⟨hs, he⟩ := ih (st.visit reportSize k) hnodup.2
      (fun j hj => hlt j (mem_cons_of_mem _ hj))
    rw [foldl_cons]
    refine ⟨fun n => ?_, ?_⟩
    · rw [hs n, hseen n, mem_cons, or_assoc]
    · -- marking `k` does not change the bits of the other sectors
      have hcount : ks.countP (fun j => Bitmap.testBit (st.visit reportSize k).seen j)
          = ks.countP (fun j => Bitmap.testBit st.seen j) := by
        refine countP_congr fun j hj => ?_
        rw [hseen j]
        exact or_iff_left fun h => hnodup.1 (h ▸ hj)
      rw [he, hcount, visit_errors, countP_cons]
      omega

theorem nodup_extentSectors {first sectors : UInt32}
    (h : first.toNat + sectors.toNat ≤ 2 ^ 32) : (extentSectors first sectors).Nodup := by
  unfold extentSectors
  rw [nodup_map_iff_inj_on nodup_range]
  intro a ha b hb hab
  rw [mem_range] at ha hb
  rw [UInt32.toNat_add, UInt32.toNat_add, UInt32.toNat_ofNat', UInt32.toNat_ofNat'] at hab
  omega

/-- The slots of `l` have been visited. No error has been counted exactly if their extents lie in
the data area and are disjoint, and then exactly their sectors are marked. -/
structure FsckState.Exact (t : Tables) (l : List (Fin 64)) (st : FsckState) : Prop where
  errors_le : st.errors ≤ 4096 * l.length
  zero_iff : st.errors = 0 ↔ (∀ i ∈ l, t.InDataArea i) ∧
    l.Pairwise fun i j => Disjoint (t.extent i) (t.extent j)
  seen : st.errors = 0 → ∀ n < 4096, Bitmap.testBit st.seen n = true ↔
    n < t.superblock.dataStart.toNat ∨ ∃ i ∈ l, n ∈ t.extent i

namespace FsckState.Exact

variable {t : Tables} {l : List (Fin 64)} {st : FsckState} {i : Fin 64}

theorem start (h : t.Checkable) : (fsckStart t).Exact t [] := by
  refine ⟨le_rfl, iff_of_true rfl ⟨by simp, List.Pairwise.nil⟩, fun _ n hn => ?_⟩
  have hdata := h.data
  unfold fsckStart
  rw [Bitmap.testBit_putBits_true _ fun k hk => ?_]
  · simp
  · have := mem_range.mp hk
    omega

/-- A slot that is no file adds nothing. -/
theorem skip (hc : st.Exact t l) (hf : ¬ t.IsFile i) : st.Exact t (l ++ [i]) := by
  have hempty := Tables.extent_eq_empty hf
  refine ⟨hc.errors_le.trans (by rw [length_append]; omega), ?_, fun h0 n hn => ?_⟩
  · rw [hc.zero_iff, pairwise_append, forall_mem_append, forall_mem_singleton]
    have hin : t.InDataArea i := fun h => absurd h hf
    simp [hempty, hin]
  · rw [hc.seen h0 n hn]
    simp [or_and_right, exists_or, hempty]

/-- An extent that leaves the data area is an error. -/
theorem outside (hc : st.Exact t l) (reportSize : ℕ) (text : String) (hout : ¬ t.InDataArea i) :
    (st.error reportSize text).Exact t (l ++ [i]) := by
  have herrors : (st.error reportSize text).errors = st.errors + 1 := rfl
  have hle := hc.errors_le
  refine ⟨?_, iff_of_false (by omega) fun h => hout (h.1 i (by simp)), fun h0 => by omega⟩
  rw [herrors, length_append, length_singleton]
  omega

section

variable (hc : st.Exact t l) (h : t.Checkable) (reportSize : ℕ)
include hc h reportSize

/-- An extent inside the data area adds its sectors. -/
theorem inside (hf : t.IsFile i) (hin : t.InDataArea i) :
    ((extentSectors (t.inodes i).firstSector (t.inodes i).sectorCount).foldl
      (FsckState.visit reportSize) st).Exact t (l ++ [i]) := by
  obtain ⟨hlo, hhi⟩ := hin hf
  have hsum := h.sum i hf
  have hmem : ∀ n, n ∈ extentSectors (t.inodes i).firstSector (t.inodes i).sectorCount ↔
      n ∈ t.extent i := fun n => (mem_extentSectors _ _ (by omega) n).trans (hf.mem_extent n).symm
  have hbound : ∀ n ∈ t.extent i, t.superblock.dataStart.toNat ≤ n ∧ n < 4096 := fun n hn => by
    have := (hf.mem_extent n).mp hn
    omega
  have hlen : (extentSectors (t.inodes i).firstSector (t.inodes i).sectorCount).length ≤ 4096 := by
    unfold extentSectors
    rw [length_map, length_range]
    omega
  have hnodup : (extentSectors (t.inodes i).firstSector (t.inodes i).sectorCount).Nodup :=
    nodup_extentSectors (by omega)
  generalize extentSectors (t.inodes i).firstSector (t.inodes i).sectorCount = ks
    at hmem hlen hnodup ⊢
  obtain ⟨hs, he⟩ := foldl_visit reportSize st hnodup fun k hk =>
    (hbound k ((hmem k).mp hk)).2
  have hcount : ks.countP (fun k => Bitmap.testBit st.seen k) ≤ 4096 :=
    countP_le_length.trans hlen
  have hle := hc.errors_le
  -- no sector of the extent is marked exactly if the extent is disjoint from those before
  have hfresh : st.errors = 0 → (ks.countP (fun k => Bitmap.testBit st.seen k) = 0 ↔
      ∀ j ∈ l, Disjoint (t.extent j) (t.extent i)) := by
    intro h0
    rw [countP_eq_zero]
    constructor
    · intro hzero j hj
      rw [Set.disjoint_left]
      intro n hnj hni
      refine hzero n ((hmem n).mpr hni) ((hc.seen h0 n (hbound n hni).2).mpr ?_)
      exact .inr ⟨j, hj, hnj⟩
    · intro hdisj n hn hseen
      have hni := (hmem n).mp hn
      have hb := hbound n hni
      rcases (hc.seen h0 n hb.2).mp hseen with hlow | ⟨j, hj, hnj⟩
      · omega
      · exact Set.disjoint_left.mp (hdisj j hj) hnj hni
  refine ⟨?_, ?_, fun h0 n hn => ?_⟩
  · rw [he, length_append, length_singleton]
    omega
  · rw [he, Nat.add_eq_zero_iff, pairwise_append, forall_mem_append,
      forall_mem_singleton]
    constructor
    · rintro ⟨h0, hcz⟩
      obtain ⟨hb, hp⟩ := hc.zero_iff.mp h0
      exact ⟨⟨hb, hin⟩, hp, pairwise_singleton _ _, fun j hj k hk =>
        mem_singleton.mp hk ▸ (hfresh h0).mp hcz j hj⟩
    · rintro ⟨⟨hb, -⟩, hp, -, hdisj⟩
      have h0 := hc.zero_iff.mpr ⟨hb, hp⟩
      exact ⟨h0, (hfresh h0).mpr fun j hj => hdisj j hj i (mem_singleton_self i)⟩
  · rw [hs n, hmem, hc.seen (by omega) n hn]
    simp only [mem_append, mem_singleton, or_and_right, exists_or, exists_eq_left, or_assoc]

/-- **One slot** of the inode table. -/
theorem inode (i : Fin 64) :
    (st.inode t reportSize i).Exact t (l ++ [i]) := by
  unfold FsckState.inode
  by_cases hf : t.IsFile i
  · have hsum : ((t.inodes i).firstSector + (t.inodes i).sectorCount).toNat
        = (t.inodes i).firstSector.toNat + (t.inodes i).sectorCount.toNat := by
      rw [UInt32.toNat_add]
      exact Nat.mod_eq_of_lt (h.sum i hf)
    have hcheck : ((t.inodes i).firstSector < t.superblock.dataStart ∨
        (t.inodes i).firstSector + (t.inodes i).sectorCount > t.superblock.totalSectors) ↔
        ¬ t.InDataArea i := by
      unfold Tables.InDataArea
      rw [gt_iff_lt, UInt32.lt_iff_toNat_lt, UInt32.lt_iff_toNat_lt, hsum, h.total,
        forall_prop_of_true hf]
      omega
    rw [if_pos hf]
    by_cases hin : t.InDataArea i
    · rw [if_neg (hcheck.not.mpr (not_not_intro hin))]
      exact hc.inside h reportSize hf hin
    · rw [if_pos (hcheck.mpr hin)]
      exact hc.outside reportSize _ hin
  · rw [if_neg hf]
    exact hc.skip hf

/-- The whole table. -/
theorem foldl (l' : List (Fin 64)) :
    (l'.foldl (FsckState.inode t reportSize) st).Exact t (l ++ l') := by
  induction l' generalizing l st with
  | nil => rwa [append_nil]
  | cons i l' ih =>
    rw [append_cons]
    exact ih (hc.inode h reportSize i)

end

end FsckState.Exact

/-! ### The verdict -/

/-- The local variables at the end of `diskfs_fsck`. -/
def fsckEnd (t : Tables) (reportSize : ℕ) : FsckState :=
  ((List.finRange 64).foldl (FsckState.inode t reportSize) (fsckStart t)).compare t reportSize

/-- The number of errors fits its 32 bits, and is zero exactly on accounted tables. -/
theorem fsckEnd_errors {t : Tables} (h : t.Checkable) (reportSize : ℕ) :
    (fsckEnd t reportSize).errors < 2 ^ 32 ∧
    ((fsckEnd t reportSize).errors = 0 ↔ t.SectorsAccounted) := by
  have hc := (FsckState.Exact.start h).foldl h reportSize (List.finRange 64)
  rw [nil_append] at hc
  unfold fsckEnd
  generalize (List.finRange 64).foldl (FsckState.inode t reportSize) (fsckStart t) = st at hc ⊢
  have hle : st.errors ≤ 4096 * 64 := by simpa using hc.errors_le
  -- the disjointness of all pairs
  have hsymm : Std.Symm fun i j => Disjoint (t.extent i) (t.extent j) := ⟨fun _ _ hd => hd.symm⟩
  have hpairs : (List.finRange 64).Pairwise (fun i j => Disjoint (t.extent i) (t.extent j)) ↔
      ∀ i j, i ≠ j → Disjoint (t.extent i) (t.extent j) :=
    ⟨fun hp i j hij => hp.forall (mem_finRange i) (mem_finRange j) hij,
      fun hd => (nodup_finRange 64).imp fun hij => hd _ _ hij⟩
  have hzero := hc.zero_iff
  rw [hpairs] at hzero
  simp only [mem_finRange, forall_const] at hzero
  have hseen := hc.seen
  simp only [mem_finRange, true_and] at hseen
  unfold FsckState.compare
  rw [h.total]
  split_ifs with hany
  · -- a sector on which the two bitmaps differ
    have herrors : (st.error reportSize "bitmap mismatch\n").errors = st.errors + 1 := rfl
    rw [herrors]
    refine ⟨by omega, iff_of_false (by omega) fun ha => ?_⟩
    obtain ⟨n, hn, hne⟩ := any_eq_true.mp hany
    rw [mem_range] at hn
    refine bne_iff_ne.mp hne (Bool.eq_iff_iff.mpr ?_)
    rw [ha.bitmap n hn, hseen (hzero.mpr ⟨ha.bounds, ha.disjoint⟩) n hn]
  · refine ⟨by omega, fun h0 => ?_, fun ha => hzero.mpr ⟨ha.bounds, ha.disjoint⟩⟩
    obtain ⟨hb, hd⟩ := hzero.mp h0
    refine ⟨hb, hd, fun n hn => ?_⟩
    rw [← hseen h0 n hn]
    by_contra hne
    refine hany (any_eq_true.mpr ⟨n, mem_range.mpr hn, bne_iff_ne.mpr fun heq => hne ?_⟩)
    rw [heq]

/-- **The check is exact**: on a mounted filesystem `diskfs_fsck` returns 0 if and only if the
extents lie in the data area and share no sector, and the bitmap marks exactly them and the
metadata. -/
theorem fsck_exact (s : Fs) (havail : s.available = true)
    (htotal : s.tables.superblock.totalSectors = 4096)
    (hdata : s.tables.superblock.dataStart.toNat ≤ 4096)
    (hsum : ∀ i, s.tables.IsFile i → (s.tables.inodes i).firstSector.toNat +
      (s.tables.inodes i).sectorCount.toNat < 2 ^ 32) (reportSize : ℕ) :
    (diskfsFsck s reportSize).1 = 0 ↔ (∀ i, s.tables.IsFile i →
        s.tables.superblock.dataStart.toNat ≤ (s.tables.inodes i).firstSector.toNat ∧
        (s.tables.inodes i).firstSector.toNat + (s.tables.inodes i).sectorCount.toNat ≤ 4096) ∧
      (∀ i j, i ≠ j → Disjoint (s.tables.extent i) (s.tables.extent j)) ∧
      ∀ n < 4096, Bitmap.testBit s.tables.bitmap n = true ↔
        n < s.tables.superblock.dataStart.toNat ∨ ∃ i, n ∈ s.tables.extent i := by
  obtain ⟨hlt, hiff⟩ := fsckEnd_errors (t := s.tables) ⟨by rw [htotal]; rfl, hdata, hsum⟩ reportSize
  have hresult :
      (diskfsFsck s reportSize).1 = UInt32.ofNat (fsckEnd s.tables reportSize).errors := by
    unfold diskfsFsck
    rw [if_pos havail]
    rfl
  rw [hresult, ← UInt32.toNat_inj, UInt32.toNat_ofNat', Nat.mod_eq_of_lt hlt, UInt32.toNat_zero,
    hiff]
  exact ⟨fun h => ⟨h.bounds, h.disjoint, h.bitmap⟩, fun h => ⟨h.1, h.2.1, h.2.2⟩⟩

/-- **A consistent filesystem is clean**: `diskfs_fsck` counts no error. -/
theorem diskfsFsck_eq_zero {s : Fs} (havail : s.available = true)
    (h : s.tables.Consistent ∅) (reportSize : ℕ) : (diskfsFsck s reportSize).1 = 0 := by
  have hcheck : s.tables.Checkable := ⟨h.total_toNat, by rw [h.data_toNat]; omega, fun i hi => by
    have := (h.file_bounds hi).2.2
    omega⟩
  have hacc : s.tables.SectorsAccounted := by
    refine ⟨fun i hi => ?_, h.alloc.disjoint, fun n hn => ?_⟩
    · rw [h.data_toNat]
      exact (h.file_bounds hi).2
    · refine (h.alloc.used_iff n (by rw [h.total_toNat]; exact hn)).trans ?_
      simp only [Set.mem_empty_iff_false, or_false]
  unfold diskfsFsck
  rw [if_pos havail]
  change UInt32.ofNat (fsckEnd s.tables reportSize).errors = 0
  rw [(fsckEnd_errors hcheck reportSize).2.mpr hacc]
  rfl

end MyOS.Diskfs
