import MyOS.Diskfs.Crash

/-!
# Mounting after a crash

`diskfs_initialize` reads the tables that a crash left, clears the marker and goes on; it does not
rebuild the bitmap. `recovery_safe` says when that is enough.

The inode of a file reaches the disk before the bitmap. A crash between the two leaves an inode with
sectors that the bitmap does not know (`Torn`), and the next write can take them (`torn_create`). At
every other crash point the bitmap covers all live extents, and marked sectors that belong to nobody
count as leaked. A torn slot that `inode_count` does not cover yet is not live, but a later write
that claims it and then finds no room makes it live as it is.
-/

namespace MyOS.Diskfs

open BlockCache ExtentAlloc

/-! ### The mounted tables -/

section Mount

variable {s0 : Fs} {start : UInt32} {t : Tables}

/-- **Any mount of consistent tables**, clean or dirty, on a drive that never fails is a good
state. -/
theorem Good.of_recovery {leak : Set ℕ} (hr : s0.block.Reliable)
    (hm : Mirrors (remount s0.block start).onDisk t) (hc : t.Consistent leak)
    (h : (diskfsInitialize s0 start).1.available = true) :
    Good leak (diskfsInitialize s0 start).1 := by
  by_cases hj : t.superblock.journalState = 0
  · exact Good.of_mount hr hm hc hj h
  · obtain ⟨hload, hvalid⟩ := mount_available h
    have ht := loadTables_true hm hc.layout hload
    have hb := loadTables_rawReads (remount s0.block start)
    rw [ht] at hvalid
    -- the tables are read without touching the cache, then the marker is written
    have hset : Settled (loadTables (remount s0.block start)).2.2.cache := by
      rw [hb.cache]
      exact remount_settled _ _
    obtain ⟨b', hw, hlog, hph⟩ := writeJournal_phase
      (s := ⟨(loadTables (remount s0.block start)).2.2, true, t, []⟩)
      (hb.moves.ok (remount_ok _ _)) (hb.moves.reliable hr) hset 0
    have hold : (loadTables (remount s0.block start)).2.2.logical
        = (remount s0.block start).onDisk := by
      rw [Moves.logical_eq hb.moves (remount_ok _ _), remount_logical]
    have heq : (diskfsInitialize s0 start).1
        = ⟨b', true, t.setJournal 0, rebuildFileList (t.setJournal 0)⟩ := by
      unfold diskfsInitialize
      dsimp only
      rw [hload, ht, hvalid, Bool.and_self, if_pos rfl, if_pos (by simp [hj]), hw]
    rw [heq]
    refine ⟨hph.ok, hph.reliable, hph.settled, rfl, rfl, hc.setJournal 0, ?_, rfl⟩
    rw [hlog]
    change Mirrors (storeJournal _ _ (loadTables (remount s0.block start)).2.2.logical) _
    rw [hold]
    exact hm.journal_write 0

end Mount

/-! ### Torn crash points -/

/-- The crash tables `u` give slot `i` sectors that it did not own in the tables `t` before the
operation, and still have the bitmap of `t`. -/
structure Torn (t u : Tables) (i : Fin 64) : Prop where
  sectors : ¬ (u.inodes i).sectors ⊆ t.extent i
  bitmap : u.bitmap = t.bitmap

/-- Every sector of every live file is marked, and live files never share a sector, whatever is
called afterwards. -/
structure RecoverySafe (s : Fs) : Prop where
  marked : ∀ i, s.tables.extent i ⊆ s.tables.used
  later : ∀ ops i j, i ≠ j →
    Disjoint ((run s ops).tables.extent i) ((run s ops).tables.extent j)

theorem Good.recoverySafe {leak : Set ℕ} {s : Fs} (h : Good leak s) : RecoverySafe s :=
  ⟨fun _ _ hn => h.consistent.mem_used hn, fun ops => (h.run ops).consistent.alloc.disjoint⟩

/-- The sectors of an inode are its extent, in consistent tables. -/
theorem Tables.Consistent.sectors_subset {leak : Set ℕ} {t : Tables} (h : t.Consistent leak)
    (i : Fin 64) : (t.inodes i).sectors ⊆ t.extent i := by
  intro n hn
  refine ⟨?_, hn⟩
  by_contra hu
  exact nomatch (h.spare i hu).symm.trans hn.1

section Stale

variable {leak : Set ℕ} {t t' u : Tables} {i : Fin 64}

/-- **The bitmap lags behind.** An inode that only gave up sectors leaves consistent tables, with
these sectors leaked. -/
theorem Replaces.stale_bitmap (h : t.Consistent leak) (hr : Replaces t t' i)
    (hsub : (t'.inodes i).sectors ⊆ t.extent i) (hin : u.inodes = t'.inodes)
    (hbm : u.bitmap = t.bitmap) (hl : u.superblock.layout = mkfsLayout)
    (hcount : u.superblock.inodeCount.toNat ≤ 64) (huse : ∀ j, u.InUse j ↔ t.InUse j)
    (hi : t.InUse i) : u.Consistent (leak ∪ (t.extent i \ (t'.inodes i).sectors)) := by
  have hfile : ∀ j, u.IsFile j ↔ t'.IsFile j := by
    intro j
    unfold Tables.IsFile
    rw [hin, huse, hr.inUse]
    refine and_congr_left fun _ => ⟨.inl, fun hj => hj.elim id ?_⟩
    rintro rfl
    exact hi
  have ht' := h.replaces hr
  have hext : u.extent = Function.update t.extent i (t'.inodes i).sectors := by
    rw [← hr.extent_eq]
    funext j
    refine Set.ext fun n => ?_
    unfold Tables.extent
    rw [Set.mem_ofPred_eq, Set.mem_ofPred_eq, hin, huse, hr.inUse]
    refine and_congr_left fun _ => ⟨.inl, fun hj => hj.elim id ?_⟩
    rintro rfl
    exact hi
  have hused : u.used = t.used := by
    unfold Tables.used
    rw [hbm]
  refine ⟨hl, (huse rootInode).mpr h.count_pos, hcount, fun j hj => ?_, fun j hj => ?_,
    fun j hj => ?_, ?_⟩
  · rw [huse] at hj
    have hji : j ≠ i := fun heq => hj (heq ▸ hi)
    rw [hin, hr.inodes j hji]
    exact h.spare j hj
  · rw [hin]
    exact ht'.size j ((hfile j).mp hj)
  · rw [hin]
    exact ht'.room j ((hfile j).mp hj)
  · have halloc := h.alloc
    rw [h.total_toNat, h.data_toNat] at halloc
    rw [totalSectors_of_layout hl, dataStart_of_layout hl, hext, hused]
    exact halloc.giveUp i hsub

section

variable {kind : Kind} {w : BlockAction} (h : t.Consistent leak) (hc : Change t i kind t' w)
include h hc

/-- A new file owns at least one sector, so a change that takes no new sectors is to a slot in
use. -/
theorem Change.inUse_of_subset (hsub : (t'.inodes i).sectors ⊆ t.extent i) : t.InUse i := by
  have ht' := hc.consistent h
  have hdata := @hc.size_of_data leak _ _ _ _ _ h
  cases hc with
  | resize hi _ _ => exact hi.1
  | create hdir hleaf hnone hsize hn =>
    obtain ⟨hf, -, -⟩ := hdata rfl
    obtain ⟨hpos, -, -⟩ := ht'.file_bounds hf
    exact (hsub (show (t'.inodes i).firstSector.toNat ∈ _ from ⟨hf.2, le_refl _, by omega⟩)).1
  | remove hi => exact hi.1
  | move hi _ _ _ => exact hi.1

/-- While a change is written out, the tables on disk are consistent unless it took new sectors. -/
theorem BodyState.consistent (hu : BodyState t t' u)
    (hsub : u.inodes = t'.inodes → u.bitmap = t.bitmap → (t'.inodes i).sectors ⊆ t.extent i) :
    ∃ leak', u.Consistent leak' := by
  have hr := hc.replaces h
  have ht' := hc.consistent h
  have hboth : ∀ i', t.InUse i → (t'.InUse i' ↔ t.InUse i') := by
    intro j hi
    refine (hr.inUse j).trans ⟨fun hj => hj.elim id ?_, .inl⟩
    rintro rfl
    exact hi
  cases hu with
  | old => exact ⟨leak, h⟩
  | inode =>
    have hs := hsub rfl rfl
    exact ⟨_, hr.stale_bitmap h hs rfl rfl h.layout h.count_le (fun _ => Iff.rfl)
      (hc.inUse_of_subset h hs)⟩
  | superblock =>
    have hs := hsub rfl rfl
    have hi := hc.inUse_of_subset h hs
    exact ⟨_, hr.stale_bitmap h hs rfl rfl ht'.layout ht'.count_le (fun j => hboth j hi) hi⟩
  | new => exact ⟨leak, ht'⟩

end

end Stale

section CrashStates

variable {leak : Set ℕ} {t u : Tables} {p : Plan}

/-- **At every crash point that is not torn the tables are consistent**, up to leaked sectors. -/
theorem CrashState.recoverable (h : t.Consistent leak) (hp : p.Sound (t.setJournal 1))
    (hu : CrashState t p u) (hfine : ∀ i, ¬ Torn t u i) : ∃ leak', u.Consistent leak' := by
  cases hu with
  | before => exact ⟨leak, h⟩
  | begun => exact ⟨leak, h.setJournal 1⟩
  | noRoom =>
    cases hp with
    | noRoom ht' =>
      rcases ht' with rfl | ⟨i, hc⟩
      · exact ⟨leak, (h.setJournal 1).setJournal 0⟩
      · exact ⟨leak, ((h.setJournal 1).replaces hc.replaces).setJournal 0⟩
  | body hbody =>
    cases hp with
    | @change i kind t' w hc =>
      refine hbody.consistent (h.setJournal 1) hc fun hin hbm => ?_
      by_contra hsub
      rw [← hin] at hsub
      exact hfine i ⟨hsub, hbm⟩
  | committed =>
    cases hp with
    | change hc => exact ⟨leak, (hc.consistent (h.setJournal 1)).setJournal 0⟩

/-- The inode table on disk is the one before the operation or the one after its change. -/
theorem CrashState.inodes_cases (hp : p.Sound (t.setJournal 1)) (hu : CrashState t p u) :
    u.inodes = t.inodes ∨
      ∃ i kind t' w, Change (t.setJournal 1) i kind t' w ∧ u.inodes = t'.inodes := by
  cases hu with
  | before => exact .inl rfl
  | begun => exact .inl rfl
  | noRoom =>
    cases hp with
    | noRoom ht' => exact .inl (Plan.Sound.noRoom_tables ht').1
  | body hb =>
    cases hp with
    | change hc =>
      cases hb with
      | old => exact .inl rfl
      | inode => exact .inr ⟨_, _, _, _, hc, rfl⟩
      | superblock => exact .inr ⟨_, _, _, _, hc, rfl⟩
      | new => exact .inr ⟨_, _, _, _, hc, rfl⟩
  | committed =>
    cases hp with
    | change hc => exact .inr ⟨_, _, _, _, hc, rfl⟩

/-- At a torn crash point a live slot owns a sector that is not marked. -/
theorem CrashState.not_marked (h : t.Consistent leak) (hp : p.Sound (t.setJournal 1))
    (hu : CrashState t p u) {i : Fin 64} (htorn : Torn t u i) (huse : u.InUse i) :
    ¬ u.extent i ⊆ u.used := by
  have hold : u.inodes i ≠ t.inodes i := by
    intro heq
    refine htorn.sectors ?_
    rw [heq]
    exact h.sectors_subset i
  rcases hu.inodes_cases hp with hin | ⟨j, kind, t', w, hc, hin⟩
  · exact absurd (congrFun hin i) hold
  · have hr := hc.replaces (h.setJournal 1)
    -- the change is the one of this slot
    have hij : i = j := by
      by_contra hne
      rw [hin] at hold
      exact hold (hr.inodes i hne)
    subst hij
    obtain ⟨n, hn, hno⟩ := Set.not_subset.mp htorn.sectors
    intro hmarked
    have hused := hmarked (show n ∈ u.extent i from ⟨huse, hn⟩)
    rw [hin] at hn
    unfold Tables.used at hused
    rw [htorn.bitmap] at hused
    -- a sector the slot did not own was free
    exact ((hr.free n hn).resolve_left hno) hused

end CrashStates

/-- **When recovery is safe.** For every crash point of every run on a mounted image, if the disk
mounts: when no slot is torn, all live extents are marked and no later operation makes two files
share a sector; when a slot that is in use on disk is torn, a live extent is not marked. -/
theorem recovery_safe {s0 : Fs} (h0 : MountedImage s0) (hr : s0.block.Reliable) (ops : List Op)
    (op : Op) {d : UInt32 → Sector} (hd : d ∈ (op.exec (run s0 ops)).2.block.ata.history)
    (hnew : d ∉ (run s0 ops).block.ata.history) {m : Fs} (hmr : m.block.Reliable) {start : UInt32}
    (hsectors : ∀ r < totalSectors, m.block.ata.sectors (start + r) = d (s0.block.fsStartLba + r))
    (havail : (diskfsInitialize m start).1.available = true) :
    ((∀ i, ¬ Torn (run s0 ops).tables (diskTables fun r => d (s0.block.fsStartLba + r)) i) →
      RecoverySafe (diskfsInitialize m start).1) ∧
    ∀ i, Torn (run s0 ops).tables (diskTables fun r => d (s0.block.fsStartLba + r)) i →
      (diskTables fun r => d (s0.block.fsStartLba + r)).InUse i →
      ¬ (diskfsInitialize m start).1.tables.extent i
        ⊆ (diskfsInitialize m start).1.tables.used := by
  have hgood0 := h0.good hr
  have hgood := hgood0.run ops
  obtain ⟨p, hp, hpass⟩ := exec_passes hgood op
  obtain ⟨u, hu, hm⟩ := (hpass.past d hd).resolve_left hnew
  rw [run_window hgood0 ops] at hm
  have hl := hu.layout hgood.consistent hp
  rw [hm.diskTables_eq hl]
  -- the machine that mounts sees the tables of the crash
  have hmount : Mirrors (remount m.block start).onDisk u := by
    refine hm.congr fun r hlow _ => hsectors r ?_
    rw [UInt32.lt_iff_toNat_lt]
    change _ < 4096
    omega
  constructor
  · intro hfine
    obtain ⟨leak', hc⟩ := hu.recoverable hgood.consistent hp hfine
    exact (Good.of_recovery hmr hmount hc havail).recoverySafe
  · intro i htorn huse
    have htables : (diskfsInitialize m start).1.tables = u.setJournal 0 := by
      rw [mount_tables havail]
      exact congrArg (Tables.setJournal · 0) (hmount.diskTables_eq hl)
    rw [htables]
    exact hu.not_marked hgood.consistent hp htorn huse

/-! ### Two crashes -/

/-- A crash after the inode write of a delete: the sector of the file is leaked, and recovery is
safe. -/
theorem recovery_safe_motd : RecoverySafe (diskfsInitialize
    (machineOn (motdCrash (.delete (some motdPath)) 3) fun _ => .done) 2048).1 := by
  have hempty : motdFs.block.ata.history = [] :=
    List.eq_nil_of_length_eq_zero (by decide +kernel)
  have hlba : motdFs.block.fsStartLba = 2048 := by decide +kernel
  have hnofile : ∀ i, ((diskTables fun r => motdCrash (.delete (some motdPath)) 3
      (2048 + r)).inodes i).type ≠ typeFile := by decide +kernel
  refine (recovery_safe motd_mounted motd_reliable [] (.delete (some motdPath))
    (motdCrash_mem (n := 3) (by decide +kernel)) (hempty ▸ List.not_mem_nil)
    (m := machineOn (motdCrash (.delete (some motdPath)) 3) fun _ => .done) (fun _ => rfl)
    (fun r _ => by rw [hlba]; rfl) (by decide +kernel)).1 fun i htorn => ?_
  rw [hlba] at htorn
  exact htorn.sectors fun n hn => absurd hn.1 (hnofile i)

/-- A crash before the bitmap write of a creation: the disk mounts, the new file is live and its
sector is free, and the next file gets the same sector. -/
theorem torn_create : MountedImage motdFs ∧ motdFs.block.Reliable ∧
    motdCrash (.write (some xPath) (some fun _ => 7) 1) 3 ∈
      ((Op.write (some xPath) (some fun _ => 7) 1).exec motdFs).2.block.ata.history ∧
    (diskfsInitialize (machineOn (motdCrash (.write (some xPath) (some fun _ => 7) 1) 3)
      fun _ => .done) 2048).1.available = true ∧
    ¬ RecoverySafe (diskfsInitialize (machineOn
      (motdCrash (.write (some xPath) (some fun _ => 7) 1) 3) fun _ => .done) 2048).1 := by
  refine ⟨motd_mounted, motd_reliable, motdCrash_mem (by decide +kernel), by decide +kernel,
    fun h => ?_⟩
  -- `/y` is created over the sector of `/x`
  have hshare := h.later [.write (some ⟨[47, 121], by decide⟩) (some fun _ => 9) 1] 3 4 (by decide)
  rw [Set.disjoint_left] at hshare
  exact @hshare 12 (by decide +kernel) (by decide +kernel)

end MyOS.Diskfs
