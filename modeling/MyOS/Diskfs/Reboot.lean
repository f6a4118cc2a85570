import MyOS.Diskfs.Tree
import MyOS.Diskfs.Validate

/-!
# Switching the machine off and on

Between two operations nothing that matters is only in memory: every operation ends with a flush,
and the disk mirrors the tables. So a machine on which calls and reboots follow one another in any
order always comes up with the filesystem it had, on a drive that never fails (`reboot_keeps`).

For this `diskfs_validate` must accept whatever the operations leave (`run_validates`): its checks
of extents and parents follow from consistent tables that form a tree, its check of names from
`Named`.
-/

namespace MyOS.Diskfs

open BlockCache List

/-! ### The checks pass -/

/-- `inode_name_valid` accepts a name that `path_part` can deliver. -/
theorem LeafOk.inodeNameValid {leaf : List UInt8} (h : LeafOk leaf) :
    inodeNameValid (nameOf (leaf.take nameMax)).get = true := by
  have hlen := h.length
  rw [take_of_length_le hlen.le]
  unfold nameMax at hlen
  have hget : ∀ k < 32, (nameOf leaf).get k = leaf.getD k 0 := fun k hk => Bytes.get_ofFun hk
  unfold Diskfs.inodeNameValid
  rw [if_neg, any_eq_true]
  · -- the NUL comes right behind the name
    refine ⟨leaf.length, mem_range.mpr (by omega), ?_⟩
    rw [hget _ (by omega), getD_eq_getElem?_getD, List.getElem?_eq_none (le_refl _)]
    rfl
  · have hpos : 0 < leaf.length := length_pos_iff.mpr h.ne_nil
    rw [hget 0 (by omega), getD_eq_getElem?_getD, List.getElem?_eq_getElem hpos, beq_iff_eq]
    intro hzero
    exact h.nul_free (hzero ▸ getElem_mem hpos)

/-- Every live slot but the root has a name that passes the check. -/
def Tables.Named (t : Tables) : Prop :=
  ∀ i, t.InUse i → (t.inodes i).type ≠ 0 → i ≠ rootInode →
    inodeNameValid (t.inodes i).name.get = true

/-- Names stay valid when one slot changes, if its own name is valid as long as it is live. -/
theorem Tables.Named.replaces {t t' : Tables} {i : Fin 64} (h : t.Named) (hr : Replaces t t' i)
    (hi : (t'.inodes i).type ≠ 0 → i ≠ rootInode →
      Diskfs.inodeNameValid (t'.inodes i).name.get = true) : t'.Named := by
  intro j hu hl hj
  by_cases hji : j = i
  · subst hji
    exact hi hl hj
  · rw [hr.inodes j hji] at hl ⊢
    exact h j (((hr.inUse j).mp hu).resolve_right hji) hl hj

/-- The operations only give names that they have cut out of a path. -/
theorem Kept.named (leak : Set ℕ) : Kept leak Tables.Named where
  journal := fun _ h => h
  claims := fun hc h => h.replaces hc.replaces fun hl _ => absurd (hc.inodes ▸ hc.free) hl
  change := by
    intro t t' i kind w h hc hn
    refine hn.replaces (hc.replaces h) ?_
    have hputs := hc.puts h
    intro hl hroot
    cases hc with
    | resize hi hsize hr =>
      obtain ⟨first, hino⟩ := hputs
      rw [hino]
      exact hn i hi.1 (by rw [hi.2]; decide) hroot
    | create hdir hleaf hnone hsize hnew =>
      obtain ⟨-, first, hino⟩ := hputs
      rw [hino]
      exact hleaf.inodeNameValid
    | remove hi => exact absurd (by rw [hputs]; rfl) hl
    | move hi hdir hleaf hnone =>
      rw [hputs]
      exact hleaf.inodeNameValid

/-- **The mount accepts** consistent tables that form a tree of valid names. -/
theorem Tables.Consistent.validated {leak : Set ℕ} {t : Tables} (h : t.Consistent leak)
    (htree : t.IsTree) (hname : t.Named) : Validated t := by
  obtain ⟨label, ht⟩ := htree
  refine ⟨magic_of_layout h.layout, totalSectors_of_layout h.layout, h.count_le, ht.root_dir.2, ?_⟩
  intro i hu hl
  refine ⟨hname i hu hl, fun hroot => ?_, fun hf => ?_, fun hf => ?_, fun hf => h.size i ⟨hu, hf⟩⟩
  · obtain ⟨p, hp, hparent, -⟩ := ht.child i hu hl hroot
    rw [hparent, UInt32.lt_iff_toNat_lt, idx32_toNat]
    exact hp.1
  · obtain ⟨-, hlo, -⟩ := h.file_bounds ⟨hu, hf⟩
    rw [UInt32.le_iff_toNat_le, h.data_toNat]
    exact hlo
  · obtain ⟨-, -, hhi⟩ := h.file_bounds ⟨hu, hf⟩
    rw [UInt32.le_iff_toNat_le, UInt32.toNat_add, h.total_toNat, Nat.mod_eq_of_lt (by omega)]
    exact hhi

theorem MountedImage.named {s : Fs} (h : MountedImage s) : s.tables.Named := by
  intro i hu hl hroot
  obtain ⟨files, image, s0, start, himg, rfl, havail⟩ := h
  exact ((mount_validated havail).inode i hu hl).name hroot

/-- **Failures of the drive never spoil the tables in memory**: after any run of an image, whatever
the drive does, they pass the check of the next mount. -/
theorem run_validates {s : Fs} (hs : MountedImage s) (ops : List Op) :
    diskfsValidate true (run s ops).tables = true := by
  have hcons : (run s ops).tables.Consistent ∅ :=
    (Kept.consistent ∅).run hs.consistent hs.consistent ops
  have hname := (Kept.named ∅).run hs.consistent hs.named ops
  exact (diskfsValidate_iff _).mpr
    (hcons.validated (run_isTree hs.consistent hs.isTree ops) hname)

/-- The delete that leaves the file gone and the disk behind. -/
theorem run_validates_motd : (diskfsDeleteFile (failingFs 15) (some motdPath)).1 = false ∧
    diskfsValidate true (run (failingFs 15) [.delete (some motdPath)]).tables = true :=
  ⟨by decide +kernel, run_validates (failing_mounted (by decide +kernel)) _⟩

/-! ### Lives of the machine -/

/-- The machine has been switched off and on: memory is lost, the drive keeps its sectors. -/
def Fs.powerCycle (s : Fs) : Fs := machineOn s.block.ata.sectors s.block.ata.outcome

/-- The filesystem as the next boot mounts it. -/
def Fs.reboot (s : Fs) : Fs := (diskfsInitialize s.powerCycle s.block.fsStartLba).1

/-- What happens to a machine. -/
inductive Event where
  | call (op : Op)
  | reboot

def Event.exec (s : Fs) : Event → Fs
  | .call op => (op.exec s).2
  | .reboot => s.reboot

/-- A good state that the mount would accept. -/
structure Restartable (s : Fs) : Prop extends Good ∅ s where
  isTree : s.tables.IsTree
  named : s.tables.Named

namespace Restartable

variable {s : Fs}

/-- **A reboot** finds the same tables and the same file list, over raw reads of the same disk. -/
theorem reboot_eq (h : Restartable s) : Restartable s.reboot ∧
    ∃ b, s.reboot = ⟨b, true, s.tables, s.files⟩ ∧ b.logical = s.block.logical := by
  have hr : s.powerCycle.block.Reliable := h.reliable
  have hdisk : (remount s.powerCycle.block s.block.fsStartLba).onDisk = s.block.logical :=
    h.ok.onDisk_eq h.settled
  have hm : Mirrors (remount s.powerCycle.block s.block.fsStartLba).onDisk s.tables :=
    hdisk ▸ h.mirrors
  have havail : s.reboot.available = true := (mount_available_iff hr hm h.consistent.layout).mpr
    ((diskfsValidate_iff _).mpr (h.consistent.validated h.isTree h.named))
  have hgood : Good ∅ s.reboot := Good.of_mount hr hm h.consistent h.clean havail
  obtain ⟨b, heq, hb⟩ := mount_clean hm h.consistent.layout h.clean havail
  rw [← h.files] at heq
  rw [Fs.reboot, heq] at hgood ⊢
  refine ⟨⟨hgood, h.isTree, h.named⟩, b, rfl, ?_⟩
  rw [Moves.logical_eq hb.moves (remount_ok _ _), remount_logical, hdisk]

theorem exec (h : Restartable s) (e : Event) : Restartable (e.exec s) := by
  cases e with
  | call op =>
    exact ⟨h.toGood.exec op, (Kept.isTree ∅).exec h.consistent h.isTree op,
      (Kept.named ∅).exec h.consistent h.named op⟩
  | reboot => exact h.reboot_eq.1

theorem run (h : Restartable s) (events : List Event) :
    Restartable (events.foldl Event.exec s) := by
  induction events generalizing s with
  | nil => exact h
  | cons e events ih => exact ih (h.exec e)

end Restartable

/-- **A reboot loses nothing.** After any calls and reboots, in any order, a machine that is
switched off and on mounts its filesystem again, with the same tables, the same file list and the
same bytes in every file. -/
theorem reboot_keeps {s : Fs} (hs : MountedImage s) (hr : s.block.Reliable) (events : List Event) :
    (events.foldl Event.exec s).reboot.available = true ∧
    (events.foldl Event.exec s).reboot.tables = (events.foldl Event.exec s).tables ∧
    (events.foldl Event.exec s).reboot.files = (events.foldl Event.exec s).files ∧
    ∀ i k, (events.foldl Event.exec s).reboot.byte i k = (events.foldl Event.exec s).byte i k := by
  have h := Restartable.run ⟨hs.good hr, hs.isTree, hs.named⟩ events
  generalize events.foldl Event.exec s = s' at h ⊢
  obtain ⟨-, b, heq, hlog⟩ := h.reboot_eq
  rw [heq]
  refine ⟨rfl, rfl, rfl, fun i k => ?_⟩
  unfold Fs.byte
  rw [← hlog]

/-- A file is written, the machine rebooted, another file deleted: the next boot finds the first. -/
theorem reboot_keeps_motd :
    let s := [.call (.write (some xPath) (some fun _ => 7) 3), .reboot,
      .call (.delete (some motdPath))].foldl Event.exec motdFs
    s.reboot.available = true ∧ diskfsFindFile s.reboot.tables (some xPath) = some 3 ∧
      s.reboot.byte 3 0 = 7 := by
  intro s
  obtain ⟨havail, htables, -, hbytes⟩ := reboot_keeps motd_mounted motd_reliable
    [.call (.write (some xPath) (some fun _ => 7) 3), .reboot, .call (.delete (some motdPath))]
  refine ⟨havail, ?_, (hbytes 3 0).trans (by decide +kernel)⟩
  rw [htables]
  decide +kernel

end MyOS.Diskfs
