import MyOS.Diskfs.Write

/-!
# Failed calls

`diskfs_write_file`, `diskfs_delete_file` and `diskfs_rename_file` change the tables in memory and
then write them out; a drive error on the way makes them return `false` with the change in place.
`failed_call_atomic` says when a call that returns `false` has left nothing behind: unless it was
`Interrupted`, a drive call failing after `begin_transaction` had succeeded. In `interrupted_delete`
the inode write of a delete fails, the delete reports failure, and the file is gone.
-/

namespace MyOS.Diskfs

open BlockCache

/-! ### States that look the same -/

/-- `s'` differs from `s` in the journal marker, in free slots that `inode_count` has come to
cover, and in the first two sectors at most. -/
structure Alike (s s' : Fs) : Prop where
  available : s'.available = s.available
  files : s'.files = s.files
  inodes : s'.tables.inodes = s.tables.inodes
  bitmap : s'.tables.bitmap = s.tables.bitmap
  layout : s'.tables.superblock.layout = s.tables.superblock.layout
  live : ∀ i, (s.tables.inodes i).type ≠ 0 → (s'.tables.InUse i ↔ s.tables.InUse i)
  logical : ∀ k : UInt32, 2 ≤ k.toNat → s'.block.logical k = s.block.logical k

/-- Nothing the caller can see has changed. -/
structure Atomic (s s' : Fs) : Prop where
  inodes : s'.tables.inodes = s.tables.inodes
  bitmap : s'.tables.bitmap = s.tables.bitmap
  files : s'.files = s.files
  paths : ∀ path, diskfsFindFile s'.tables path = diskfsFindFile s.tables path
  content : ∀ i, s.tables.IsFile i → ∀ k < (s.tables.inodes i).size.toNat, s'.byte i k = s.byte i k
  fsck : ∀ reportSize, diskfsFsck s' reportSize = diskfsFsck s reportSize

namespace Alike

variable {s s1 s' : Fs}

theorem refl (s : Fs) : Alike s s :=
  ⟨rfl, rfl, rfl, rfl, rfl, fun _ _ => Iff.rfl, fun _ _ => rfl⟩

theorem trans (h : Alike s s1) (h' : Alike s1 s') : Alike s s' where
  available := h'.available.trans h.available
  files := h'.files.trans h.files
  inodes := h'.inodes.trans h.inodes
  bitmap := h'.bitmap.trans h.bitmap
  layout := h'.layout.trans h.layout
  live := fun i hi => (h'.live i (by rw [h.inodes]; exact hi)).trans (h.live i hi)
  logical := fun k hk => (h'.logical k hk).trans (h.logical k hk)

section

variable (h : Alike s s')
include h

theorem isFile_iff (i : Fin 64) : s'.tables.IsFile i ↔ s.tables.IsFile i := by
  unfold Tables.IsFile
  rw [h.inodes]
  refine and_congr_left fun hf => h.live i ?_
  rw [hf]
  decide

/-- A free slot is nobody's child, so lookups agree. -/
theorem findChild_eq (parent : UInt32) (name : List UInt8) (ty : UInt8) :
    findChild s'.tables parent name ty = findChild s.tables parent name ty := by
  unfold findChild
  congr 1
  funext i
  rw [h.inodes]
  by_cases hi : (s.tables.inodes i).type = 0
  · simp [hi]
  · rw [decide_eq_decide.mpr (h.live i hi)]

theorem walk_eq (ty : UInt8) (cs : List (List UInt8)) (cur : Fin 64) :
    walk s'.tables ty cur cs = walk s.tables ty cur cs := by
  induction cs generalizing cur with
  | nil => rfl
  | cons c cs ih =>
    rw [walk, walk, h.findChild_eq]
    exact congrArg _ (funext fun child => ih child)

theorem diskfsFindFile_eq (path : Option CString) :
    diskfsFindFile s'.tables path = diskfsFindFile s.tables path := by
  have hfile : ∀ p, findPathFile s'.tables p = findPathFile s.tables p := by
    intro p
    unfold findPathFile
    rw [findPath_eq, findPath_eq, h.walk_eq, h.inodes]
  unfold diskfsFindFile
  cases path with
  | none => rfl
  | some p => simp only [hfile]

theorem diskfsFsck_eq (reportSize : ℕ) :
    diskfsFsck s' reportSize = diskfsFsck s reportSize := by
  have hstart : s'.tables.superblock.layout.dataStart = s.tables.superblock.layout.dataStart :=
    congrArg Superblock.dataStart h.layout
  have htotal : s'.tables.superblock.layout.totalSectors
      = s.tables.superblock.layout.totalSectors := congrArg Superblock.totalSectors h.layout
  change s'.tables.superblock.dataStart = s.tables.superblock.dataStart at hstart
  change s'.tables.superblock.totalSectors = s.tables.superblock.totalSectors at htotal
  have hinode : FsckState.inode s'.tables reportSize = FsckState.inode s.tables reportSize := by
    funext st i
    unfold FsckState.inode
    rw [h.inodes, hstart, htotal]
    exact if_congr (h.isFile_iff i) rfl rfl
  unfold diskfsFsck FsckState.compare fsckStart
  rw [h.available, hinode, hstart, htotal, h.bitmap]

/-- Files keep their bytes: they lie behind the metadata. -/
theorem byte_eq {leak : Set ℕ} (hs : s.tables.Consistent leak) {i : Fin 64}
    (hi : s.tables.IsFile i) {k : ℕ} (hk : k < (s.tables.inodes i).size.toNat) :
    s'.byte i k = s.byte i k := by
  have hlow := (hs.alloc.bounds i (hs.byte_sector hi hk)).1
  rw [hs.data_toNat] at hlow
  unfold Fs.byte diskByte
  rw [h.inodes, h.logical _ (by omega)]

theorem atomic {leak : Set ℕ} (hs : s.tables.Consistent leak) : Atomic s s' :=
  ⟨h.inodes, h.bitmap, h.files, h.diskfsFindFile_eq, fun _ hi _ hk => h.byte_eq hs hi hk,
    h.diskfsFsck_eq⟩

end

end Alike

/-! ### Transactions on any drive -/

section Transact

variable {leak : Set ℕ} {s : Fs}

/-- A read changes the cache only. -/
theorem alike_reads (hb : s.block.Ok) {b : BlockLayer} (hr : Reads s.block b) :
    Alike s { s with block := b } :=
  ⟨rfl, rfl, rfl, rfl, rfl, fun _ _ => Iff.rfl,
    fun k _ => congrFun (Moves.logical_eq hr.moves hb) k⟩

/-- `write_journal` touches the first two sectors only, whether it succeeds or not. -/
theorem writeJournal_alike (hb : s.block.Ok) (state : UInt32) :
    Alike s (writeJournal s state).2 := by
  refine ⟨rfl, rfl, rfl, rfl, rfl, fun _ _ => Iff.rfl, fun k hk => ?_⟩
  refine (journalWrites_effect _ _).logical_off hb ?_
  rintro (rfl | rfl)
  · exact absurd hk (by decide)
  · cases hk

theorem writeJournal_ok (hb : s.block.Ok) (state : UInt32) : (writeJournal s state).2.block.Ok :=
  (journalWrites_effect _ _).ok hb

theorem writeJournal_failsBetween (hb : s.block.Ok) {state : UInt32}
    (hfalse : (writeJournal s state).1 = false) :
    FailsBetween s.block (writeJournal s state).2.block := by
  have he := journalWrites_effect (s.tables.setJournal state) state
  exact (he.moves _ hb).failsBetween ((he.verdict _ hb).lt_of_false hfalse)

section

variable (h : s.tables.Consistent leak) (hb : s.block.Ok)
include h hb

/-- Executing a plan keeps the block layer sound. -/
theorem transact_ok {p : Plan}
    (hp : p.Sound (s.tables.setJournal 1)) : (transact s p).2.block.Ok := by
  have hok := writeJournal_ok hb 1
  cases hp with
  | reject ok => exact hb
  | @noRoom t' ht' =>
    unfold transact
    dsimp only
    split
    · exact writeJournal_ok (s := { (beginTransaction s).2 with tables := t' }) hok 0
    · exact hok
  | @change i kind t' w hc =>
    obtain ⟨K, g, he⟩ := hc.effect (h.setJournal 1)
    unfold transact finishOp
    dsimp only
    split
    · split
      · exact writeJournal_ok (s := ⟨(w (beginTransaction s).2.block).2, s.available, t',
          rebuildFileList t'⟩) (he.effect.ok hok) 0
      · exact he.effect.ok hok
    · exact hok

theorem exec_ok (op : Op) :
    (op.exec s).2.block.Ok := by
  obtain ⟨b, p, hr, hp, heq⟩ := op.exec_plan h
  rw [heq]
  exact transact_ok (s := { s with block := b }) h (hr.moves.ok hb) hp

/-- What runs preserve on any drive. -/
theorem run_ok (ops : List Op) :
    (run s ops).tables.Consistent leak ∧ (run s ops).block.Ok := by
  have hstep : ∀ s (op : Op), s.tables.Consistent leak ∧ s.block.Ok →
      (op.exec s).2.tables.Consistent leak ∧ (op.exec s).2.block.Ok :=
    fun s op hs => ⟨exec_consistent hs.1 op, exec_ok hs.1 hs.2 op⟩
  exact run_induction hstep ⟨h, hb⟩ ops

end

variable {t' : Tables}

/-- Tables without room look like the ones before. -/
theorem alike_noRoom (h : t' = s.tables.setJournal 1 ∨ ∃ i, Claims (s.tables.setJournal 1) t' i) :
    Alike s { s with tables := t' } := by
  rcases h with rfl | ⟨i, hc⟩
  · exact ⟨rfl, rfl, rfl, rfl, rfl, fun _ _ => Iff.rfl, fun _ _ => rfl⟩
  · refine ⟨rfl, rfl, hc.inodes, hc.bitmap, hc.layout, fun j hj => ?_, fun _ _ => rfl⟩
    refine (hc.inUse j).trans (or_iff_left ?_)
    rintro rfl
    exact hj hc.free

theorem transact_noRoom_alike (hb : s.block.Ok)
    (h : t' = s.tables.setJournal 1 ∨ ∃ i, Claims (s.tables.setJournal 1) t' i) :
    Alike s (transact s (.noRoom t')).2 := by
  have hbegin := writeJournal_alike hb 1
  have hok := writeJournal_ok hb 1
  unfold transact
  dsimp only
  split
  · have hroom : Alike (beginTransaction s).2 { (beginTransaction s).2 with tables := t' } :=
      alike_noRoom h
    exact (hbegin.trans hroom).trans
      (writeJournal_alike (s := { (beginTransaction s).2 with tables := t' }) hok 0)
  · exact hbegin

/-- Once a change has begun it is in the tables, whatever happens next. -/
theorem transact_change_inodes {w : BlockAction} (hbegun : (beginTransaction s).1 = true) :
    (transact s (.change t' w)).2.tables.inodes = t'.inodes := by
  unfold transact finishOp
  dsimp only
  rw [if_pos hbegun]
  split <;> rfl

/-- **A change that fails**: it never began, or a drive call failed after it had. -/
theorem transact_change_false (h : s.tables.Consistent leak) (hb : s.block.Ok) {i : Fin 64}
    {kind : Kind} {w : BlockAction} (hc : Change (s.tables.setJournal 1) i kind t' w)
    (hfalse : (transact s (.change t' w)).1 = false) :
    Alike s (transact s (.change t' w)).2 ∨ ((beginTransaction s).1 = true ∧
      FailsBetween (beginTransaction s).2.block (transact s (.change t' w)).2.block) := by
  obtain ⟨K, g, he⟩ := hc.effect (h.setJournal 1)
  have hok := writeJournal_ok hb 1
  unfold transact finishOp at hfalse ⊢
  dsimp only at hfalse ⊢
  by_cases hbegun : (beginTransaction s).1 = true
  · right
    rw [if_pos hbegun] at hfalse ⊢
    have hmoves := he.effect.moves _ hok
    refine ⟨hbegun, ?_⟩
    by_cases hw : (w (beginTransaction s).2.block).1 = true
    · -- all tables are written, so the commit has failed
      rw [if_pos hw] at hfalse ⊢
      have hcommit := writeJournal_failsBetween (s := ⟨(w (beginTransaction s).2.block).2,
        s.available, t', rebuildFileList t'⟩) (he.effect.ok hok) hfalse
      exact hmoves.failsBetween_trans hcommit
    · rw [if_neg hw]
      exact hmoves.failsBetween ((he.effect.verdict _ hok).lt_of_false (Bool.not_eq_true _ ▸ hw))
  · left
    rw [if_neg hbegun]
    exact writeJournal_alike hb 1

end Transact

/-! ### The three calls -/

/-- A write that gives a file the size it has. -/
def Op.KeepsSize (t : Tables) : Op → Prop
  | .write (some path) _ size => ∃ parent leaf i, ensureParentDir t path = some (parent, leaf) ∧
      findChild t (idx32 parent) leaf typeFile = some i ∧ (t.inodes i).size = size
  | _ => False

/-- A write has a slot and a run of sectors for its data; the other calls need none. -/
def Op.HasRoom (t : Tables) : Op → Prop
  | .write (some path) _ size => writeHasRoom t path size = true
  | _ => True

/-- `diskfs_write_file`, `diskfs_delete_file` or `diskfs_rename_file`. -/
def Op.IsCall : Op → Prop
  | .truncate _ _ => False
  | _ => True

/-- `begin_transaction` succeeds, and the drive fails one of the calls made after it, on a call
that has room. -/
structure Interrupted (s : Fs) (op : Op) : Prop where
  begun : (beginTransaction s).1 = true
  fault : FailsBetween (beginTransaction s).2.block (op.exec s).2.block
  room : op.HasRoom s.tables

/-- **A change shows in the inode table**, unless it is a write that keeps the size. -/
theorem Change.inodes_ne {leak : Set ℕ} {t t' : Tables} {i : Fin 64} {kind : Kind}
    {w : BlockAction} (h : t.Consistent leak) (hc : Change t i kind t' w)
    (heq : t'.inodes = t.inodes) :
    ∃ buf size, kind = .resize buf size ∧ (t.inodes i).size = size := by
  have hputs := hc.puts h
  rw [heq] at hputs
  cases hc with
  | resize hi hsize hr =>
    obtain ⟨first, hino⟩ := hputs
    exact ⟨_, _, rfl, congrArg Inode.size hino⟩
  | create hdir hleaf hnone hsize hn =>
    obtain ⟨hfree, first, hino⟩ := hputs
    exact absurd (hfree.symm.trans (congrArg Inode.type hino)) (show 0 ≠ typeFile by decide)
  | remove hi => exact nomatch hi.2.symm.trans (congrArg Inode.type hputs)
  | @move parent leaf hi hdir hleaf hnone =>
    -- the slot would be a child of the new name already
    have hchild : IsChild t (idx32 parent) leaf 0 i := by
      refine ⟨hi.1, by rw [hi.2]; decide, congrArg Inode.parent hputs, .inl rfl, ?_⟩
      have hname : (t.inodes i).name = nameOf (leaf.take nameMax) := congrArg Inode.name hputs
      rw [hname]
      exact hleaf.cstr_nameOf
    exact absurd hchild ((findChild_eq_none_iff hleaf.nul_free).mp hnone i)

/-- What one of the three calls plans. -/
inductive CallPlan (s : Fs) (op : Op) : Plan → Prop
  | reject : CallPlan s op (.reject false)
  | noRoom {t' : Tables} (hroom : ¬ op.HasRoom s.tables)
      (h : t' = s.tables.setJournal 1 ∨ ∃ i, Claims (s.tables.setJournal 1) t' i) :
      CallPlan s op (.noRoom t')
  | change {i : Fin 64} {kind : Kind} {t' : Tables} {w : BlockAction}
      (hroom : op.HasRoom s.tables) (hc : Change (s.tables.setJournal 1) i kind t' w)
      (hkeeps : ∀ buf size, kind = .resize buf size → (s.tables.inodes i).size = size →
        op.KeepsSize s.tables) : CallPlan s op (.change t' w)

/-- Each call is a transaction, with a plan that the tables before it determine. -/
theorem Op.exec_callPlan {leak : Set ℕ} {s : Fs} (h : s.tables.Consistent leak) {op : Op}
    (hop : op.IsCall) : ∃ p, CallPlan s op p ∧ op.exec s = transact s p := by
  cases op with
  | write path buffer size =>
    obtain ⟨p, hp, heq⟩ := diskfsWriteFile_plan h path buffer size
    refine ⟨p, ?_, heq⟩
    cases hp with
    | reject => exact .reject
    | noRoom hpath hroom ht' =>
      subst hpath
      exact .noRoom (by simp [Op.HasRoom, hroom]) ht'
    | @overwrite p buf parent leaf i t' w hargs hroom hchild hc =>
      obtain rfl := hargs.path
      refine .change hroom hc fun buf' size' hk hsize => ?_
      obtain ⟨-, rfl⟩ := Kind.resize.inj hk
      exact ⟨parent, leaf, i, (ensureParentDir_eq_some_iff _ _ _ _).mpr hargs.parentAt, hchild,
        hsize⟩
    | create hargs hroom hc =>
      obtain rfl := hargs.path
      exact .change hroom hc nofun
  | delete path =>
    rcases diskfsDeleteFile_plan h path with heq | ⟨i, t', w, hc, heq⟩
    · exact ⟨_, .reject, heq⟩
    · exact ⟨_, .change trivial hc nofun, heq⟩
  | rename oldPath newPath =>
    rcases diskfsRenameFile_plan h oldPath newPath with heq | ⟨i, parent, leaf, t', w, hc, heq⟩
    · exact ⟨_, .reject, heq⟩
    · exact ⟨_, .change trivial hc nofun, heq⟩
  | truncate path size => exact absurd hop id

/-- **A failed call is atomic unless it was interrupted**, on any drive and after any run: it
leaves inodes, bitmap, file list, paths and contents as they were. An interrupted call has changed
the inode table, or it was a write that keeps the size. -/
theorem failed_call_atomic {s0 : Fs} (h0 : MountedImage s0) (ops : List Op) {op : Op}
    (hop : op.IsCall) (hfalse : (op.exec (run s0 ops)).1 = false) :
    (¬ Interrupted (run s0 ops) op → Atomic (run s0 ops) (op.exec (run s0 ops)).2) ∧
    (Interrupted (run s0 ops) op → ¬ op.KeepsSize (run s0 ops).tables →
      (op.exec (run s0 ops)).2.tables.inodes ≠ (run s0 ops).tables.inodes) := by
  obtain ⟨hcons, hb⟩ := run_ok h0.consistent h0.block_ok ops
  generalize run s0 ops = s at hcons hb hfalse ⊢
  obtain ⟨p, hp, heq⟩ := Op.exec_callPlan hcons hop
  have hbegin : s.block.ata.calls ≤ (beginTransaction s).2.block.ata.calls :=
    ((journalWrites_effect _ _).moves _ hb).calls_le
  rw [heq] at hfalse ⊢
  constructor
  · intro hnot
    cases hp with
    | reject => exact (Alike.refl s).atomic hcons
    | noRoom hroom ht' => exact (transact_noRoom_alike hb ht').atomic hcons
    | change hroom hc hkeeps =>
      rcases transact_change_false hcons hb hc hfalse with halike | ⟨hbegun, hfault⟩
      · exact halike.atomic hcons
      · exact absurd ⟨hbegun, by rw [heq]; exact hfault, hroom⟩ hnot
  · intro hint hkeep hsame
    obtain ⟨k, hk, hlt, -⟩ := hint.fault
    rw [heq] at hlt
    cases hp with
    | reject =>
      -- nothing was called, so nothing can have failed
      have : (transact s (.reject false)).2.block.ata.calls = s.block.ata.calls := rfl
      omega
    | noRoom hroom ht' => exact hroom hint.room
    | change hroom hc hkeeps =>
      rw [transact_change_inodes hint.begun] at hsame
      obtain ⟨buf, size, hkind, hsize⟩ := hc.inodes_ne (hcons.setJournal 1) hsame
      exact hkeep (hkeeps buf size hkind hsize)

/-- A delete that cannot begin its transaction reports failure and leaves everything in place. -/
theorem failed_call_atomic_motd : (diskfsDeleteFile (failingFs 10) (some motdPath)).1 = false ∧
    Atomic (failingFs 10) (diskfsDeleteFile (failingFs 10) (some motdPath)).2 := by
  have hfalse : (diskfsDeleteFile (failingFs 10) (some motdPath)).1 = false := by decide +kernel
  refine ⟨hfalse, (failed_call_atomic (failing_mounted (by decide +kernel)) []
    (show Op.IsCall (.delete (some motdPath)) from trivial) hfalse).1 fun hint => ?_⟩
  exact absurd hint.begun (by decide +kernel)

/-- A delete whose inode write fails reports failure, and the file is gone. -/
theorem interrupted_delete : MountedImage (failingFs 15) ∧
    (diskfsDeleteFile (failingFs 15) (some motdPath)).1 = false ∧
    ¬ Atomic (failingFs 15) (diskfsDeleteFile (failingFs 15) (some motdPath)).2 := by
  refine ⟨failing_mounted (by decide +kernel), by decide +kernel, fun h => ?_⟩
  have hbefore : diskfsFindFile (failingFs 15).tables (some motdPath) = some 2 := by decide +kernel
  have hafter : diskfsFindFile (diskfsDeleteFile (failingFs 15) (some motdPath)).2.tables
      (some motdPath) = none := by decide +kernel
  exact absurd (hafter.symm.trans ((h.paths _).trans hbefore)) (by simp)

end MyOS.Diskfs
