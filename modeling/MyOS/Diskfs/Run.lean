import MyOS.Diskfs.Transact
import MyOS.Diskfs.Fsck

/-!
# Runs of diskfs

Invariants of the filesystem over arbitrary sequences of operations.

* On any drive, whatever fails, the tables in memory stay consistent (`exec_consistent`).
* On a drive that never fails the state stays `Good`: the block layer is settled, the disk holds
  the tables, the journal marker is clear and the file list is current (`Good.exec`). An operation
  that changes something is then a completed transaction in three phases, begin, body and commit
  (`transact_change`).
-/

namespace MyOS.Diskfs

open BlockCache Function

/-! ### Any drive -/

variable {leak : Set ℕ} {s : Fs} {t t' : Tables} {i : Fin 64}

/-- `P` is kept by everything an operation does to consistent tables. -/
structure Kept (leak : Set ℕ) (P : Tables → Prop) : Prop where
  journal : ∀ {t : Tables} (state : UInt32), P t → P (t.setJournal state)
  claims : ∀ {t t' : Tables} {i : Fin 64}, Claims t t' i → P t → P t'
  change : ∀ {t t' : Tables} {i : Fin 64} {kind : Kind} {w : BlockAction}, t.Consistent leak →
    Change t i kind t' w → P t → P t'

section

variable {P : Tables → Prop} (hk : Kept leak P) (h : s.tables.Consistent leak) (hP : P s.tables)
include hk h hP

/-- Executing a plan keeps `P`, however it ends. -/
theorem Kept.transact {p : Plan} (hp : p.Sound (s.tables.setJournal 1)) :
    P (transact s p).2.tables := by
  have hbegun : P (beginTransaction s).2.tables := hk.journal 1 hP
  cases hp with
  | reject ok => exact hP
  | @noRoom t' ht' =>
    have ht : P t' := by
      rcases ht' with rfl | ⟨i, hc⟩
      · exact hbegun
      · exact hk.claims hc hbegun
    unfold Diskfs.transact
    dsimp only
    split
    · exact hk.journal 0 ht
    · exact hbegun
  | @change i kind t' w hc =>
    have ht : P t' := hk.change (h.setJournal 1) hc hbegun
    unfold Diskfs.transact finishOp
    dsimp only
    split
    · split
      · exact hk.journal 0 ht
      · exact ht
    · exact hbegun

theorem Kept.exec (op : Op) : P (op.exec s).2.tables := by
  obtain ⟨b, p, -, hp, heq⟩ := op.exec_plan h
  rw [heq]
  exact hk.transact (s := { s with block := b }) h hP hp

end

/-- The allocation invariant is kept. -/
theorem Kept.consistent (leak : Set ℕ) : Kept leak (Tables.Consistent leak) where
  journal := fun state h => h.setJournal state
  claims := fun hc h => h.replaces hc.replaces
  change := fun h hc _ => hc.consistent h

theorem transact_consistent (h : s.tables.Consistent leak) {p : Plan}
    (hp : p.Sound (s.tables.setJournal 1)) : (transact s p).2.tables.Consistent leak :=
  (Kept.consistent leak).transact h h hp

/-- **The allocation invariant survives every operation**, on any drive. -/
theorem exec_consistent (h : s.tables.Consistent leak) (op : Op) :
    (op.exec s).2.tables.Consistent leak := (Kept.consistent leak).exec h h op

theorem transact_available (s : Fs) (p : Plan) : (transact s p).2.available = s.available := by
  cases p with
  | reject ok => rfl
  | noRoom t =>
    unfold transact
    dsimp only
    split <;> rfl
  | change t w =>
    unfold transact finishOp
    dsimp only
    split
    · split <;> rfl
    · rfl

theorem exec_available (h : s.tables.Consistent leak) (op : Op) :
    (op.exec s).2.available = s.available := by
  obtain ⟨b, p, -, -, heq⟩ := op.exec_plan h
  rw [heq, transact_available]

/-- The state after a sequence of operations. -/
def run (s : Fs) (ops : List Op) : Fs := ops.foldl (fun s op => (Op.exec s op).2) s

/-- An invariant of the operations is one of runs. -/
theorem run_induction {P : Fs → Prop} (hstep : ∀ s (op : Op), P s → P (op.exec s).2) (hs : P s)
    (ops : List Op) : P (run s ops) := by
  induction ops generalizing s with
  | nil => exact hs
  | cons op ops ih => exact ih (hstep s op hs)

/-- Runs keep what operations keep, on any drive. -/
theorem Kept.run {P : Tables → Prop} (hk : Kept leak P) (h : s.tables.Consistent leak)
    (hP : P s.tables) (ops : List Op) : P (run s ops).tables :=
  (run_induction (P := fun s => s.tables.Consistent leak ∧ P s.tables)
    (fun _ op hs => ⟨exec_consistent hs.1 op, hk.exec hs.1 hs.2 op⟩) ⟨h, hP⟩ ops).2

/-! ### A drive that never fails -/

/-- A mounted filesystem between two operations, on a drive that never fails. -/
structure Good (leak : Set ℕ) (s : Fs) : Prop where
  ok : s.block.Ok
  reliable : s.block.Reliable
  settled : Settled s.block.cache
  available : s.available = true
  clean : s.tables.superblock.journalState = 0
  consistent : s.tables.Consistent leak
  mirrors : Mirrors s.block.logical s.tables
  files : s.files = rebuildFileList s.tables

/-- Reads keep the filesystem as it is. -/
theorem Good.of_reads (h : Good leak s) {b : BlockLayer} (hr : Reads s.block b) :
    Good leak { s with block := b } where
  ok := hr.moves.ok h.ok
  reliable := hr.moves.reliable h.reliable
  settled := hr.settled h.settled
  available := h.available
  clean := h.clean
  consistent := h.consistent
  mirrors := by
    have hlog : b.logical = s.block.logical := Moves.logical_eq hr.moves h.ok
    exact hlog ▸ h.mirrors
  files := h.files

theorem storeJournal_of_ge {state : UInt32} {D : Disk} {r : UInt32} (hr : 2 ≤ r.toNat) :
    storeJournal t state D r = D r := by
  have h0 : r ≠ 0 := fun h => absurd hr (by rw [h]; decide)
  have h1 : r ≠ 1 := fun h => absurd hr (by rw [h]; decide)
  unfold storeJournal
  rw [update_of_ne h0, update_of_ne h1]

/-- `write_journal`, when it succeeds, on any drive. -/
theorem writeJournal_true (hb : s.block.Ok) {state : UInt32}
    (hok : (writeJournal s state).1 = true) :
    ∃ b, writeJournal s state
      = (true, { s with tables := s.tables.setJournal state, block := b }) ∧ b.Ok ∧
      b.logical = storeJournal (s.tables.setJournal state) state s.block.logical := by
  have he := journalWrites_effect (s.tables.setJournal state) state
  refine ⟨_, Prod.ext hok rfl, he.ok hb, he.logical _ hb hok⟩

/-- `write_journal` on a settled block layer succeeds and is a phase. -/
theorem writeJournal_phase (hb : s.block.Ok) (hr : s.block.Reliable) (hs : Settled s.block.cache)
    (state : UInt32) : ∃ b, writeJournal s state
      = (true, { s with tables := s.tables.setJournal state, block := b }) ∧
      b.logical = storeJournal (s.tables.setJournal state) state s.block.logical ∧
      Phase s.block b := by
  obtain ⟨hok, hlog, hph⟩ := (journalWrites_effect (s.tables.setJournal state) state).phase
    (journalWrites_settles _ _) hb hr hs
  refine ⟨_, ?_, hlog, hph⟩
  unfold writeJournal
  dsimp only
  rw [hok]

/-- **A change is a transaction in three phases**, on a drive that never fails. -/
theorem transact_change (h : Good leak s) {kind : Kind} {w : BlockAction}
    (hc : Change (s.tables.setJournal 1) i kind t' w) :
    ∃ b1 b2 b3 K g, transact s (.change t' w)
        = (true, ⟨b3, s.available, t'.setJournal 0, rebuildFileList t'⟩) ∧
      Phase s.block b1 ∧ Phase b1 b2 ∧ Phase b2 b3 ∧
      b1.logical = storeJournal (s.tables.setJournal 1) 1 s.block.logical ∧
      b2.logical = g b1.logical ∧ b3.logical = storeJournal (t'.setJournal 0) 0 b2.logical ∧
      ChangeEffect (s.tables.setJournal 1) t' i kind w K g := by
  obtain ⟨K, g, he⟩ := hc.effect (h.consistent.setJournal 1)
  obtain ⟨b1, hbegin, hlog1, hph1⟩ := writeJournal_phase h.ok h.reliable h.settled 1
  obtain ⟨hok2, hlog2, hph2⟩ := he.effect.phase he.settles hph1.ok hph1.reliable hph1.settled
  obtain ⟨b3, hcommit, hlog3, hph3⟩ := writeJournal_phase
    (s := ⟨(w b1).2, s.available, t', rebuildFileList t'⟩) hph2.ok hph2.reliable hph2.settled 0
  refine ⟨b1, (w b1).2, b3, K, g, ?_, hph1, hph2, hph3, hlog1, hlog2, hlog3, he⟩
  unfold transact beginTransaction finishOp commitTransaction
  rw [hbegin]
  dsimp only
  rw [if_pos rfl, hok2, if_pos rfl, hcommit]

/-- **A change that reports success was made**, on any drive. -/
theorem transact_change_true (hb : s.block.Ok) (h : s.tables.Consistent leak) {kind : Kind}
    {w : BlockAction} (hc : Change (s.tables.setJournal 1) i kind t' w)
    (hok : (transact s (.change t' w)).1 = true) :
    ∃ (b1 b2 b3 : BlockLayer) (K : Set UInt32) (g : Disk → Disk), transact s (.change t' w)
        = (true, ⟨b3, s.available, t'.setJournal 0, rebuildFileList t'⟩) ∧
      b1.logical = storeJournal (s.tables.setJournal 1) 1 s.block.logical ∧
      b2.logical = g b1.logical ∧ b3.logical = storeJournal (t'.setJournal 0) 0 b2.logical ∧
      ChangeEffect (s.tables.setJournal 1) t' i kind w K g := by
  obtain ⟨K, g, he⟩ := hc.effect (h.setJournal 1)
  have hbegin : (writeJournal s 1).1 = true := by
    by_contra hno
    unfold transact beginTransaction at hok
    dsimp only at hok
    rw [if_neg hno] at hok
    cases hok
  obtain ⟨b1, hb1, hok1, hlog1⟩ := writeJournal_true hb hbegin
  unfold transact beginTransaction finishOp commitTransaction at hok ⊢
  rw [hb1] at hok ⊢
  dsimp only at hok ⊢
  rw [if_pos rfl] at hok ⊢
  by_cases hw : (w b1).1 = true
  · rw [if_pos hw] at hok ⊢
    obtain ⟨b3, hb3, -, hlog3⟩ := writeJournal_true (s := ⟨(w b1).2, s.available, t',
      rebuildFileList t'⟩) (he.effect.ok hok1) hok
    exact ⟨b1, (w b1).2, b3, K, g, hb3, hlog1, he.effect.logical b1 hok1 hw, hlog3, he⟩
  · rw [if_neg hw] at hok
    cases hok

/-- A transaction without room begins and commits. -/
theorem transact_noRoom (h : Good leak s) (t' : Tables) :
    ∃ b1 b2, transact s (.noRoom t') = (false, ⟨b2, s.available, t'.setJournal 0, s.files⟩) ∧
      Phase s.block b1 ∧ Phase b1 b2 ∧
      b1.logical = storeJournal (s.tables.setJournal 1) 1 s.block.logical ∧
      b2.logical = storeJournal (t'.setJournal 0) 0 b1.logical := by
  obtain ⟨b1, hbegin, hlog1, hph1⟩ := writeJournal_phase h.ok h.reliable h.settled 1
  obtain ⟨b2, hcommit, hlog2, hph2⟩ := writeJournal_phase
    (s := ⟨b1, s.available, t', s.files⟩) hph1.ok hph1.reliable hph1.settled 0
  refine ⟨b1, b2, ?_, hph1, hph2, hlog1, hlog2⟩
  unfold transact beginTransaction commitTransaction
  rw [hbegin]
  dsimp only
  rw [if_pos rfl, hcommit]

/-- The file list depends on the inode table and on which slots are files. -/
theorem rebuildFileList_congr (hin : t'.inodes = t.inodes) (hfile : ∀ i, t'.IsFile i ↔ t.IsFile i) :
    rebuildFileList t' = rebuildFileList t := by
  have hname : visibleName t' = visibleName t := by
    funext i
    unfold visibleName visibleDir
    rw [hin]
  unfold rebuildFileList
  rw [hname, List.filter_congr fun i _ => decide_eq_decide.mpr (hfile i)]

theorem Claims.isFile_iff (h : Claims t t' i) (j : Fin 64) : t'.IsFile j ↔ t.IsFile j := by
  by_cases hj : j = i
  · subst hj
    unfold Tables.IsFile
    rw [h.inodes, h.free]
    exact ⟨fun h => absurd h.2 (by decide), fun h => absurd h.2 (by decide)⟩
  · exact h.replaces.isFile_iff hj

/-- Mirrored tables after the commit of tables that differ from the ones on disk in the superblock
only. -/
theorem Mirrors.commit {D : Disk} (h : Mirrors D t) (hin : t'.inodes = t.inodes)
    (hbm : t'.bitmap = t.bitmap) (state : UInt32) :
    Mirrors (storeJournal (t'.setJournal state) state D) (t'.setJournal state) := by
  have hmir : Mirrors (update D 1 (journalSector state)) t :=
    h.congr fun r _ hr => update_of_ne hr _ _
  exact (hmir.superblock_write (t'.setJournal state).superblock).of_eq
    (Tables.ext rfl hin.symm hbm.symm)

/-- The tables after a plan without room: as before but for `inode_count`. -/
theorem Plan.Sound.noRoom_tables (h : t' = t ∨ ∃ i, Claims t t' i) :
    t'.inodes = t.inodes ∧ t'.bitmap = t.bitmap ∧ ∀ i, t'.IsFile i ↔ t.IsFile i := by
  rcases h with rfl | ⟨i, hc⟩
  · exact ⟨rfl, rfl, fun _ => Iff.rfl⟩
  · exact ⟨hc.inodes, hc.bitmap, hc.isFile_iff⟩

/-- **A plan takes a good state to a good state.** -/
theorem Good.transact (h : Good leak s) {p : Plan} (hp : p.Sound (s.tables.setJournal 1)) :
    Good leak (transact s p).2 := by
  have hcons := transact_consistent h.consistent hp
  have havail := (transact_available s p).trans h.available
  cases hp with
  | reject ok => exact h
  | @noRoom t' ht' =>
    obtain ⟨hin, hbm, hfile⟩ := Plan.Sound.noRoom_tables ht'
    obtain ⟨b1, b2, heq, hph1, hph2, hlog1, hlog2⟩ := transact_noRoom h t'
    have hm1 : Mirrors b1.logical (s.tables.setJournal 1) := hlog1 ▸ h.mirrors.journal_write 1
    rw [heq] at hcons havail ⊢
    refine ⟨hph2.ok, hph2.reliable, hph2.settled, havail, rfl, hcons, ?_, ?_⟩
    · exact hlog2 ▸ hm1.commit hin hbm 0
    · exact h.files.trans (rebuildFileList_congr hin hfile).symm
  | @change i kind t' w hc =>
    obtain ⟨b1, b2, b3, K, g, heq, hph1, hph2, hph3, hlog1, hlog2, hlog3, he⟩ :=
      transact_change h hc
    have hm1 : Mirrors b1.logical (s.tables.setJournal 1) := hlog1 ▸ h.mirrors.journal_write 1
    have hm2 : Mirrors b2.logical t' := hlog2 ▸ he.mirrors _ hm1
    rw [heq] at hcons havail ⊢
    refine ⟨hph3.ok, hph3.reliable, hph3.settled, havail, rfl, hcons, ?_, rfl⟩
    exact hlog3 ▸ hm2.journal_write 0

/-- **Every operation takes a good state to a good state.** -/
theorem Good.exec (h : Good leak s) (op : Op) : Good leak (op.exec s).2 := by
  obtain ⟨b, p, hb, hp, heq⟩ := op.exec_plan h.consistent
  rw [heq]
  exact (h.of_reads hb).transact hp

theorem Good.run (h : Good leak s) (ops : List Op) :
    Good leak (run s ops) := run_induction (fun _ op hs => hs.exec op) h ops

end MyOS.Diskfs
