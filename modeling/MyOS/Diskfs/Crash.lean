import MyOS.Diskfs.Image

/-!
# Crash points

A crash leaves on disk what some raw sector write of a run left there. The tables on disk move one
at a time (`Adjacent`), and a settled step of the block layer passes only through disks that hold
the tables before it or after it (`Effect.leads`). An operation leads through a chain of such steps:

    begin       the marker is set
    data        the tables stay
    inode       the inode table is the new one
    superblock  `inode_count` is the new one (only when a file is created)
    bitmap      the bitmap is the new one
    commit      the marker is cleared

`CrashState` lists the tables a crash can leave, and `exec_passes` shows that the list is complete.
So a disk whose marker is clear is consistent (`journal_marker_sound`).
-/

namespace MyOS.Diskfs

open BlockCache

/-! ### Steps of the tables on disk -/

/-- The tables differ in one of their parts, and there in one sector. -/
inductive Adjacent (t t' : Tables) : Prop
  | superblock (hin : t'.inodes = t.inodes) (hbm : t'.bitmap = t.bitmap)
  | inode (i : Fin 64) (hsb : t'.superblock = t.superblock) (hbm : t'.bitmap = t.bitmap)
      (hin : ∀ j, j ≠ i → t'.inodes j = t.inodes j)
  | bitmap (hsb : t'.superblock = t.superblock) (hin : t'.inodes = t.inodes)

theorem Adjacent.refl (t : Tables) : Adjacent t t := .superblock rfl rfl

variable {t t' : Tables} {I : Tables → Prop} {b : BlockLayer} {leak : Set ℕ}

/-- **No state in between.** A disk that has in each sector what one of two disks has holds the
tables of the one or of the other, when those are adjacent. -/
theorem Mirrors.of_adjacent {D D' E : Disk} (h : Mirrors D t) (h' : Mirrors D' t')
    (ha : Adjacent t t') (hE : ∀ r, E r = D r ∨ E r = D' r) : Mirrors E t ∨ Mirrors E t' := by
  -- where the two tables agree it does not matter which disk the sector comes from
  have hsb : t'.superblock = t.superblock → Superblock.ofBytes (E 0).get 0 = t.superblock := by
    intro heq
    rcases hE 0 with h0 | h0
    · rw [h0]; exact h.superblock
    · rw [h0, ← heq]; exact h'.superblock
  have hbm : t'.bitmap = t.bitmap → E 2 = t.bitmap := by
    intro heq
    rcases hE 2 with h2 | h2
    · exact h2.trans h.bitmap
    · exact (h2.trans h'.bitmap).trans heq
  have hin : ∀ i, t'.inodes i = t.inodes i →
      Inode.ofBytes (E (tableSector i)).get (inodeOffset i) = t.inodes i := by
    intro i heq
    rcases hE (tableSector i) with hs | hs
    · rw [hs]; exact h.inodes i
    · rw [hs, ← heq]; exact h'.inodes i
  cases ha with
  | superblock heqin heqbm =>
    have hall : ∀ i, t'.inodes i = t.inodes i := fun i => congrFun heqin i
    rcases hE 0 with h0 | h0
    · exact .inl ⟨by rw [h0]; exact h.superblock, hbm heqbm, fun i => hin i (hall i)⟩
    · refine .inr ⟨by rw [h0]; exact h'.superblock, (hbm heqbm).trans heqbm.symm, fun i => ?_⟩
      exact (hin i (hall i)).trans (hall i).symm
  | inode i heqsb heqbm hother =>
    -- the sector of slot `i` decides
    rcases hE (tableSector i) with hs | hs
    · refine .inl ⟨hsb heqsb, hbm heqbm, fun j => ?_⟩
      by_cases hj : j = i
      · subst hj; rw [hs]; exact h.inodes j
      · exact hin j (hother j hj)
    · refine .inr ⟨(hsb heqsb).trans heqsb.symm, (hbm heqbm).trans heqbm.symm, fun j => ?_⟩
      by_cases hj : j = i
      · subst hj; rw [hs]; exact h'.inodes j
      · exact (hin j (hother j hj)).trans (hother j hj).symm
  | bitmap heqsb heqin =>
    have hall : ∀ i, t'.inodes i = t.inodes i := fun i => congrFun heqin i
    rcases hE 2 with h2 | h2
    · exact .inl ⟨hsb heqsb, h2.trans h.bitmap, fun i => hin i (hall i)⟩
    · refine .inr ⟨(hsb heqsb).trans heqsb.symm, h2.trans h'.bitmap, fun i => ?_⟩
      exact (hin i (hall i)).trans (hall i).symm

/-! ### Steps of the block layer -/

/-- From `b` to `b'` the drive has only been in states whose tables satisfy `I`. -/
structure Passes (I : Tables → Prop) (b b' : BlockLayer) : Prop where
  ok : b'.Ok
  reliable : b'.Reliable
  settled : Settled b'.cache
  window : b'.fsStartLba = b.fsStartLba
  past : ∀ d ∈ b'.ata.history, d ∈ b.ata.history ∨
    ∃ u, I u ∧ Mirrors (fun r => d (b.fsStartLba + r)) u

theorem Passes.trans {b1 b2 : BlockLayer} (h : Passes I b b1) (h' : Passes I b1 b2) :
    Passes I b b2 := by
  refine ⟨h'.ok, h'.reliable, h'.settled, h'.window.trans h.window, fun d hd => ?_⟩
  rcases h'.past d hd with hold | hnew
  · exact h.past d hold
  · rw [h.window] at hnew
    exact .inr hnew

theorem Passes.mono {J : Tables → Prop} {b' : BlockLayer} (h : Passes I b b')
    (hIJ : ∀ u, I u → J u) :
    Passes J b b' := by
  refine ⟨h.ok, h.reliable, h.settled, h.window, fun d hd => ?_⟩
  rcases h.past d hd with hold | ⟨u, hu, hm⟩
  · exact .inl hold
  · exact .inr ⟨u, hIJ u hu, hm⟩

/-- A phase between disks with adjacent tables passes through these only. -/
theorem Phase.passes {b' : BlockLayer} (h : Phase b b') (hm : Mirrors b.logical t)
    (hm' : Mirrors b'.logical t') (ha : Adjacent t t') :
    Passes (fun u => u = t ∨ u = t') b b' := by
  refine ⟨h.ok, h.reliable, h.settled, h.window, fun d hd => ?_⟩
  rcases h.past d hd with hold | hnew
  · exact .inl hold
  · rcases hm.of_adjacent hm' ha hnew with hE | hE
    · exact .inr ⟨t, .inl rfl, hE⟩
    · exact .inr ⟨t', .inr rfl, hE⟩

/-- On a settled disk that holds `t` the step succeeds, ends with `t'` on disk, and passes through
`I` only. -/
def Leads (I : Tables → Prop) (f : BlockAction) (t t' : Tables) : Prop :=
  ∀ b : BlockLayer, b.Ok → b.Reliable → Settled b.cache → Mirrors b.logical t →
    (f b).1 = true ∧ Passes I b (f b).2 ∧ Mirrors (f b).2.logical t'

theorem Leads.andThen {f g : BlockAction} {t1 : Tables} (hf : Leads I f t t1)
    (hg : Leads I g t1 t') :
    Leads I (Diskfs.andThen f g) t t' := by
  intro b hb hr hs hm
  obtain ⟨hok, hp, hm1⟩ := hf b hb hr hs hm
  obtain ⟨hok', hp', hm'⟩ := hg _ hp.ok hp.reliable hp.settled hm1
  rw [Effect.andThen_of_true hok]
  exact ⟨hok', hp.trans hp', hm'⟩

/-- **An effect on one table leads from the old to the new tables.** -/
theorem Effect.leads {f : BlockAction} {K : Set UInt32} {g : Disk → Disk} (he : Effect f K g)
    (hs : Settles f) (hg : ∀ D, Mirrors D t → Mirrors (g D) t') (ha : Adjacent t t') (ht : I t)
    (ht' : I t') :
    Leads I f t t' := by
  intro b hb hr hset hm
  obtain ⟨hok, hlog, hph⟩ := he.phase hs hb hr hset
  have hm' : Mirrors (f b).2.logical t' := hlog ▸ hg _ hm
  refine ⟨hok, (hph.passes hm hm' ha).mono ?_, hm'⟩
  rintro u (rfl | rfl)
  · exact ht
  · exact ht'

/-! ### The body of an operation -/

/-- The tables on disk while the change from `t` to `t'` is written out. -/
inductive BodyState (t t' : Tables) : Tables → Prop
  | old : BodyState t t' t
  | inode : BodyState t t' ⟨t.superblock, t'.inodes, t.bitmap⟩
  | superblock : BodyState t t' ⟨t'.superblock, t'.inodes, t.bitmap⟩
  | new : BodyState t t' t'

section Body

variable {leak : Set ℕ} {t t' : Tables} {i : Fin 64}

theorem leads_inode (hr : Replaces t t' i) (hl : t'.superblock.layout = mkfsLayout) :
    Leads (BodyState t t') (writeInode t' i) t ⟨t.superblock, t'.inodes, t.bitmap⟩ := by
  have hin : Function.update t.inodes i (t'.inodes i) = t'.inodes := congrArg Tables.inodes hr.parts
  have hparts : t.setInode i (t'.inodes i) = ⟨t.superblock, t'.inodes, t.bitmap⟩ :=
    Tables.ext rfl hin rfl
  refine (writeInode_tableEffect hl i).leads (writeInode_settles _ _)
    (fun D hD => (hD.inode_write hl i).of_eq hparts) ?_ .old .inode
  exact .inode i rfl rfl hr.inodes

theorem leads_superblock :
    Leads (BodyState t t') (writeSuperblock t') ⟨t.superblock, t'.inodes, t.bitmap⟩
      ⟨t'.superblock, t'.inodes, t.bitmap⟩ :=
  (writeSuperblock_effect t').leads (writeThrough_settles _ _)
    (fun _ hD => hD.superblock_write t'.superblock) (.superblock rfl rfl) .inode .superblock

theorem leads_bitmap (hl : t'.superblock.layout = mkfsLayout) :
    Leads (BodyState t t') (writeBitmap t') ⟨t'.superblock, t'.inodes, t.bitmap⟩ t' :=
  (writeBitmap_effect hl).leads (writeThrough_settles _ _)
    (fun _ hD => hD.bitmap_write t'.bitmap) (.bitmap rfl rfl) .superblock .new

/-- Writing data into the extent of a file leaves the tables on disk alone. -/
theorem leads_data (ht : t'.Consistent leak) (hf : t'.IsFile i) {buffer : Buffer} {size : UInt32}
    (hcount : (t'.inodes i).sectorCount = sectorsForSize size) :
    Leads (BodyState t t') (writeFileData (t'.inodes i).firstSector buffer size) t t := by
  obtain ⟨-, hlo, hhi⟩ := ht.file_bounds hf
  rw [hcount] at hhi
  have he := writeFileData_effect hhi buffer
  refine he.leads (writeFileData_settles _ _ _) (fun D hD => hD.congr fun r hr _ => ?_)
    (.refl t) .old .old
  refine he.off D r fun hk => ?_
  have := (mem_dataSectors hhi r).mp hk
  omega

/-- **The writes of a change** lead from the old tables to the new ones, inode first, bitmap
last. -/
theorem Change.leads {kind : Kind} {w : BlockAction} (h : t.Consistent leak)
    (hc : Change t i kind t' w) : Leads (BodyState t t') w t t' := by
  have hr := hc.replaces h
  have ht := h.replaces hr
  have hdata := @hc.size_of_data leak _ _ _ _ _ h
  -- without a new superblock the bitmap follows the inode directly
  have hmeta : t'.superblock = t.superblock →
      Leads (BodyState t t') (andThen (writeInode t' i) (writeBitmap t')) t t' := by
    intro hsb
    have hinode := leads_inode hr ht.layout
    rw [← hsb] at hinode
    exact hinode.andThen (leads_bitmap ht.layout)
  cases hc with
  | resize hi hsize hres =>
    obtain ⟨hf, -, hcount⟩ := hdata rfl
    obtain ⟨-, hsb, -⟩ := resizeFile_replaces h hi hsize hres
    exact (leads_data ht hf hcount).andThen (hmeta hsb)
  | create hdir hleaf hnone hsize hn =>
    obtain ⟨hf, -, hcount⟩ := hdata rfl
    exact (leads_data ht hf hcount).andThen
      ((leads_inode hr ht.layout).andThen (leads_superblock.andThen (leads_bitmap ht.layout)))
  | remove hi => exact hmeta rfl
  | move hi hdir hleaf hnone => exact leads_inode hr ht.layout

end Body

/-! ### Whole operations -/

/-- The tables a crash can leave while an operation executes its plan on the tables `t`. -/
inductive CrashState (t : Tables) : Plan → Tables → Prop
  | before {p : Plan} : CrashState t p t
  | begun {p : Plan} : CrashState t p (t.setJournal 1)
  | noRoom {t' : Tables} : CrashState t (.noRoom t') (t'.setJournal 0)
  | body {t' u : Tables} {w : BlockAction} (h : BodyState (t.setJournal 1) t' u) :
      CrashState t (.change t' w) u
  | committed {t' : Tables} {w : BlockAction} : CrashState t (.change t' w) (t'.setJournal 0)

theorem leads_journal (hin : t'.inodes = t.inodes) (hbm : t'.bitmap = t.bitmap) (state : UInt32)
    (ht : I t) (ht' : I (t'.setJournal state)) :
    Leads I (journalWrites (t'.setJournal state) state) t (t'.setJournal state) :=
  (journalWrites_effect _ _).leads (journalWrites_settles _ _)
    (fun _ hD => hD.commit hin hbm state) (.superblock hin hbm) ht ht'

section Ops

variable {leak : Set ℕ} {s : Fs}

theorem begin_leads {I : Tables → Prop} (h : Good leak s) (ht : I s.tables)
    (ht' : I (s.tables.setJournal 1)) : (beginTransaction s).1 = true ∧
      Passes I s.block (beginTransaction s).2.block ∧
      Mirrors (beginTransaction s).2.block.logical (s.tables.setJournal 1) :=
  leads_journal rfl rfl 1 ht ht' s.block h.ok h.reliable h.settled h.mirrors

/-- **The list of crash states is complete**, for a plan. -/
theorem transact_passes (h : Good leak s) {p : Plan} (hp : p.Sound (s.tables.setJournal 1)) :
    Passes (CrashState s.tables p) s.block (transact s p).2.block := by
  cases hp with
  | reject ok =>
    exact ⟨h.ok, h.reliable, h.settled, rfl, fun d hd => .inl hd⟩
  | @noRoom t' ht' =>
    obtain ⟨hin, hbm, -⟩ := Plan.Sound.noRoom_tables ht'
    obtain ⟨hok, hpass, hm⟩ := begin_leads (I := CrashState s.tables (.noRoom t')) h .before .begun
    obtain ⟨-, hpass', -⟩ := leads_journal hin hbm 0 (I := CrashState s.tables (.noRoom t'))
      .begun .noRoom _ hpass.ok hpass.reliable hpass.settled hm
    unfold transact
    dsimp only
    rw [if_pos hok]
    exact hpass.trans hpass'
  | @change i kind t' w hc =>
    obtain ⟨hok, hpass, hm⟩ :=
      begin_leads (I := CrashState s.tables (.change t' w)) h .before .begun
    obtain ⟨hokw, hpassw, hmw⟩ := hc.leads (h.consistent.setJournal 1) _ hpass.ok hpass.reliable
      hpass.settled hm
    have hpassw' : Passes (CrashState s.tables (.change t' w)) _ _ :=
      hpassw.mono fun u hu => CrashState.body hu
    obtain ⟨-, hpass', -⟩ := leads_journal (show t'.inodes = t'.inodes from rfl) rfl 0
      (I := CrashState s.tables (.change t' w)) (.body .new) .committed _ hpassw.ok hpassw.reliable
      hpassw.settled hmw
    unfold transact finishOp
    dsimp only
    rw [if_pos hok, if_pos hokw]
    exact (hpass.trans hpassw').trans hpass'

/-- Reading passes through nothing new. -/
theorem Reads.passes (h : Good leak s) {b : BlockLayer} (hr : Reads s.block b) :
    Passes (fun u => u = s.tables) s.block b := by
  have hlog : b.logical = s.block.logical := Moves.logical_eq hr.moves h.ok
  have hph : Phase s.block b := hr.moves.phase (fun _ _ hW => hW.elim) h.ok h.reliable h.settled
    (hr.settled h.settled)
  exact (hph.passes h.mirrors (hlog ▸ h.mirrors) (.refl _)).mono fun u hu => hu.elim id id

/-- **Crash points of an operation**: the plan it follows, and the tables on disk after each raw
write. -/
theorem exec_passes (h : Good leak s) (op : Op) : ∃ p, p.Sound (s.tables.setJournal 1) ∧
    Passes (CrashState s.tables p) s.block (op.exec s).2.block := by
  obtain ⟨b, p, hr, hp, heq⟩ := op.exec_plan h.consistent
  have hreads : Passes (CrashState s.tables p) s.block b :=
    (hr.passes h).mono fun u hu => hu ▸ CrashState.before
  refine ⟨p, hp, ?_⟩
  rw [heq]
  exact hreads.trans (transact_passes (h.of_reads hr) hp)

end Ops

/-! ### The journal marker -/

section

variable {u : Tables} {p : Plan} (h : t.Consistent leak) (hp : p.Sound (t.setJournal 1))
  (hu : CrashState t p u)
include h hp hu

/-- A crash state with a clear marker is the state before or after the operation. -/
theorem CrashState.consistent (hclean : u.superblock.journalState = 0) :
    u.Consistent leak := by
  have hdirty : ∀ sb : Superblock, sb.journalState = 1 → sb.journalState ≠ 0 :=
    fun sb h1 h0 => absurd (h1.symm.trans h0) (by decide)
  cases hu with
  | before => exact h
  | begun => exact absurd hclean (hdirty _ rfl)
  | noRoom =>
    cases hp with
    | noRoom ht' =>
      rcases ht' with rfl | ⟨i, hc⟩
      · exact (h.setJournal 1).setJournal 0
      · exact ((h.setJournal 1).replaces hc.replaces).setJournal 0
  | body hbody =>
    cases hp with
    | change hc =>
      -- the marker stays set from begin to commit
      have hjournal := (hc.replaces (h.setJournal 1)).journal
      cases hbody with
      | old => exact absurd hclean (hdirty _ rfl)
      | inode => exact absurd hclean (hdirty _ rfl)
      | superblock => exact absurd hclean (hdirty _ hjournal)
      | new => exact absurd hclean (hdirty _ hjournal)
  | committed =>
    cases hp with
    | change hc => exact (hc.consistent (h.setJournal 1)).setJournal 0

/-- The layout of the superblock never changes, so the tables on disk are found. -/
theorem CrashState.layout :
    u.superblock.layout = mkfsLayout := by
  have ht := h.layout
  cases hu with
  | before => exact ht
  | begun => exact ht
  | noRoom =>
    cases hp with
    | noRoom ht' =>
      rcases ht' with rfl | ⟨i, hc⟩
      · exact ht
      · exact hc.layout.trans ht
  | body hbody =>
    cases hp with
    | change hc =>
      have hlayout := (hc.replaces (h.setJournal 1)).layout.trans ht
      cases hbody with
      | old => exact ht
      | inode => exact ht
      | superblock => exact hlayout
      | new => exact hlayout
  | committed =>
    cases hp with
    | change hc => exact (hc.replaces (h.setJournal 1)).layout.trans ht

end

theorem run_window {s : Fs} (h : Good leak s) (ops : List Op) :
    (run s ops).block.fsStartLba = s.block.fsStartLba := by
  induction ops generalizing s with
  | nil => rfl
  | cons op ops ih =>
    obtain ⟨p, -, hpass⟩ := exec_passes h op
    exact (ih (h.exec op)).trans hpass.window

/-- The marker on every disk in a run's past is sound. -/
theorem run_marker_sound {s : Fs} (h : Good leak s) (ops : List Op) :
    ∀ d ∈ (run s ops).block.ata.history, d ∈ s.block.ata.history ∨
      ((diskTables fun r => d (s.block.fsStartLba + r)).superblock.journalState = 0 →
        (diskTables fun r => d (s.block.fsStartLba + r)).Consistent leak) := by
  induction ops generalizing s with
  | nil => exact fun d hd => .inl hd
  | cons op ops ih =>
    obtain ⟨p, hp, hpass⟩ := exec_passes h op
    have hpast := ih (h.exec op)
    rw [hpass.window] at hpast
    intro d hd
    rcases hpast d hd with hd' | hsound
    · rcases hpass.past d hd' with hold | ⟨u, hu, hm⟩
      · exact .inl hold
      · rw [hm.diskTables_eq (hu.layout h.consistent hp)]
        exact .inr (hu.consistent h.consistent hp)
    · exact .inr hsound

/-- **The journal marker is sound.** After every raw write of every run on a mounted image, if the
superblock on disk has a clear marker then the tables on disk agree. The history is recorded from
the mount on. -/
theorem journal_marker_sound {s0 : Fs} (h₀ : MountedImage s0) (hr : s0.block.Reliable)
    (hstart : s0.block.ata.history = []) (ops : List Op) :
    ∀ d ∈ (run s0 ops).block.ata.history,
      (diskTables fun r => d (s0.block.fsStartLba + r)).superblock.journalState = 0 →
        AllocationExact (diskTables fun r => d (s0.block.fsStartLba + r)) := by
  intro d hd hclean
  rcases run_marker_sound (h₀.good hr) ops d hd with hold | hsound
  · rw [hstart] at hold
    cases hold
  · exact (hsound hclean).exact

/-- The drive after the `n`-th last raw write of an operation on the small image. -/
def motdCrash (op : Op) (n : ℕ) : UInt32 → Sector :=
  (op.exec motdFs).2.block.ata.history.getD n fun _ => Bytes.zero

theorem motdCrash_mem {op : Op} {n : ℕ} (h : n < (op.exec motdFs).2.block.ata.history.length) :
    motdCrash op n ∈ (op.exec motdFs).2.block.ata.history := by
  unfold motdCrash
  rw [List.getD_eq_getElem?_getD, List.getElem?_eq_getElem h]
  exact List.getElem_mem h

/-- The small image after the last raw write of a delete. -/
theorem journal_marker_sound_motd : AllocationExact
    (diskTables fun r => motdCrash (.delete (some motdPath)) 0 (motdFs.block.fsStartLba + r)) :=
  journal_marker_sound motd_mounted motd_reliable
    (List.eq_nil_of_length_eq_zero (by decide +kernel)) [.delete (some motdPath)] _
    (motdCrash_mem (by decide +kernel)) (by decide +kernel)

end MyOS.Diskfs
