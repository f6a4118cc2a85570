import MyOS.Diskfs.Cache
import MyOS.Diskfs.Ops

/-!
# Effects of the block writes

Each step that an operation makes on the block layer has an `Effect`: the set `K` of sectors it may
write, and the function `g` that a complete run applies to the logical disk. Whatever the drive
does, the step moves only at `K` and only towards `g`, and it reports success exactly when no call
to the drive failed. Effects on disjoint sets of sectors compose (`Effect.andThen`).

On a drive that never fails a step that ends with a flush is a `Phase`: it takes a settled block
layer to a settled one, and every state of the drive on the way has, sector by sector, the old or
the new content (`Effect.phase`).
-/

namespace MyOS.Diskfs

open BlockCache Function List

/-- The contents of the filesystem's sectors. -/
abbrev Disk := UInt32 → Sector

/-- What a step on the block layer does. -/
structure Effect (f : BlockAction) (K : Set UInt32) (g : Disk → Disk) : Prop where
  off : ∀ D k, k ∉ K → g D k = D k
  moves : ∀ b, b.Ok → Moves (fun k v => k ∈ K ∧ v = g b.logical k) b (f b).2
  verdict : ∀ b, b.Ok → Verdict (f b).1 b (f b).2
  logical : ∀ b, b.Ok → (f b).1 = true → (f b).2.logical = g b.logical

/-- The step leaves nothing to write back when it succeeds. -/
def Settles (f : BlockAction) : Prop := ∀ b, (f b).1 = true → Settled (f b).2.cache

namespace Effect

variable {f f' : BlockAction} {K K' : Set UInt32} {g g' : Disk → Disk}

variable {b : BlockLayer}

theorem ok (h : Effect f K g) (hb : b.Ok) : (f b).2.Ok := (h.moves b hb).ok hb

/-- The logical disk changes at `K` only, also when the step fails. -/
theorem logical_off (h : Effect f K g) (hb : b.Ok) {k : UInt32} (hk : k ∉ K) :
    (f b).2.logical k = b.logical k :=
  ((h.moves b hb).ok_logical hb).2 k (fun _ hW => hk hW.1)

theorem flush : Effect diskfsFlush ∅ id where
  off := fun _ _ _ => rfl
  moves := fun b _ => diskfsFlush_moves _ b
  verdict := fun _ hb => diskfsFlush_verdict hb
  logical := fun _ hb _ => diskfsFlush_logical hb

theorem writeSector {k : UInt32} (hk : k < totalSectors) (v : Sector) :
    Effect (fun b => Diskfs.writeSector b k v) {k} (fun D => update D k v) where
  off := fun _ _ hk' => update_of_ne hk' _ _
  moves := fun b _ => by
    refine (writeSector_moves b k v).mono ?_
    rintro k' v' ⟨rfl, rfl⟩
    exact ⟨rfl, by rw [update_self]⟩
  verdict := fun _ hb => writeSector_verdict hb hk v
  logical := fun _ hb hok => by rw [writeSector_logical hb, if_pos hok]

theorem andThen_of_true (h : (f b).1 = true) :
    Diskfs.andThen f f' b = f' (f b).2 := by simp [Diskfs.andThen, h]

theorem andThen_of_false (h : (f b).1 = false) :
    Diskfs.andThen f f' b = (false, (f b).2) := by simp [Diskfs.andThen, h]

/-- **Effects compose**, on disjoint sets of sectors. -/
theorem andThen (h : Effect f K g) (h' : Effect f' K' g') (hdisj : Disjoint K K') :
    Effect (Diskfs.andThen f f') (K ∪ K') (g' ∘ g) := by
  -- a sector of the first step is not written again by the second
  have hkeep : ∀ D k, k ∈ K → g' (g D) k = g D k :=
    fun D k hk => h'.off _ k (Set.disjoint_left.mp hdisj hk)
  have hfirst : ∀ b : BlockLayer, b.Ok →
      Moves (fun k v => k ∈ K ∪ K' ∧ v = (g' ∘ g) b.logical k) b (f b).2 := by
    intro b hb
    refine (h.moves b hb).mono ?_
    rintro k v ⟨hk, rfl⟩
    exact ⟨.inl hk, (hkeep _ k hk).symm⟩
  refine ⟨fun D k hk => ?_, fun b hb => ?_, fun b hb => ?_, fun b hb hok => ?_⟩
  · rw [Set.mem_union, not_or] at hk
    rw [Function.comp_apply, h'.off _ k hk.2, h.off _ k hk.1]
  · cases hf : (f b).1 with
    | false => rw [andThen_of_false hf]; exact hfirst b hb
    | true =>
      rw [andThen_of_true hf]
      refine (hfirst b hb).trans ((h'.moves _ (h.ok hb)).mono ?_)
      rintro k v ⟨hk, rfl⟩
      exact ⟨.inr hk, by rw [h.logical b hb hf]; rfl⟩
  · have hv := h.verdict b hb
    cases hf : (f b).1 with
    | false => rw [andThen_of_false hf]; rw [hf] at hv; exact hv
    | true =>
      rw [andThen_of_true hf]
      rw [hf] at hv
      exact hv.trans (h'.verdict _ (h.ok hb))
  · cases hf : (f b).1 with
    | false => rw [andThen_of_false hf] at hok; cases hok
    | true =>
      rw [andThen_of_true hf] at hok ⊢
      rw [h'.logical _ (h.ok hb) hok, h.logical b hb hf]
      rfl

/-- A step followed by a flush. -/
theorem thenFlush (h : Effect f K g) : Effect (Diskfs.andThen f diskfsFlush) K g := by
  have := h.andThen flush (Set.disjoint_empty K)
  rwa [Set.union_empty] at this

end Effect

theorem Settles.flush : Settles diskfsFlush := fun _ h => diskfsFlush_settled h

theorem Settles.andThen (f : BlockAction) {f' : BlockAction} (h : Settles f') :
    Settles (Diskfs.andThen f f') := by
  intro b hok
  cases hf : (f b).1 with
  | false => rw [Effect.andThen_of_false hf] at hok; cases hok
  | true => rw [Effect.andThen_of_true hf] at hok ⊢; exact h _ hok

/-! ### The steps of the operations -/

theorem writeThrough_effect {k : UInt32} (hk : k < totalSectors) (v : Sector) :
    Effect (writeThrough k v) {k} (fun D => update D k v) :=
  (Effect.writeSector hk v).thenFlush

theorem writeThrough_settles (k : UInt32) (v : Sector) : Settles (writeThrough k v) :=
  Settles.flush.andThen _

/-- The inode sector with slot `i` patched. -/
def patchInode (t : Tables) (i : Fin 64) (D : Disk) : Disk :=
  update D (inodeSector t.superblock i)
    ((D (inodeSector t.superblock i)).splice (inodeOffset i) (t.inodes i).byteAt Inode.bytes)

variable {t : Tables} {i : Fin 64} {b : BlockLayer}

theorem writeInode_of_none (h : (readSector b (inodeSector t.superblock i)).1 = none) :
    writeInode t i b = (false, (readSector b (inodeSector t.superblock i)).2) := by
  simp [writeInode, h]

theorem writeInode_of_some {v : Sector} (h : (readSector b (inodeSector t.superblock i)).1 = some v)
    :
    writeInode t i b = writeThrough (inodeSector t.superblock i)
      (v.splice (inodeOffset i) (t.inodes i).byteAt Inode.bytes)
      (readSector b (inodeSector t.superblock i)).2 := by
  simp [writeInode, h]

/-- `write_inode` reads the sector of the inode, and writes it back with the inode in its place. -/
theorem writeInode_effect (hk : inodeSector t.superblock i < totalSectors) :
    Effect (writeInode t i) {inodeSector t.superblock i} (patchInode t i) := by
  have hread : ∀ b : BlockLayer, b.Ok → (readSector b (inodeSector t.superblock i)).2.Ok ∧
      (readSector b (inodeSector t.superblock i)).2.logical = b.logical :=
    fun b hb => ⟨(readSector_moves b _).ok hb, Moves.logical_eq (readSector_moves b _) hb⟩
  refine ⟨fun D k hk' => update_of_ne hk' _ _, fun b hb => ?_, fun b hb => ?_, fun b hb hok => ?_⟩
  · have hm : Moves (fun k v => k ∈ ({inodeSector t.superblock i} : Set UInt32) ∧
        v = patchInode t i b.logical k) b (readSector b (inodeSector t.superblock i)).2 :=
      (readSector_moves b (inodeSector t.superblock i)).mono (fun _ _ h => h.elim)
    cases hr : (readSector b (inodeSector t.superblock i)).1 with
    | none => rw [writeInode_of_none hr]; exact hm
    | some v =>
      rw [writeInode_of_some hr]
      refine hm.trans (((writeThrough_effect hk _).moves _ (hread b hb).1).mono ?_)
      rintro k w ⟨rfl, rfl⟩
      refine ⟨rfl, ?_⟩
      rw [(hread b hb).2, readSector_eq hb hr]
      rfl
  · have hv := readSector_verdict hb hk
    cases hr : (readSector b (inodeSector t.superblock i)).1 with
    | none => rw [writeInode_of_none hr]; rw [hr] at hv; exact hv
    | some v =>
      rw [writeInode_of_some hr]
      rw [hr] at hv
      exact hv.trans ((writeThrough_effect hk _).verdict _ (hread b hb).1)
  · cases hr : (readSector b (inodeSector t.superblock i)).1 with
    | none => rw [writeInode_of_none hr] at hok; cases hok
    | some v =>
      rw [writeInode_of_some hr] at hok ⊢
      rw [(writeThrough_effect hk _).logical _ (hread b hb).1 hok, (hread b hb).2,
        readSector_eq hb hr]
      rfl

theorem writeInode_settles (t : Tables) (i : Fin 64) : Settles (writeInode t i) := by
  intro b hok
  cases hr : (readSector b (inodeSector t.superblock i)).1 with
  | none => rw [writeInode_of_none hr] at hok; cases hok
  | some v => rw [writeInode_of_some hr] at hok ⊢; exact writeThrough_settles _ _ _ hok

theorem writeSuperblock_effect (t : Tables) : Effect (writeSuperblock t) {0}
    (fun D => update D 0 (superblockSector t.superblock)) :=
  writeThrough_effect (by decide) _

/-- The journal and superblock sectors written by `write_journal`. -/
def storeJournal (t : Tables) (state : UInt32) (D : Disk) : Disk :=
  update (update D 1 (journalSector state)) 0 (superblockSector t.superblock)

theorem journalWrites_effect (t : Tables) (state : UInt32) :
    Effect (journalWrites t state) ({1} ∪ {0}) (storeJournal t state) :=
  (Effect.writeSector (by decide) _).andThen (writeSuperblock_effect t) (by simp)

theorem journalWrites_settles (t : Tables) (state : UInt32) : Settles (journalWrites t state) :=
  (writeThrough_settles _ _).andThen _

/-! ### File data -/

/-- The sectors of the chunks `l` of an extent. -/
def chunkSectors (first : UInt32) (l : List ℕ) : Set UInt32 :=
  {r | ∃ k ∈ l, r = first + UInt32.ofNat k}

/-- The chunks `l` of a buffer stored one after another. -/
def storeChunks (first : UInt32) (buffer : Buffer) (size : ℕ) (l : List ℕ) (D : Disk) : Disk :=
  l.foldl (fun D k => update D (first + UInt32.ofNat k) (fileSector buffer size k)) D

section Chunks

variable {first : UInt32} {k : ℕ} {l : List ℕ}

theorem chunkSectors_cons (first : UInt32) (k : ℕ) (l : List ℕ) :
    chunkSectors first (k :: l) = {first + UInt32.ofNat k} ∪ chunkSectors first l := by
  refine Set.ext fun r => ?_
  simp [chunkSectors]

theorem not_mem_chunkSectors (hk : k ∉ l) (hb : ∀ j ∈ k :: l, first.toNat + j < 4096) :
    first + UInt32.ofNat k ∉ chunkSectors first l := by
  rintro ⟨j, hj, heq⟩
  have hbk := hb k mem_cons_self
  have hbj := hb j (mem_cons_of_mem _ hj)
  have h := congrArg UInt32.toNat heq
  rw [Word.toNat_add_ofNat (by omega), Word.toNat_add_ofNat (by omega)] at h
  exact hk (by rwa [show k = j by omega])

theorem writeChunks_effect (buffer : Buffer) (size : ℕ) (hnodup : l.Nodup)
    (hb : ∀ k ∈ l, first.toNat + k < 4096) :
    Effect (writeChunks first buffer size l) (chunkSectors first l)
      (storeChunks first buffer size l) := by
  induction l with
  | nil =>
    exact ⟨fun _ _ _ => rfl, fun _ _ => .refl, fun _ _ => .inl ⟨rfl, rfl⟩, fun _ _ _ => rfl⟩
  | cons k l ih =>
    have hk : first + UInt32.ofNat k < totalSectors := by
      have := hb k mem_cons_self
      rw [UInt32.lt_iff_toNat_lt, Word.toNat_add_ofNat (by omega)]
      exact this
    rw [nodup_cons] at hnodup
    rw [chunkSectors_cons]
    refine (Effect.writeSector hk _).andThen
      (ih hnodup.2 (fun j hj => hb j (mem_cons_of_mem _ hj))) ?_
    rw [Set.disjoint_singleton_left]
    exact not_mem_chunkSectors hnodup.1 hb

/-- Each chunk ends up in its sector. -/
theorem storeChunks_apply (buffer : Buffer) (size : ℕ) (hnodup : l.Nodup)
    (hb : ∀ k ∈ l, first.toNat + k < 4096) (hk : k ∈ l) (D : Disk) :
    storeChunks first buffer size l D (first + UInt32.ofNat k) = fileSector buffer size k := by
  induction l generalizing D with
  | nil => cases hk
  | cons j l ih =>
    have hb' : ∀ k ∈ l, first.toNat + k < 4096 := fun k hk => hb k (mem_cons_of_mem _ hk)
    rw [nodup_cons] at hnodup
    rcases mem_cons.mp hk with rfl | hk'
    · have hoff := (writeChunks_effect buffer size hnodup.2 hb').off
        (update D (first + UInt32.ofNat k) (fileSector buffer size k)) _
        (not_mem_chunkSectors hnodup.1 hb)
      exact hoff.trans (update_self _ _ _)
    · exact ih hnodup.2 hb' hk' _

end Chunks

/-- The sectors of an extent as sector numbers. -/
def dataSectors (first sectors : UInt32) : Set UInt32 :=
  chunkSectors first (List.range sectors.toNat)

/-- The logical disk after `write_file_data`. -/
def storeData (first : UInt32) (buffer : Buffer) (size : UInt32) : Disk → Disk :=
  storeChunks first buffer size.toNat (List.range (sectorsForSize size).toNat)

section FileData

variable {first size : UInt32} (hb : first.toNat + (sectorsForSize size).toNat ≤ 4096)
include hb

theorem writeFileData_effect (buffer : Buffer) : Effect (writeFileData first buffer size)
    (dataSectors first (sectorsForSize size)) (storeData first buffer size) :=
  (writeChunks_effect buffer size.toNat nodup_range
    (fun k hk => by have := mem_range.mp hk; omega)).thenFlush

theorem mem_dataSectors (r : UInt32) : r ∈ dataSectors first (sectorsForSize size) ↔
    first.toNat ≤ r.toNat ∧ r.toNat < first.toNat + (sectorsForSize size).toNat := by
  constructor
  · rintro ⟨k, hk, rfl⟩
    rw [mem_range] at hk
    rw [Word.toNat_add_ofNat (by omega)]
    omega
  · rintro ⟨h1, h2⟩
    refine ⟨r.toNat - first.toNat, mem_range.mpr (by omega), UInt32.toNat_inj.mp ?_⟩
    rw [Word.toNat_add_ofNat (by omega)]
    omega

/-- The bytes of the file come back from the sectors they were written to. -/
theorem storeData_get (buffer : Buffer) (D : Disk) {k : ℕ} (hk : k < size.toNat)
    (hroom : size.toNat ≤ 512 * (sectorsForSize size).toNat) :
    (storeData first buffer size D (first + UInt32.ofNat (k / 512))).get (k % 512) = buffer k := by
  have hmem : k / 512 ∈ List.range (sectorsForSize size).toNat := mem_range.mpr (by omega)
  unfold storeData
  rw [storeChunks_apply buffer size.toNat nodup_range
    (fun j hj => by have := mem_range.mp hj; omega) hmem]
  unfold fileSector
  rw [Bytes.get_splice_of_mem _ _ (by omega) (by omega) (by omega), Nat.sub_zero]
  congr 1
  omega

end FileData

theorem writeFileData_settles (first : UInt32) (buffer : Buffer) (size : UInt32) :
    Settles (writeFileData first buffer size) := Settles.flush.andThen _

/-! ### Phases of a reliable drive -/

/-- A step of a settled block layer on a drive that never fails. Every state the drive went
through has the old or the new content in each sector. -/
structure Phase (b b' : BlockLayer) : Prop where
  ok : b'.Ok
  reliable : b'.Reliable
  settled : Settled b'.cache
  window : b'.fsStartLba = b.fsStartLba
  past : ∀ d ∈ b'.ata.history, d ∈ b.ata.history ∨
    ∀ r, d (b.fsStartLba + r) = b.logical r ∨ d (b.fsStartLba + r) = b'.logical r

/-- A settled block layer holds nothing but its logical disk. -/
theorem BlockLayer.Ok.sourced (hb : b.Ok) (hs : Settled b.cache) {S : UInt32 → Sector → Prop}
    (hS : ∀ r, S r (b.logical r)) : b.Sourced S b.ata.history where
  now :=
    { disk := fun k => by rw [hb.onDisk_eq hs]; exact hS k
      slots := fun i hi => by
        have := hb.coherent.view_of_holds (i := i) (k := (b.cache i).sector) ⟨hi, rfl⟩
        rw [← this]
        exact hS _ }
  past := fun _ hd => .inl hd

/-- Moves towards the final disk, on a drive that never fails, are a phase. -/
theorem Moves.phase {W : UInt32 → Sector → Prop} {b' : BlockLayer} (h : Moves W b b')
    (hW : ∀ k v, W k v → v = b'.logical k) (hb : b.Ok) (hr : b.Reliable) (hs : Settled b.cache)
    (hs' : Settled b'.cache) : Phase b b' := by
  refine ⟨h.ok hb, h.reliable hr, hs', h.accounts.start, ?_⟩
  have hsrc := hb.sourced hs (S := fun r v => v = b.logical r ∨ v = b'.logical r)
    (fun r => .inl rfl)
  have hpast := (h.sourced hr (fun k v hv => .inr (hW k v hv)) hsrc).past
  rwa [h.accounts.start] at hpast

/-- **A step that ends with a flush is a phase**, on a drive that never fails. -/
theorem Effect.phase {f : BlockAction} {K : Set UInt32} {g : Disk → Disk} (h : Effect f K g)
    (hf : Settles f) (hb : b.Ok) (hr : b.Reliable) (hs : Settled b.cache) :
    (f b).1 = true ∧ (f b).2.logical = g b.logical ∧ Phase b (f b).2 := by
  have hm := h.moves b hb
  have hok : (f b).1 = true := (h.verdict b hb).eq_true (hm.faults_eq hr)
  have hlog := h.logical b hb hok
  refine ⟨hok, hlog, hm.phase (fun k v hv => ?_) hb hr hs (hf b hok)⟩
  rw [hlog]
  exact hv.2

end MyOS.Diskfs
