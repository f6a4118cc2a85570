import MyOS.Diskfs.Content
import MyOS.Diskfs.Mirror
import MyOS.Diskfs.Resolve

/-!
# Operations as transactions

What an operation of diskfs can do, said once. From the tables alone it settles on a `Plan`: it is
rejected, it finds no room, or it makes a `Change` of one inode and writes it out (`Op.exec_plan`).

A `Change` records the four kinds of change with everything the operation has checked. Each of them
replaces one inode (`Change.replaces`) and has an effect on the disk that moves the mirrored tables
along with the ones in memory (`Change.effect`). The invariants of later modules are derived from
these two facts.
-/

namespace MyOS.Diskfs

open Function

/-! ### Plans -/

/-- What an operation has decided to do after its checks. -/
inductive Plan where
  /-- Return at once. -/
  | reject (ok : Bool)
  /-- Begin, find no free slot or no free run, commit the tables `t`. -/
  | noRoom (t : Tables)
  /-- Begin, change the tables to `t`, write them out, commit. -/
  | change (t : Tables) (writes : BlockAction)

/-- The execution of a plan. -/
def transact (s : Fs) : Plan → Bool × Fs
  | .reject ok => (ok, s)
  | .noRoom t =>
    let begun := beginTransaction s
    if begun.1 then (false, (commitTransaction { begun.2 with tables := t }).2)
    else (false, begun.2)
  | .change t writes =>
    let begun := beginTransaction s
    if begun.1 then finishOp begun.2 t writes else (false, begun.2)

theorem transact_noRoom_false (s : Fs) (t : Tables) : (transact s (.noRoom t)).1 = false := by
  unfold transact
  dsimp only
  split <;> rfl

/-- A name that `path_part` can deliver. -/
structure LeafOk (leaf : List UInt8) : Prop where
  ne_nil : leaf ≠ []
  length : leaf.length < nameMax
  slash_free : slash ∉ leaf
  nul_free : (0 : UInt8) ∉ leaf

/-- The name field after a leaf was copied into it. -/
theorem LeafOk.cstr_nameOf {leaf : List UInt8} (h : LeafOk leaf) :
    cstr (nameOf (leaf.take nameMax)) = leaf := by
  have hlen := h.length
  rw [List.take_of_length_le (by omega)]
  exact Diskfs.cstr_nameOf (by unfold nameMax at hlen; omega) h.nul_free

/-- The kinds of change, with what the operation writes. -/
inductive Kind where
  | resize (buffer : Buffer) (size : UInt32)
  | create (parent : Fin 64) (leaf : List UInt8) (buffer : Buffer) (size : UInt32)
  | remove
  | move (parent : Fin 64) (leaf : List UInt8)

/-- A change of the inode `i` that takes the tables `t` to the given ones, and the block writes
that follow it. -/
inductive Change (t : Tables) (i : Fin 64) : Kind → Tables → BlockAction → Prop
  | resize {t' : Tables} {buffer : Buffer} {size : UInt32} (hi : t.IsFile i)
      (hsize : size ≤ maxFileSize) (hr : resizeFile t i size (sectorsForSize size) = some t') :
      Change t i (.resize buffer size) t'
        (andThen (writeFileData (t'.inodes i).firstSector buffer size)
          (andThen (writeInode t' i) (writeBitmap t')))
  | create {t' : Tables} {parent : Fin 64} {leaf : List UInt8} {buffer : Buffer} {size : UInt32}
      (hdir : ∃ cs, walk t typeDir rootInode cs = some parent) (hleaf : LeafOk leaf)
      (hnone : findChild t (idx32 parent) leaf typeFile = none) (hsize : size ≤ maxFileSize)
      (hn : newFile t (idx32 parent) leaf size (sectorsForSize size) = (some i, t')) :
      Change t i (.create parent leaf buffer size) t'
        (andThen (writeFileData (t'.inodes i).firstSector buffer size)
          (andThen (writeInode t' i) (andThen (writeSuperblock t') (writeBitmap t'))))
  | remove (hi : t.IsFile i) :
      Change t i .remove (removeFile t i)
        (andThen (writeInode (removeFile t i) i) (writeBitmap (removeFile t i)))
  | move {parent : Fin 64} {leaf : List UInt8} (hi : t.IsFile i)
      (hdir : ∃ cs, walk t typeDir rootInode cs = some parent) (hleaf : LeafOk leaf)
      (hnone : findChild t (idx32 parent) leaf 0 = none) :
      Change t i (.move parent leaf) (moveFile t i (idx32 parent) leaf)
        (writeInode (moveFile t i (idx32 parent) leaf) i)

/-- What a plan may be, for the tables `t` with the journal marker set. -/
inductive Plan.Sound (t : Tables) : Plan → Prop
  | reject (ok : Bool) : Sound t (.reject ok)
  | noRoom {t' : Tables} (h : t' = t ∨ ∃ i, Claims t t' i) : Sound t (.noRoom t')
  | change {i : Fin 64} {kind : Kind} {t' : Tables} {writes : BlockAction}
      (h : Change t i kind t' writes) : Sound t (.change t' writes)

/-! ### The operations follow a plan -/

variable {leak : Set ℕ} {t : Tables} {p : CString} {i : Fin 64} {s : Fs}

theorem Tables.Consistent.setJournal (h : t.Consistent leak) (state : UInt32) :
    (t.setJournal state).Consistent leak :=
  ⟨h.layout, h.count_pos, h.count_le, h.spare, h.size, h.room, h.alloc⟩

theorem walk_setJournal (t : Tables) (state : UInt32) (ty : UInt8) (cur : Fin 64)
    (cs : List (List UInt8)) : walk (t.setJournal state) ty cur cs = walk t ty cur cs := by
  induction cs generalizing cur with
  | nil => rfl
  | cons c cs ih =>
    rw [walk, walk]
    exact congrArg _ (funext fun child => ih child)

theorem nul_not_mem_pathParts {c : List UInt8} (hc : c ∈ pathParts p.bytes) :
    (0 : UInt8) ∉ c := fun h0 =>
  p.nul_free ((mem_components ((List.takeWhile_sublist _).subset hc)).2 0 h0)

theorem leafOk_of_mem_pathParts {c : List UInt8} (hc : c ∈ pathParts p.bytes) : LeafOk c := by
  have hcomp : c ∈ components slash p.bytes := (List.takeWhile_sublist _).subset hc
  refine ⟨ne_nil_of_mem_components hcomp, ?_, (mem_components hcomp).1, nul_not_mem_pathParts hc⟩
  simpa using List.mem_takeWhile_imp hc

theorem parentAndLeaf_eq_some {parent : Fin 64} {leaf : List UInt8}
    (h : parentAndLeaf t p = some (parent, leaf)) :
    ParentAt t (pathParts p.bytes) parent leaf ∧ LeafOk leaf := by
  have hp := (ensureParentDir_eq_some_iff t p parent leaf).mp (Option.filter_eq_some_iff.mp h).1
  exact ⟨hp, leafOk_of_mem_pathParts (List.mem_of_getLast? hp.2)⟩

/-- What `find_child` finds along a walk is in use. -/
theorem walk_inUse {ty : UInt8} {cs : List (List UInt8)} {cur : Fin 64} (hcur : t.InUse cur)
    (h : walk t ty cur cs = some i) : t.InUse i := by
  induction cs generalizing cur with
  | nil => rw [← Option.some.inj h]; exact hcur
  | cons c cs ih =>
    obtain ⟨child, hc, hw⟩ := Option.bind_eq_some_iff.mp h
    refine ih ?_ hw
    have := (find?_finRange_eq_some_iff.mp hc).1
    simp only [Bool.and_eq_true, decide_eq_true_eq] at this
    exact this.1.1.1.1

/-- `diskfs_find_file` returns live files. -/
theorem isFile_of_diskfsFindFile (h : t.Consistent leak) {path : Option CString}
    (hf : diskfsFindFile t path = some i) : t.IsFile i := by
  have hroot : t.InUse rootInode := h.count_pos
  cases path with
  | none => exact absurd hf (by simp [diskfsFindFile])
  | some p =>
    rcases (diskfsFindFile_eq_some_iff t p i).mp hf with hat | ⟨-, -, hat⟩
    · exact ⟨walk_inUse hroot hat.1, hat.2⟩
    · exact ⟨walk_inUse hroot hat.1, hat.2⟩

/-- The arguments of a write that passed its checks, and the parent and leaf it resolved. -/
structure WriteArgs (s : Fs) (path : Option CString) (buffer : Option Buffer) (size : UInt32)
    (p : CString) (buf : Buffer) (parent : Fin 64) (leaf : List UInt8) : Prop where
  path : path = some p
  buffer : buffer = some buf
  available : s.available = true
  size : size ≤ maxFileSize
  parentAt : ParentAt s.tables (pathParts p.bytes) parent leaf
  leafOk : LeafOk leaf

/-- There are a slot and a run of sectors for what a write would store. -/
def writeHasRoom (t : Tables) (path : CString) (size : UInt32) : Bool :=
  match parentAndLeaf t path with
  | none => false
  | some (parent, leaf) =>
    match findChild t (idx32 parent) leaf typeFile with
    | some i => (resizeFile (t.setJournal 1) i size (sectorsForSize size)).isSome
    | none => (newFile (t.setJournal 1) (idx32 parent) leaf size (sectorsForSize size)).1.isSome

/-- The plans of `diskfs_write_file`. -/
inductive WritePlan (s : Fs) (path : Option CString) (buffer : Option Buffer) (size : UInt32) :
    Plan → Prop
  | reject (h : s.available = true → size ≤ maxFileSize → ∀ p, path = some p → buffer ≠ none →
      writeHasRoom s.tables p size = false) : WritePlan s path buffer size (.reject false)
  | noRoom {p : CString} {t' : Tables} (hpath : path = some p)
      (hroom : writeHasRoom s.tables p size = false)
      (h : t' = s.tables.setJournal 1 ∨ ∃ i, Claims (s.tables.setJournal 1) t' i) :
      WritePlan s path buffer size (.noRoom t')
  | overwrite {p : CString} {buf : Buffer} {parent : Fin 64} {leaf : List UInt8} {i : Fin 64}
      {t' : Tables} {writes : BlockAction}
      (hargs : WriteArgs s path buffer size p buf parent leaf)
      (hroom : writeHasRoom s.tables p size = true)
      (hchild : findChild s.tables (idx32 parent) leaf typeFile = some i)
      (h : Change (s.tables.setJournal 1) i (.resize buf size) t' writes) :
      WritePlan s path buffer size (.change t' writes)
  | create {p : CString} {buf : Buffer} {parent : Fin 64} {leaf : List UInt8} {i : Fin 64}
      {t' : Tables} {writes : BlockAction}
      (hargs : WriteArgs s path buffer size p buf parent leaf)
      (hroom : writeHasRoom s.tables p size = true)
      (h : Change (s.tables.setJournal 1) i (.create parent leaf buf size) t' writes) :
      WritePlan s path buffer size (.change t' writes)

theorem WritePlan.sound {path : Option CString} {buffer : Option Buffer} {size : UInt32} {p : Plan}
    (h : WritePlan s path buffer size p) : p.Sound (s.tables.setJournal 1) := by
  cases h with
  | reject => exact .reject false
  | noRoom _ _ h => exact .noRoom h
  | overwrite _ _ _ h => exact .change h
  | create _ _ h => exact .change h

section WritePlans

variable {leak : Set ℕ} {s : Fs} (h : s.tables.Consistent leak) {p : CString} {buf : Buffer}
  {size : UInt32} {parent : Fin 64} {leaf : List UInt8}
  (hargs : WriteArgs s (some p) (some buf) size p buf parent leaf)
  (hpl : parentAndLeaf s.tables p = some (parent, leaf))
include hargs hpl

/-- A write to an existing file resizes it, or finds no run for its new extent. -/
theorem overwriteFile_plan {i : Fin 64}
    (hchild : findChild s.tables (idx32 parent) leaf typeFile = some i) :
    ∃ plan, WritePlan s (some p) (some buf) size plan ∧
      (if (beginTransaction s).1 then overwriteFile (beginTransaction s).2 i buf size
        else (false, (beginTransaction s).2)) = transact s plan := by
  have hi : s.tables.IsFile i := by
    obtain ⟨hm, -⟩ := (findChild_eq_some_iff hargs.leafOk.nul_free).mp hchild
    exact ⟨hm.inUse, hm.type.resolve_left (by decide)⟩
  have htables : (beginTransaction s).2.tables = s.tables.setJournal 1 := rfl
  unfold overwriteFile
  rw [htables]
  cases hr : resizeFile (s.tables.setJournal 1) i size (sectorsForSize size) with
  | none =>
    have hroom : writeHasRoom s.tables p size = false := by
      simp [writeHasRoom, hpl, hchild, hr]
    exact ⟨_, .noRoom rfl hroom (.inl rfl), rfl⟩
  | some t' =>
    have hroom : writeHasRoom s.tables p size = true := by
      simp [writeHasRoom, hpl, hchild, hr]
    exact ⟨_, .overwrite hargs hroom hchild (.resize hi hargs.size hr), rfl⟩

include h

/-- A write to a new file fills a slot, or finds no slot or no run of sectors. -/
theorem createFile_plan (hchild : findChild s.tables (idx32 parent) leaf typeFile = none) :
    ∃ plan, WritePlan s (some p) (some buf) size plan ∧
      (if (beginTransaction s).1 then createFile (beginTransaction s).2 parent leaf buf size
        else (false, (beginTransaction s).2)) = transact s plan := by
  have htables : (beginTransaction s).2.tables = s.tables.setJournal 1 := rfl
  unfold createFile
  rw [htables]
  rcases newFile_cases (idx32 parent) leaf (h.setJournal 1) hargs.size with
    ⟨i, t', first, hn, -⟩ | ⟨t', hn, ht'⟩
  · have hroom : writeHasRoom s.tables p size = true := by
      simp [writeHasRoom, hpl, hchild, hn]
    have hdir := (walk_setJournal s.tables 1 _ _ _).trans hargs.parentAt.1
    rw [hn]
    exact ⟨_, .create hargs hroom (.create ⟨_, hdir⟩ hargs.leafOk hchild hargs.size hn), rfl⟩
  · have hroom : writeHasRoom s.tables p size = false := by
      simp [writeHasRoom, hpl, hchild, hn]
    rw [hn]
    exact ⟨_, .noRoom rfl hroom ht', rfl⟩

end WritePlans

section

variable (h : s.tables.Consistent leak)
include h

/-- **`diskfs_write_file` follows a plan.** -/
theorem diskfsWriteFile_plan (path : Option CString) (buffer : Option Buffer) (size : UInt32) :
    ∃ p, WritePlan s path buffer size p ∧ diskfsWriteFile s path buffer size = transact s p := by
  cases path with
  | none => exact ⟨_, .reject nofun, rfl⟩
  | some p =>
    cases buffer with
    | none => exact ⟨_, .reject fun _ _ p _ hbuf => absurd rfl hbuf, rfl⟩
    | some buf =>
      unfold diskfsWriteFile
      dsimp only
      by_cases hc : (!s.available || decide (size > maxFileSize)) = true
      · rw [if_pos hc]
        refine ⟨_, .reject fun havail hsize => ?_, rfl⟩
        rw [havail, Bool.not_true, Bool.false_or, decide_eq_true_eq] at hc
        exact absurd hsize (UInt32.not_le.mpr hc)
      · rw [if_neg hc]
        rw [Bool.or_eq_true, not_or, Bool.not_eq_true', Bool.not_eq_false, decide_eq_true_eq,
          gt_iff_lt, UInt32.not_lt] at hc
        cases hpl : parentAndLeaf s.tables p with
        | none =>
          refine ⟨_, .reject fun _ _ q hq _ => ?_, rfl⟩
          rw [← Option.some.inj hq, writeHasRoom, hpl]
        | some r =>
          obtain ⟨parent, leaf⟩ := r
          obtain ⟨hpar, hleaf⟩ := parentAndLeaf_eq_some hpl
          have hargs : WriteArgs s (some p) (some buf) size p buf parent leaf :=
            ⟨rfl, rfl, hc.1, hc.2, hpar, hleaf⟩
          dsimp only
          cases hchild : findChild s.tables (idx32 parent) leaf typeFile with
          | some i => exact overwriteFile_plan hargs hpl hchild
          | none => exact createFile_plan h hargs hpl hchild

/-- `diskfs_delete_file` rejects the call or removes a file. -/
theorem diskfsDeleteFile_plan (path : Option CString) :
    diskfsDeleteFile s path = transact s (.reject false) ∨
      ∃ i t' w, Change (s.tables.setJournal 1) i .remove t' w ∧
        diskfsDeleteFile s path = transact s (.change t' w) := by
  unfold diskfsDeleteFile
  cases hf : diskfsFindFile s.tables path with
  | none => exact .inl rfl
  | some i =>
    have hi : s.tables.IsFile i := isFile_of_diskfsFindFile h hf
    exact .inr ⟨i, _, _, .remove (t := s.tables.setJournal 1) hi, rfl⟩

/-- `diskfs_rename_file` rejects the call or moves a file. -/
theorem diskfsRenameFile_plan (oldPath : Option CString) (newPath : CString) :
    diskfsRenameFile s oldPath newPath = transact s (.reject false) ∨
      ∃ i parent leaf t' w, Change (s.tables.setJournal 1) i (.move parent leaf) t' w ∧
        diskfsRenameFile s oldPath newPath = transact s (.change t' w) := by
  unfold diskfsRenameFile
  cases hf : diskfsFindFile s.tables oldPath with
  | none => exact .inl rfl
  | some i =>
    have hi : s.tables.IsFile i := isFile_of_diskfsFindFile h hf
    cases hpl : parentAndLeaf s.tables newPath with
    | none => exact .inl rfl
    | some r =>
      obtain ⟨parent, leaf⟩ := r
      obtain ⟨hpar, hleaf⟩ := parentAndLeaf_eq_some hpl
      dsimp only
      cases hchild : findChild s.tables (idx32 parent) leaf 0 with
      | some j => exact .inl rfl
      | none =>
        have hdir := (walk_setJournal s.tables 1 _ _ _).trans hpar.1
        exact .inr ⟨i, parent, leaf, _, _,
          .move (t := s.tables.setJournal 1) hi ⟨_, hdir⟩ hleaf hchild, rfl⟩

/-- `diskfs_truncate_file` reads at most, and then writes or returns. -/
theorem diskfsTruncateFile_plan (path : Option CString)
    (size : UInt32) : ∃ b p, Reads s.block b ∧ p.Sound (s.tables.setJournal 1) ∧
      diskfsTruncateFile s path size = transact { s with block := b } p := by
  have hreject : ∀ ok r, r = (ok, s) → ∃ b p, Reads s.block b ∧
      p.Sound (s.tables.setJournal 1) ∧ r = transact { s with block := b } p :=
    fun ok r hr => ⟨s.block, .reject ok, .refl _, .reject ok, hr⟩
  have hwrite : ∀ b buffer size, Reads s.block b → ∃ b' p, Reads s.block b' ∧
      p.Sound (s.tables.setJournal 1) ∧
      diskfsWriteFile { s with block := b } path buffer size
        = transact { s with block := b' } p := by
    intro b buffer size hb
    obtain ⟨p, hp, heq⟩ := diskfsWriteFile_plan (s := { s with block := b }) h path buffer size
    exact ⟨b, p, hb, hp.sound, heq⟩
  unfold diskfsTruncateFile
  by_cases hmax : size > maxFileSize
  · rw [if_pos hmax]; exact hreject false _ rfl
  · rw [if_neg hmax]
    cases hf : diskfsFindFile s.tables path with
    | none =>
      by_cases h0 : (size == 0) = true
      · rw [if_pos h0]; exact hwrite s.block _ _ (.refl _)
      · rw [if_neg h0]; exact hreject false _ rfl
    | some i =>
      dsimp only
      by_cases heq : (size == (s.tables.inodes i).size) = true
      · rw [if_pos heq]; exact hreject true _ rfl
      · rw [if_neg heq]
        by_cases h0 : (size == 0) = true
        · rw [if_pos h0]; exact hwrite s.block _ _ (.refl _)
        · rw [if_neg h0]
          by_cases hbig : (decide ((s.tables.inodes i).size > readBufferSize) ||
              decide (size > readBufferSize)) = true
          · rw [if_pos hbig]; exact hreject false _ rfl
          · rw [if_neg hbig]
            obtain ⟨b, hread, hb⟩ := diskfsReadIndex_reads s i 0 (s.tables.inodes i).size
            rw [hread]
            exact hwrite b _ _ hb

/-- **Every operation follows a plan**, after reading at most. -/
theorem Op.exec_plan (op : Op) :
    ∃ b p, Reads s.block b ∧ p.Sound (s.tables.setJournal 1) ∧
      op.exec s = transact { s with block := b } p := by
  cases op with
  | write path buffer size =>
    obtain ⟨p, hp, heq⟩ := diskfsWriteFile_plan h path buffer size
    exact ⟨s.block, p, .refl _, hp.sound, heq⟩
  | delete path =>
    rcases diskfsDeleteFile_plan h path with heq | ⟨i, t', w, hc, heq⟩
    · exact ⟨s.block, _, .refl _, .reject false, heq⟩
    · exact ⟨s.block, _, .refl _, .change hc, heq⟩
  | rename oldPath newPath =>
    rcases diskfsRenameFile_plan h oldPath newPath with heq | ⟨i, parent, leaf, t', w, hc, heq⟩
    · exact ⟨s.block, _, .refl _, .reject false, heq⟩
    · exact ⟨s.block, _, .refl _, .change hc, heq⟩
  | truncate path size => exact diskfsTruncateFile_plan h path size

end

/-! ### What a change does -/

/-- The inode a change of the given kind puts into a slot that held `old`. -/
def Kind.Puts (old : Inode) : Kind → Inode → Prop
  | .resize _ size, new => ∃ first, new = old.withExtent first (sectorsForSize size) size
  | .create parent leaf _ size, new => old.type = 0 ∧
      ∃ first, new = newInode (idx32 parent) leaf first (sectorsForSize size) size
  | .remove, new => new = Inode.zero
  | .move parent leaf, new =>
      new = { old with parent := idx32 parent, name := nameOf (leaf.take nameMax) }

/-- The data a change writes. -/
def Kind.data : Kind → Option (Buffer × UInt32)
  | .resize buffer size => some (buffer, size)
  | .create _ _ buffer size => some (buffer, size)
  | .remove => none
  | .move _ _ => none

namespace Change

variable {leak : Set ℕ} {t t' : Tables} {i : Fin 64} {kind : Kind} {w : BlockAction}

section

variable (h : t.Consistent leak) (hc : Change t i kind t' w)
include h hc

/-- **A change is a replacement** of one inode, by the one that its kind says. -/
theorem replaces_puts :
    Replaces t t' i ∧ kind.Puts (t.inodes i) (t'.inodes i) := by
  cases hc with
  | resize hi hsize hr =>
    obtain ⟨hrep, -, first, hin⟩ := resizeFile_replaces h hi hsize hr
    exact ⟨hrep, first, by rw [hin, update_self]⟩
  | create hdir hleaf hnone hsize hn =>
    rcases newFile_cases _ _ h hsize with ⟨j, u, first, hn', hrep, hfree, -, hin⟩ | ⟨u, hn', -⟩
    · rw [hn] at hn'
      obtain ⟨hij, rfl⟩ := Prod.mk.inj hn'
      cases hij
      exact ⟨hrep, hfree, first, by rw [hin, update_self]⟩
    · rw [hn] at hn'
      exact absurd (Prod.mk.inj hn').1 (by simp)
  | remove hi => exact ⟨removeFile_replaces h hi, setInode_self _ _ _⟩
  | move hi hdir hleaf hnone => exact ⟨moveFile_replaces h hi _ _, setInode_self _ _ _⟩

theorem replaces : Replaces t t' i :=
  (hc.replaces_puts h).1

theorem puts :
    kind.Puts (t.inodes i) (t'.inodes i) := (hc.replaces_puts h).2

theorem consistent : t'.Consistent leak :=
  h.replaces (hc.replaces h)

/-- A change that writes data leaves a file of that size. -/
theorem size_of_data {buffer : Buffer} {size : UInt32} (hd : kind.data = some (buffer, size)) :
    t'.IsFile i ∧ (t'.inodes i).size = size ∧ (t'.inodes i).sectorCount = sectorsForSize size := by
  have hrep := hc.replaces h
  have hu : t'.InUse i := (hrep.inUse i).mpr (.inr rfl)
  have hputs := hc.puts h
  cases hc with
  | resize hi hsize hr =>
    cases hd
    obtain ⟨first, hin⟩ := hputs
    unfold Tables.IsFile
    rw [hin]
    exact ⟨⟨hu, hi.2⟩, rfl, rfl⟩
  | create hdir hleaf hnone hsize hn =>
    cases hd
    obtain ⟨-, first, hin⟩ := hputs
    unfold Tables.IsFile
    rw [hin]
    exact ⟨⟨hu, rfl⟩, rfl, rfl⟩
  | remove | move => exact absurd hd (by simp [Kind.data])

end

end Change

/-- The effect of the block writes of a change. -/
structure ChangeEffect (t t' : Tables) (i : Fin 64) (kind : Kind) (w : BlockAction)
    (K : Set UInt32) (g : Disk → Disk) : Prop where
  effect : Effect w K g
  settles : Settles w
  /-- Only metadata and the new extent are written. -/
  sectors : ∀ k ∈ K, k.toNat < 11 ∨ k.toNat ∈ (t'.inodes i).sectors
  mirrors : ∀ D, Mirrors D t → Mirrors (g D) t'
  data : ∀ buffer size, kind.data = some (buffer, size) → ∀ D k, k < size.toNat →
    diskByte (g D) (t'.inodes i).firstSector k = buffer k

theorem writeBitmap_effect (hl : t.superblock.layout = mkfsLayout) :
    Effect (writeBitmap t) {2} (fun D => update D 2 t.bitmap) := by
  unfold writeBitmap
  rw [bitmapStart_of_layout hl]
  exact writeThrough_effect (by decide) _

theorem writeInode_tableEffect (hl : t.superblock.layout = mkfsLayout) (i : Fin 64) :
    Effect (writeInode t i) {tableSector i} (patchInode t i) := by
  have hk : inodeSector t.superblock i < totalSectors := by
    have hi := i.isLt
    rw [inodeSector_of_layout hl, UInt32.lt_iff_toNat_lt, tableSector_toNat]
    change _ < 4096
    omega
  have := writeInode_effect hk
  rwa [inodeSector_of_layout hl] at this

/-- The tables after a replacement, rebuilt from their parts. -/
theorem Replaces.parts {t' : Tables} (h : Replaces t t' i) :
    (⟨t'.superblock, update t.inodes i (t'.inodes i), t'.bitmap⟩ : Tables) = t' := by
  refine Tables.ext rfl (funext fun j => ?_) rfl
  by_cases hj : j = i
  · subst hj; exact update_self _ _ _
  · exact (update_of_ne hj _ _).trans (h.inodes j hj).symm

/-- Writing file data first does not disturb the tables, and the metadata written afterwards does
not disturb the data. -/
theorem ChangeEffect.withData {t' : Tables} {kind : Kind} {w : BlockAction} {K : Set UInt32}
    {g : Disk → Disk} {buffer : Buffer} {size : UInt32} (ht : t'.Consistent leak) (hf : t'.IsFile i)
    (hsize : (t'.inodes i).size = size) (hcount : (t'.inodes i).sectorCount = sectorsForSize size)
    (hd : kind.data = some (buffer, size)) (hw : Effect w K g) (hs : Settles w)
    (hK : ∀ k ∈ K, k.toNat < 11) (hm : ∀ D, Mirrors D t → Mirrors (g D) t') :
    ChangeEffect t t' i kind (andThen (writeFileData (t'.inodes i).firstSector buffer size) w)
      (dataSectors (t'.inodes i).firstSector (sectorsForSize size) ∪ K)
      (g ∘ storeData (t'.inodes i).firstSector buffer size) := by
  obtain ⟨-, hlo, hhi⟩ := ht.file_bounds hf
  have hroom := ht.room i hf
  rw [hcount] at hhi hroom
  rw [hsize] at hroom
  have hmem := mem_dataSectors hhi
  have hdata := writeFileData_effect hhi buffer
  refine ⟨hdata.andThen hw ?_, hs.andThen _, ?_, fun D hD => ?_, ?_⟩
  · refine Set.disjoint_left.mpr fun k hk hk' => ?_
    have h1 := (hmem k).mp hk
    have h2 := hK k hk'
    omega
  · rintro k (hk | hk)
    · refine .inr ⟨hf.2, ?_⟩
      rw [hcount]
      exact (hmem k).mp hk
    · exact .inl (hK k hk)
  · refine hm _ (hD.congr fun r hr _ => hdata.off D r fun hk => ?_)
    have := (hmem r).mp hk
    omega
  · intro buf sz hd'
    obtain ⟨rfl, rfl⟩ := Prod.mk.inj (Option.some.inj (hd.symm.trans hd'))
    intro D k hk
    have hsec : (t'.inodes i).firstSector + UInt32.ofNat (k / 512) ∉ K := by
      intro hk'
      have h1 := hK _ hk'
      rw [Word.toNat_add_ofNat (by omega)] at h1
      omega
    unfold diskByte
    rw [Function.comp_apply, hw.off _ _ hsec]
    exact storeData_get hhi buffer D hk hroom

namespace Change

variable {leak : Set ℕ} {t t' : Tables} {i : Fin 64} {kind : Kind} {w : BlockAction}

/-- The inode and the bitmap written out: the tables on disk become `t'`. -/
theorem metaEffect (hl : t'.superblock.layout = mkfsLayout) (hsb : t'.superblock = t.superblock)
    (hr : Replaces t t' i) :
    ∃ K g, Effect (andThen (writeInode t' i) (writeBitmap t')) K g ∧
      (∀ k ∈ K, k.toNat < 11) ∧ ∀ D, Mirrors D t → Mirrors (g D) t' := by
  have hi := i.isLt
  refine ⟨_, _, (writeInode_tableEffect hl i).andThen (writeBitmap_effect hl) ?_, ?_,
    fun D hD => ?_⟩
  · rw [Set.disjoint_singleton]
    exact tableSector_ne (by decide)
  · rintro k (rfl | rfl)
    · rw [tableSector_toNat]; omega
    · decide
  · have hparts : (⟨t.superblock, update t.inodes i (t'.inodes i), t'.bitmap⟩ : Tables)
        = t' := by rw [← hsb]; exact hr.parts
    exact ((hD.inode_write hl i).bitmap_write t'.bitmap).of_eq hparts

/-- **The block writes of a change** bring the tables on disk, and the data, to where the change
took the tables in memory. -/
theorem effect (h : t.Consistent leak) (hc : Change t i kind t' w) :
    ∃ K g, ChangeEffect t t' i kind w K g := by
  have hr := hc.replaces h
  have ht := h.replaces hr
  have hi := i.isLt
  have hdata := @hc.size_of_data leak _ _ _ _ _ h
  cases hc with
  | @resize _ buffer size hi hsize hres =>
    obtain ⟨hf, hsz, hcount⟩ := hdata rfl
    obtain ⟨-, hsb, -⟩ := resizeFile_replaces h hi hsize hres
    obtain ⟨K, g, hw, hK, hm⟩ := metaEffect ht.layout hsb hr
    exact ⟨_, _, ChangeEffect.withData ht hf hsz hcount rfl hw
      ((writeThrough_settles _ _).andThen _) hK hm⟩
  | @create _ parent leaf buffer size hdir hleaf hnone hsize hn =>
    obtain ⟨hf, hsz, hcount⟩ := hdata rfl
    -- inode, superblock and bitmap are in different sectors
    have hw := (writeInode_tableEffect ht.layout i).andThen
      ((writeSuperblock_effect t').andThen (writeBitmap_effect ht.layout) (by simp))
      (by
        rw [Set.disjoint_union_right, Set.disjoint_singleton, Set.disjoint_singleton]
        exact ⟨tableSector_ne (by decide), tableSector_ne (by decide)⟩)
    refine ⟨_, _, ChangeEffect.withData ht hf hsz hcount rfl hw
      (((writeThrough_settles _ _).andThen _).andThen _) ?_ fun D hD => ?_⟩
    · rintro k (rfl | rfl | rfl)
      · rw [tableSector_toNat]; omega
      · decide
      · decide
    · exact (((hD.inode_write ht.layout i).superblock_write t'.superblock).bitmap_write
        t'.bitmap).of_eq hr.parts
  | remove hi =>
    obtain ⟨K, g, hw, hK, hm⟩ := metaEffect (t := t) ht.layout rfl hr
    exact ⟨K, g, hw, (writeThrough_settles _ _).andThen _, fun k hk => .inl (hK k hk), hm,
      fun _ _ hd => absurd hd (by simp [Kind.data])⟩
  | move hi hdir hleaf hnone =>
    refine ⟨_, _, writeInode_tableEffect ht.layout i, writeInode_settles _ _, ?_, fun D hD => ?_,
      fun _ _ hd => absurd hd (by simp [Kind.data])⟩
    · rintro k rfl
      rw [tableSector_toNat]
      left
      omega
    · exact (hD.inode_write ht.layout i).of_eq hr.parts

end Change

end MyOS.Diskfs
