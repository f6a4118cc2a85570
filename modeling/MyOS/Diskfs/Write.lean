import MyOS.Diskfs.Image

/-!
# What a successful write does

A `diskfs_write_file` that answers `true` is one completed change: it overwrites the file it found
under the leaf name or fills a free slot (`write_true`), and no sector of another file is touched
(`transact_disk`). So, after any run on a mounted image, it affects one slot, which then reads back
as the written data (`write_affects_one`).
-/

namespace MyOS.Diskfs

open BlockCache

/-! ### Reading files in good states -/

variable {leak : Set ℕ} {i : Fin 64} {size : UInt32}

/-- The sector that holds a byte of a live file belongs to its extent. -/
theorem Tables.Consistent.byte_sector {t : Tables} (h : t.Consistent leak) (hi : t.IsFile i) {k : ℕ}
    (hk : k < (t.inodes i).size.toNat) :
    ((t.inodes i).firstSector + UInt32.ofNat (k / 512)).toNat ∈ t.extent i := by
  obtain ⟨-, hlo, hhi⟩ := h.file_bounds hi
  have hroom := h.room i hi
  rw [Word.toNat_add_ofNat (by omega), hi.mem_extent]
  omega

/-- The file in slot `j` is a file in both states, and reads the same. -/
structure SameFile (s s' : Fs) (j : Fin 64) : Prop where
  isFile : s'.tables.IsFile j
  size : (s'.tables.inodes j).size = (s.tables.inodes j).size
  reads : ∀ offset len, (diskfsReadIndex s' j offset len).1 = (diskfsReadIndex s j offset len).1

section Reading

variable {leak leak' : Set ℕ} {s s' : Fs} {i j : Fin 64}

/-- A file whose bytes are those of a buffer reads as that buffer. -/
theorem Good.reads_buffer (h : Good leak s) (hi : s.tables.IsFile i) {size : UInt32}
    (hsize : (s.tables.inodes i).size = size) {buf : Buffer}
    (hbytes : ∀ k < size.toNat, s.byte i k = buf k) (offset len : UInt32) :
    (diskfsReadIndex s i offset len).1
      = (true, slice buf offset.toNat (min len.toNat (size.toNat - offset.toNat))) := by
  rw [diskfsReadIndex_eq h.available h.ok h.reliable h.consistent hi, hsize]
  refine Prod.ext rfl (slice_congr fun k hk => hbytes _ ?_)
  omega

/-- A file that keeps its inode and its bytes reads the same. -/
theorem Good.sameFile (h : Good leak s) (h' : Good leak' s') (hj : s.tables.IsFile j)
    (hj' : s'.tables.IsFile j) (hino : s'.tables.inodes j = s.tables.inodes j)
    (hbytes : ∀ k < (s.tables.inodes j).size.toNat, s'.byte j k = s.byte j k) :
    SameFile s s' j := by
  have hsize : (s'.tables.inodes j).size = (s.tables.inodes j).size := congrArg Inode.size hino
  refine ⟨hj', hsize, fun offset len => ?_⟩
  rw [h'.reads_buffer hj' hsize hbytes, h.reads_buffer hj rfl fun _ _ => rfl]

end Reading

/-! ### One change -/

section Change

variable {leak : Set ℕ} {s : Fs} {i : Fin 64} {kind : Kind} {t' : Tables} {w : BlockAction}

/-- **The disk after a change**: the metadata and the new extent of the slot may differ, no other
sector does, and the extent holds the data of the change. -/
structure Changed (s s' : Fs) (t' : Tables) (i : Fin 64) (kind : Kind) : Prop where
  tables : s'.tables = t'.setJournal 0
  sectors : ∀ k : UInt32, 11 ≤ k.toNat → k.toNat ∉ (t'.inodes i).sectors →
    s'.block.logical k = s.block.logical k
  data : ∀ buffer size, kind.data = some (buffer, size) → ∀ k < size.toNat, s'.byte i k = buffer k

theorem transact_disk_true (hb : s.block.Ok) (h : s.tables.Consistent leak)
    (hc : Change (s.tables.setJournal 1) i kind t' w) (hok : (transact s (.change t' w)).1 = true) :
    ∃ s', transact s (.change t' w) = (true, s') ∧ Changed s s' t' i kind := by
  obtain ⟨b1, b2, b3, K, g, heq, hlog1, hlog2, hlog3, he⟩ := transact_change_true hb h hc hok
  have hcons : t'.Consistent leak := hc.consistent (h.setJournal 1)
  refine ⟨_, heq, rfl, fun k hk hnot => ?_, fun buffer size hd k hk => ?_⟩
  · -- the journal writes stay below sector 2, the body inside `K`
    have hK : k ∉ K := by
      intro hmem
      rcases he.sectors k hmem with hlow | hext
      · omega
      · exact hnot hext
    calc b3.logical k = b2.logical k := by rw [hlog3, storeJournal_of_ge (by omega)]
      _ = b1.logical k := by rw [hlog2, he.effect.off _ _ hK]
      _ = s.block.logical k := by rw [hlog1, storeJournal_of_ge (by omega)]
  · obtain ⟨hf, hsize, -⟩ := hc.size_of_data (h.setJournal 1) hd
    have hext := hcons.byte_sector hf (hsize.symm ▸ hk)
    have hlow := (hcons.alloc.bounds i hext).1
    rw [hcons.data_toNat] at hlow
    -- the commit leaves the extent alone
    have hcommit : diskByte b3.logical (t'.inodes i).firstSector k
        = diskByte b2.logical (t'.inodes i).firstSector k := by
      unfold diskByte
      rw [hlog3, storeJournal_of_ge (by omega)]
    change diskByte b3.logical (t'.inodes i).firstSector k = buffer k
    rw [hcommit, hlog2]
    exact he.data buffer size hd _ k hk

/-- The disk after a change, on a drive that never fails. -/
theorem transact_disk (h : Good leak s) (hc : Change (s.tables.setJournal 1) i kind t' w) :
    ∃ s', transact s (.change t' w) = (true, s') ∧ Changed s s' t' i kind := by
  obtain ⟨b1, b2, b3, K, g, heq, -⟩ := transact_change h hc
  exact transact_disk_true h.ok h.consistent hc (congrArg Prod.fst heq)

/-- A change keeps the bytes of every other file, on any drive. -/
theorem Changed.byte {s' : Fs} (hd : Changed s s' t' i kind) (h : s.tables.Consistent leak)
    (hc : Change (s.tables.setJournal 1) i kind t' w) {j : Fin 64} (hji : j ≠ i)
    (hj : s.tables.IsFile j) {k : ℕ} (hk : k < (s.tables.inodes j).size.toNat) :
    s'.byte j k = s.byte j k := by
  have hrep := hc.replaces (h.setJournal 1)
  have hcons : t'.Consistent leak := hc.consistent (h.setJournal 1)
  have hino : s'.tables.inodes j = s.tables.inodes j := by
    rw [hd.tables]
    exact hrep.inodes j hji
  -- the sector of the byte is in the extent of `j`, so not in the new one of `i`
  have hext := h.byte_sector hj hk
  have hlow := (h.alloc.bounds j hext).1
  rw [h.data_toNat] at hlow
  have hnot : ((s.tables.inodes j).firstSector + UInt32.ofNat (k / 512)).toNat ∉
      (t'.inodes i).sectors := by
    intro hi
    have hext' : ((s.tables.inodes j).firstSector + UInt32.ofNat (k / 512)).toNat ∈
        t'.extent j := by
      rw [hrep.extent_eq, Function.update_of_ne hji]
      exact hext
    exact Set.disjoint_left.mp (hcons.alloc.disjoint i j hji.symm)
      ⟨(hrep.inUse i).mpr (.inr rfl), hi⟩ hext'
  unfold Fs.byte diskByte
  rw [hino, hd.sectors _ hlow hnot]

/-- **A change keeps every other file.** -/
theorem transact_sameFile (h : Good leak s)
    (hc : Change (s.tables.setJournal 1) i kind t' w) {j : Fin 64} (hji : j ≠ i)
    (hj : s.tables.IsFile j) : SameFile s (transact s (.change t' w)).2 j := by
  have hgood : Good leak (transact s (.change t' w)).2 := h.transact (.change hc)
  obtain ⟨s', heq, hd⟩ := transact_disk h hc
  have ht' := hd.tables
  rw [heq] at hgood ⊢
  have hrep := hc.replaces (h.consistent.setJournal 1)
  have hino : s'.tables.inodes j = s.tables.inodes j := by
    rw [ht']
    exact hrep.inodes j hji
  have hj' : s'.tables.IsFile j := by
    rw [ht']
    exact (hrep.isFile_iff hji).mpr hj
  exact h.sameFile hgood hj hj' hino fun k hk => hd.byte h.consistent hc hji hj hk

end Change

/-! ### Successful writes -/

/-- The change a successful write makes: an overwrite of the file found under the leaf name, or a
creation. -/
inductive WriteKind (t : Tables) (parent : Fin 64) (leaf : List UInt8) (buf : Buffer)
    (size : UInt32) (i : Fin 64) : Kind → Prop
  | overwrite (h : findChild t (idx32 parent) leaf typeFile = some i) :
      WriteKind t parent leaf buf size i (.resize buf size)
  | create : WriteKind t parent leaf buf size i (.create parent leaf buf size)

theorem WriteKind.data {t : Tables} {parent : Fin 64} {leaf : List UInt8} {buf : Buffer}
    {kind : Kind} (h : WriteKind t parent leaf buf size i kind) :
    kind.data = some (buf, size) := by
  cases h <;> rfl

/-- **A successful write is a change.** -/
theorem write_true {s : Fs} (h : s.tables.Consistent leak) {path : Option CString}
    {buffer : Option Buffer} (hok : (diskfsWriteFile s path buffer size).1 = true) :
    ∃ p buf parent leaf i kind t' w, WriteArgs s path buffer size p buf parent leaf ∧
      WriteKind s.tables parent leaf buf size i kind ∧
      Change (s.tables.setJournal 1) i kind t' w ∧
      diskfsWriteFile s path buffer size = transact s (.change t' w) := by
  obtain ⟨plan, hplan, heq⟩ := diskfsWriteFile_plan h path buffer size
  rw [heq] at hok
  cases hplan with
  | reject => cases hok
  | noRoom => exact nomatch hok.symm.trans (transact_noRoom_false s _)
  | overwrite hargs _ hchild hc =>
    exact ⟨_, _, _, _, _, _, _, _, hargs, .overwrite hchild, hc, heq⟩
  | create hargs _ hc => exact ⟨_, _, _, _, _, _, _, _, hargs, .create, hc, heq⟩

/-- The write of `buf` under `path` took `s` to `s'` and affected the slot `i` alone. -/
structure WritesOne (s s' : Fs) (path : CString) (buf : Buffer) (size : UInt32) (i : Fin 64) :
    Prop where
  /-- The slot is the file found under the leaf name, or a free one. -/
  target : ∃ parent leaf, ensureParentDir s.tables path = some (parent, leaf) ∧
    (findChild s.tables (idx32 parent) leaf typeFile = some i ∨
      (findChild s.tables (idx32 parent) leaf typeFile = none ∧ (s.tables.inodes i).type = 0))
  inodes : ∀ j, j ≠ i → s'.tables.inodes j = s.tables.inodes j
  isFile : s'.tables.IsFile i
  length : (s'.tables.inodes i).size = size
  data : ∀ offset len, (diskfsReadIndex s' i offset len).1
    = (true, slice buf offset.toNat (min len.toNat (size.toNat - offset.toNat)))
  others : ∀ j, j ≠ i → s.tables.IsFile j → SameFile s s' j

/-- **A successful write affects one slot.** -/
theorem transact_writesOne {s : Fs} (h : Good leak s) {path : CString} {buf : Buffer}
    {parent : Fin 64} {leaf : List UInt8} {kind : Kind} {t' : Tables} {w : BlockAction}
    (hargs : WriteArgs s (some path) (some buf) size path buf parent leaf)
    (hkind : WriteKind s.tables parent leaf buf size i kind)
    (hc : Change (s.tables.setJournal 1) i kind t' w) :
    WritesOne s (transact s (.change t' w)).2 path buf size i := by
  have hgood : Good leak (transact s (.change t' w)).2 := h.transact (.change hc)
  have hothers := fun j => transact_sameFile h hc (j := j)
  have hrep := hc.replaces (h.consistent.setJournal 1)
  have hputs := hc.puts (h.consistent.setJournal 1)
  obtain ⟨hf, hsize, -⟩ := hc.size_of_data (h.consistent.setJournal 1) hkind.data
  obtain ⟨s', heq, ht', -, hdata⟩ := transact_disk h hc
  rw [heq] at hgood hothers ⊢
  refine ⟨⟨parent, leaf, (ensureParentDir_eq_some_iff _ _ _ _).mpr hargs.parentAt, ?_⟩, ?_, ?_,
    ?_, ?_, hothers⟩
  · cases hkind with
    | overwrite hchild => exact .inl hchild
    | create =>
      cases hc with
      | create hdir hleaf hnone hsz hn =>
        exact .inr ⟨hnone, hputs.1⟩
  · intro j hj
    rw [ht']
    exact hrep.inodes j hj
  · rw [ht']
    exact hf
  · rw [ht']
    exact hsize
  · have hf' : s'.tables.IsFile i := by rw [ht']; exact hf
    have hsize' : (s'.tables.inodes i).size = size := by rw [ht']; exact hsize
    exact hgood.reads_buffer hf' hsize' (hdata buf size hkind.data)

/-- **A write that succeeds affects exactly one file**, after any run on a mounted image. -/
theorem write_affects_one {s0 : Fs} (h0 : MountedImage s0) (hr : s0.block.Reliable)
    (ops : List Op) (path : Option CString) (buffer : Option Buffer) (size : UInt32)
    (hok : (diskfsWriteFile (run s0 ops) path buffer size).1 = true) :
    ∃ p buf i, path = some p ∧ buffer = some buf ∧
      WritesOne (run s0 ops) (diskfsWriteFile (run s0 ops) path buffer size).2 p buf size i := by
  have hgood := (h0.good hr).run ops
  obtain ⟨p, buf, parent, leaf, i, kind, t', w, hargs, hkind, hc, heq⟩ :=
    write_true hgood.consistent hok
  obtain rfl := hargs.path
  obtain rfl := hargs.buffer
  refine ⟨p, buf, i, rfl, rfl, ?_⟩
  rw [heq]
  exact transact_writesOne hgood hargs hkind hc

/-- The file `/etc/motd` grows by a sector, after it was deleted and written again. -/
theorem write_affects_one_motd :
    ∃ p buf i, some motdPath = some p ∧ some (fun _ => 7 : Buffer) = some buf ∧
      WritesOne (run motdFs [.delete (some motdPath), .write (some motdPath) (some fun _ => 5) 9])
        (diskfsWriteFile (run motdFs [.delete (some motdPath),
          .write (some motdPath) (some fun _ => 5) 9]) (some motdPath) (some fun _ => 7) 600).2
        p buf 600 i :=
  write_affects_one motd_mounted motd_reliable _ _ _ _ (by decide +kernel)

end MyOS.Diskfs
