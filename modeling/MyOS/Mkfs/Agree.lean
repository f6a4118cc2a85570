import MyOS.Diskfs.Reboot

/-!
# The builder and the kernel agree

`mkfs.py` encodes a dictionary of files and `diskfs.c` decodes the image. For a dictionary of
normalized paths the two agree on everything (`mount_agrees`): the mount accepts the image,
`diskfs_fsck` finds no error in it, and every path of the dictionary leads to a file with its data.

The names that `pack_inode` stores are the components that `path_part` cuts out of the path
(`NormalPath.pathParts_eq`), labels are unique, so walking along one ends where it should
(`built_fileAt`), and the bytes of a file lie in its extent (`holdsImage_byte`).
-/

namespace MyOS.Mkfs

open Diskfs List

/-! ### Text and bytes -/

/-- The bytes of a text, one for each character. -/
def textBytes (text : List Char) : List UInt8 := text.map (fun c => UInt8.ofNat c.toNat)

/-- The text that has the given bytes. -/
def bytesText (bytes : List UInt8) : List Char := bytes.map (fun u => Char.ofNat u.toNat)

theorem bytesText_textBytes {text : List Char} (h : ∀ x ∈ text, x.toNat < 128) :
    bytesText (textBytes text) = text := by
  unfold bytesText textBytes
  rw [map_map]
  refine (map_congr_left fun x hx => ?_).trans (map_id text)
  have hlt := h x hx
  rw [Function.comp_apply, UInt8.toNat_ofNat', Nat.mod_eq_of_lt (by omega), Char.ofNat_toNat]
  rfl

/-- A character whose code is not in the text is not among its bytes either. -/
theorem not_mem_textBytes {text : List Char} (h : ∀ x ∈ text, x.toNat < 128) {u : UInt8}
    (hu : ∀ x ∈ text, x.toNat ≠ u.toNat) : u ∉ textBytes text := by
  intro hmem
  obtain ⟨x, hx, rfl⟩ := mem_map.mp hmem
  have hlt := h x hx
  refine hu x hx ?_
  rw [UInt8.toNat_ofNat', Nat.mod_eq_of_lt (by omega)]

/-- What a component has to be for the kernel to store and find it. -/
structure NameOk (name : List Char) : Prop where
  ne_nil : name ≠ []
  length : name.length ≤ 30
  slash_free : '/' ∉ name
  ascii : ∀ x ∈ name, x.toNat ≠ 0 ∧ x.toNat < 128

theorem NormalPath.nameOk {path name : List Char} (hp : NormalPath path)
    (hn : name ∈ splitPath path) : NameOk name where
  ne_nil := ne_nil_of_mem_components hn
  length := hp.length name hn
  slash_free := (mem_components hn).1
  ascii := fun x hx => hp.ascii x ((mem_components hn).2 x hx)

namespace NameOk

variable {name : List Char} (h : NameOk name)
include h

/-- Its bytes are a name that `path_part` can deliver. -/
theorem leafOk : LeafOk (textBytes name) where
  ne_nil := by
    have := h.ne_nil
    simpa [textBytes] using this
  length := by
    have := h.length
    unfold nameMax textBytes
    rw [length_map]
    omega
  slash_free := by
    refine not_mem_textBytes (fun x hx => (h.ascii x hx).2) fun x hx heq => ?_
    have hslash : x = '/' := by
      rw [← Char.ofNat_toNat x, heq]
      rfl
    exact h.slash_free (hslash ▸ hx)
  nul_free := not_mem_textBytes (fun x hx => (h.ascii x hx).2) fun x hx => (h.ascii x hx).1

/-- The inode holds the whole name. -/
theorem nameBytes_eq : nameBytes name = textBytes name := by
  have := h.length
  refine take_of_length_le ?_
  rw [length_map]
  omega

theorem cstr_eq : cstr (nameOf (nameBytes name)) = textBytes name := by
  have hlen := h.leafOk.length
  unfold nameMax at hlen
  rw [h.nameBytes_eq]
  exact cstr_nameOf (by omega) h.leafOk.nul_free

/-- `inode_name_valid` accepts it. -/
theorem inodeNameValid : inodeNameValid (nameOf (nameBytes name)).get = true := by
  have hvalid := h.leafOk.inodeNameValid
  rwa [take_of_length_le h.leafOk.length.le, ← h.nameBytes_eq] at hvalid

end NameOk

/-- A normalized path, as a C string. -/
def NormalPath.cstring {path : List Char} (hp : NormalPath path) : CString :=
  ⟨textBytes path, not_mem_textBytes (fun x hx => (hp.ascii x hx).2) fun x hx => (hp.ascii x hx).1⟩

theorem textBytes_joinPath (parts : List (List Char)) :
    textBytes (joinPath parts) = (parts.map textBytes).flatMap (fun c => slash :: c) := by
  unfold textBytes joinPath
  rw [map_flatMap, flatMap_map]
  rfl

/-- **`path_part` cuts a normalized path into the names that `pack_inode` stores.** -/
theorem NormalPath.pathParts_eq {path : List Char} (hp : NormalPath path) :
    pathParts hp.cstring.bytes = (splitPath path).map textBytes := by
  have hparts : ∀ c ∈ (splitPath path).map textBytes, LeafOk c := by
    intro c hc
    obtain ⟨name, hn, rfl⟩ := mem_map.mp hc
    exact (hp.nameOk hn).leafOk
  have hcs : components slash (textBytes path) = (splitPath path).map textBytes := by
    have hflat := components_flatMap fun c hc => ⟨(hparts c hc).slash_free, (hparts c hc).ne_nil⟩
    rwa [← textBytes_joinPath, ← hp.absolute] at hflat
  change (components slash (textBytes path)).takeWhile _ = _
  rw [hcs, takeWhile_eq_self_iff]
  intro c hc
  exact decide_eq_true (hparts c hc).length

/-! ### The tables of a dictionary -/

section Built

variable {files : List (List Char × List UInt8)} {b : Builder} (hf : NormalFiles files) (h : b.Ok)
  (hn : b.Named (filePaths files) (files.mergeSort pathLe).reverse) {f : List Char × List UInt8}

theorem mem_reverse_mergeSort :
    f ∈ (files.mergeSort pathLe).reverse ↔ f ∈ files := by
  rw [mem_reverse, (mergeSort_perm files pathLe).mem_iff]

include hf h hn

/-- Every component of a label is a good name. -/
theorem built_nameOk {k : ℕ} (hk : k < b.inodes.length) {name : List Char}
    (hname : name ∈ b.label k) : NameOk name := by
  have hdone : ∀ f ∈ (files.mergeSort pathLe).reverse, splitPath f.1 ∈ filePaths files :=
    fun f hfm => ⟨f, mem_reverse_mergeSort.mp hfm, rfl⟩
  obtain ⟨P, ⟨f, hfm, rfl⟩, hP⟩ := hn.mem_label h hdone hk hname
  exact (hf.normal f hfm).nameOk hP

/-- The labels of the tables are those of the builder, in bytes. -/
theorem builtLabel_eq {i : Fin 64} (hi : i.val < b.inodes.length) :
    builtLabel b i = (b.label i.val).map textBytes :=
  map_congr_left fun _ hname => (built_nameOk hf h hn hi hname).cstr_eq

/-- They are unique. -/
theorem builtLabel_inj {i j : Fin 64} (hi : i.val < b.inodes.length)
    (hj : j.val < b.inodes.length) (heq : builtLabel b i = builtLabel b j) : i = j := by
  have hback : ∀ k < b.inodes.length, ((b.label k).map textBytes).map bytesText = b.label k := by
    intro k hk
    rw [map_map]
    refine (map_congr_left fun name hname => ?_).trans (map_id _)
    exact bytesText_textBytes fun x hx => ((built_nameOk hf h hn hk hname).ascii x hx).2
  rw [builtLabel_eq hf h hn hi, builtLabel_eq hf h hn hj] at heq
  have hlabel := congrArg (List.map bytesText) heq
  rw [hback _ hi, hback _ hj] at hlabel
  exact Fin.ext (hn.inj _ _ hi hj hlabel)

/-- Every slot but the root has a good name. -/
theorem built_name {i : Fin 64} (hi : (builtTables b).InUse i) (hroot : i ≠ rootInode) :
    ∃ node : Node, b.inodes[i.val]? = some node ∧ node.parent < i.val ∧ NameOk node.name ∧
      (builtTables b).inodes i = nodeInode node := by
  obtain ⟨node, hnode, hin⟩ := built_node h hi
  obtain ⟨hlt, -⟩ := h.parent i.val node hnode fun h0 => hroot (Fin.ext h0)
  refine ⟨node, hnode, hlt, built_nameOk hf h hn (lt_length_of_getElem? hnode) ?_, hin⟩
  rw [Builder.label_child hnode hlt]
  simp

/-- **The mount accepts the tables.** -/
theorem builtTables_validated : Validated (builtTables b) := by
  refine (builtTables_consistent h).validated ⟨_, builtTables_tree h⟩ fun i hu _ hroot => ?_
  obtain ⟨node, -, -, hname, hin⟩ := built_name hf h hn hu hroot
  rw [hin]
  exact hname.inodeNameValid

/-- **A path of the dictionary leads to its file.** -/
theorem built_fileAt (hfm : f ∈ files) :
    ∃ (i : Fin 64) (node : Node), b.Stores f i.val node ∧
      FileAt (builtTables b) (pathParts (hf.normal f hfm).cstring.bytes) i := by
  obtain ⟨k, node, hs⟩ := hn.stored f (mem_reverse_mergeSort.mpr hfm)
  have hk := lt_length_of_getElem? hs.file.1
  have hle := h.count_le
  have hlive : ∀ i : Fin 64, (builtTables b).InUse i → i.val < b.inodes.length :=
    fun i hi => (built_inUse_iff h i).mp hi
  refine ⟨⟨k, by omega⟩, node, hs, ?_, ?_⟩
  · have hlabel : pathParts (hf.normal f hfm).cstring.bytes = builtLabel b ⟨k, by omega⟩ := by
      rw [(hf.normal f hfm).pathParts_eq, builtLabel_eq hf h hn (i := ⟨k, by omega⟩) hk, hs.label]
    rw [hlabel]
    refine (builtTables_tree h).walk_of_label ?_ ?_ ((built_inUse_iff h _).mpr hk) ?_
    · intro i j hi _ hj _ heq
      exact builtLabel_inj hf h hn (hlive i hi) (hlive j hj) heq
    · intro i hi _ hroot
      obtain ⟨m, -, -, hname, hin⟩ := built_name hf h hn hi hroot
      rw [hin]
      change cstr (nameOf (nameBytes m.name)) ≠ []
      rw [hname.cstr_eq]
      exact hname.leafOk.ne_nil
    · rw [builtTables_inode (i := ⟨k, by omega⟩) hs.file.1]
      change node.type ≠ 0
      rw [hs.file.2]
      decide
  · rw [builtTables_inode (i := ⟨k, by omega⟩) hs.file.1]
    exact hs.file.2

end Built

/-! ### The mounted image -/

/-- The path leads to a file that has the given content. -/
def ReadsAs (s : Fs) (path : CString) (data : List UInt8) : Prop :=
  ∃ i, diskfsFindFile s.tables (some path) = some i ∧ s.tables.IsFile i ∧
    (s.tables.inodes i).size.toNat = data.length ∧
    (diskfsReadIndex s i 0 (s.tables.inodes i).size).1 = (true, data)

section Mounted

variable {files : List (List Char × List UInt8)} {image : ℕ → UInt8} {s0 : Fs} {start : UInt32}

/-- A byte of the image, through the block layer of a drive that holds it. -/
theorem holdsImage_byte (himg : HoldsImage files image s0 start) {first : UInt32} {j : ℕ}
    (hlt : first.toNat + j / 512 < 4096) :
    diskByte (remount s0.block start).onDisk first j = image (first.toNat * 512 + j) := by
  have hsector : (first + UInt32.ofNat (j / 512)).toNat = first.toNat + j / 512 :=
    Word.toNat_add_ofNat (by omega)
  have hr : first + UInt32.ofNat (j / 512) < totalSectors := by
    rw [UInt32.lt_iff_toNat_lt, hsector]
    exact hlt
  calc diskByte (remount s0.block start).onDisk first j
      = (imageSector image (first + UInt32.ofNat (j / 512))).get (j % 512) :=
        congrArg (fun sector : Sector => sector.get (j % 512)) (himg.sectors _ hr)
    _ = image ((first + UInt32.ofNat (j / 512)).toNat * 512 + j % 512) := by
        unfold imageSector
        rw [Bytes.get_ofFun (Nat.mod_lt j (by omega))]
    _ = image (first.toNat * 512 + j) := by
        rw [hsector]
        exact congrArg image (by omega)

/-- **The builder and the kernel agree on the format.** For a dictionary of normalized paths, none
a proper prefix of another, for which `mkfs.py` completes, the image mounts on a drive that never
fails, `diskfs_fsck` returns 0, and every path leads to a file with its data. -/
theorem mount_agrees (hf : NormalFiles files) (himg : HoldsImage files image s0 start)
    (hr : s0.block.Reliable) :
    (diskfsInitialize s0 start).1.available = true ∧
    (∀ reportSize, (diskfsFsck (diskfsInitialize s0 start).1 reportSize).1 = 0) ∧
    ∀ f (hfm : f ∈ files), ReadsAs (diskfsInitialize s0 start).1 (hf.normal f hfm).cstring f.2 := by
  obtain ⟨b, hadd, hok, hdata, hm⟩ := himg.mirrors
  have hn := hf.named himg.nodup hadd
  have hcons := builtTables_consistent hok
  have hvalid := (diskfsValidate_iff _).mpr (builtTables_validated hf hok hn)
  have havail := (mount_available_iff hr hm hcons.layout).mpr hvalid
  have hgood := Good.of_mount hr hm hcons rfl havail
  obtain ⟨b', heq, hb'⟩ := mount_clean hm hcons.layout rfl havail
  have hlogical : b'.logical = (remount s0.block start).onDisk := by
    rw [Moves.logical_eq hb'.moves (remount_ok _ _), remount_logical]
  rw [heq] at hgood ⊢
  refine ⟨rfl, fun reportSize => diskfsFsck_eq_zero rfl hcons reportSize, fun f hfm => ?_⟩
  obtain ⟨i, node, hs, hat⟩ := built_fileAt hf hok hn hfm
  have hin : (builtTables b).inodes i = nodeInode node := builtTables_inode hs.file.1
  obtain ⟨hfirst, -, hsize, hroom, -⟩ := fileNode_fields hok hs.file
  obtain ⟨-, hlo, hhi⟩ := hok.file _ _ hs.file
  have hle := hok.next_le
  have hfile : (builtTables b).IsFile i :=
    ⟨(built_inUse_iff hok i).mpr (lt_length_of_getElem? hs.file.1), hat.2⟩
  have hlen : ((builtTables b).inodes i).size.toNat = f.2.length := by
    rw [hin, hsize, hs.size]
  refine ⟨i, (diskfsFindFile_eq_some_iff _ _ _).mpr (.inl hat), hfile, hlen, ?_⟩
  -- the bytes of the extent are the ones the builder put there
  have hbytes : ∀ j < ((builtTables b).inodes i).size.toNat,
      diskByte b'.logical ((builtTables b).inodes i).firstSector j = f.2.getD j 0 := by
    intro j hj
    rw [hlen] at hj
    have hjsize : j < node.size := hs.size ▸ hj
    rw [hlogical, hin, holdsImage_byte himg (by omega), hfirst, hdata _ (by omega), hs.data j hj]
  rw [hgood.reads_buffer hfile rfl hbytes, UInt32.toNat_zero, Nat.sub_zero, min_self, hlen,
    slice_getD_self]

end Mounted

/-- A dictionary with one file. -/
theorem NormalFiles.single {path : List Char} {data : List UInt8}
    (habsolute : path = joinPath (splitPath path)) (hne : splitPath path ≠ [])
    (hlength : ∀ c ∈ splitPath path, c.length ≤ 30)
    (hascii : path.all (fun x => x.toNat != 0 && decide (x.toNat < 128)) = true) :
    NormalFiles [(path, data)] := by
  have h : NormalPath path := ⟨habsolute, hne, hlength, by simpa using hascii⟩
  refine ⟨fun f hf => mem_singleton.mp hf ▸ h, fun f hf g hg _ => ?_⟩
  rw [mem_singleton.mp hf, mem_singleton.mp hg]

theorem motd_normalFiles : NormalFiles motdFiles :=
  .single (by decide) (by decide) (by decide) (by decide)

/-- The small image. -/
theorem mount_agrees_motd : motdFs.available = true ∧
    (∀ reportSize, (diskfsFsck motdFs reportSize).1 = 0) ∧
    ∀ f (hfm : f ∈ motdFiles), ReadsAs motdFs (motd_normalFiles.normal f hfm).cstring f.2 :=
  mount_agrees motd_normalFiles (motd_holdsImage fun _ => .done) fun _ => rfl

end MyOS.Mkfs
