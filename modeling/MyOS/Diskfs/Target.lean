import MyOS.Diskfs.Atomic
import MyOS.Diskfs.ReadBack
import MyOS.Mkfs.Listing

/-!
# Where a write goes

A path that leads to a file under its own components leads the write to the same slot
(`FileAt.parent`); the cut copy that `diskfs_find_file` tries for a long relative path need not, as
`diskfs_write_file` never looks at it. A successful write has one slot, on any drive: the file that
the last component names in the directory of the path, or a free slot (`Sane.write_slot`). So who
reads a file under one path and writes it back under another finds the text in the file exactly if
both paths have the same components (`saves_iff`), but for a text that the two files held already.
-/

namespace MyOS.Diskfs

open List

/-- The content of the file in slot `i`. -/
def Fs.content (s : Fs) (i : Fin 64) : List UInt8 :=
  slice (s.byte i) 0 (s.tables.inodes i).size.toNat

/-! ### The write goes to the file that was found -/

section Parent

variable {t : Tables} {label : Fin 64 → List (List UInt8)}

/-- The first child of a name is the first of its own type. -/
theorem findChild_typed {P : UInt32} {c : List UInt8} (hc : (0 : UInt8) ∉ c) {x : Fin 64}
    (h : findChild t P c 0 = some x) {ty : UInt8} (hty : (t.inodes x).type = ty) :
    findChild t P c ty = some x := by
  obtain ⟨hx, hmin⟩ := (findChild_eq_some_iff hc).mp h
  refine (findChild_eq_some_iff hc).mpr
    ⟨⟨hx.inUse, hx.live, hx.parent, .inr hty, hx.name⟩, fun j hj hchild => ?_⟩
  exact hmin j hj ⟨hchild.inUse, hchild.live, hchild.parent, .inl rfl, hchild.name⟩

/-- A walk to a directory passes directories only, so the typed walk goes the same way. -/
theorem Tree.walk_typeDir (ht : Tree t label) {cs : List (List UInt8)} (hcs : ∀ c ∈ cs, LeafOk c)
    {cur d : Fin 64} (hd : t.IsDir d) (hw : walk t 0 cur cs = some d) :
    walk t typeDir cur cs = some d := by
  induction cs generalizing cur with
  | nil => exact hw
  | cons c cs ih =>
    have hcs' : ∀ d ∈ cs, LeafOk d := fun d hd => hcs d (mem_cons_of_mem _ hd)
    obtain ⟨child, hchild, hrest⟩ := Option.bind_eq_some_iff.mp hw
    have hdir : t.IsDir child := by
      cases cs with
      | nil => rw [Option.some.inj hrest]; exact hd
      | cons c' cs =>
        -- the walk goes on, and only a directory has children
        obtain ⟨grandchild, hgrand, -⟩ := Option.bind_eq_some_iff.mp hrest
        have hc' := hcs' c' mem_cons_self
        exact (ht.isChild ((findChild_eq_some_iff hc'.nul_free).mp hgrand).1 hc'.ne_nil).1
    exact Option.bind_eq_some_iff.mpr
      ⟨child, findChild_typed (hcs c mem_cons_self).nul_free hchild hdir.2, ih hcs' hrest⟩

/-- **A path that leads to a file leads the write to it**: the walk of `ensure_parent_dir` ends in
the directory of the file, and the search for the leaf finds the file. -/
theorem FileAt.parent (ht : Tree t label) {path : CString} {i : Fin 64}
    (hat : FileAt t (pathParts path.bytes) i) :
    ∃ parent leaf, ParentAt t (pathParts path.bytes) parent leaf ∧
      walk t 0 rootInode (pathParts path.bytes).dropLast = some parent ∧
      findChild t (idx32 parent) leaf 0 = some i ∧
      findChild t (idx32 parent) leaf typeFile = some i := by
  have hparts : ∀ c ∈ pathParts path.bytes, LeafOk c := fun c hc => leafOk_of_mem_pathParts hc
  rcases eq_nil_or_concat (pathParts path.bytes) with hnil | ⟨dirs, leaf, hcat⟩
  · -- the empty path leads to the root, a directory
    have hroot := hat.1
    rw [hnil] at hroot
    have htype := hat.2
    rw [← Option.some.inj hroot, ht.root_dir.2] at htype
    cases htype
  · have hw := hat.1
    rw [hcat, concat_eq_append] at hparts hw
    rw [hcat, concat_eq_append]
    rw [walk_append] at hw
    obtain ⟨parent, hdirs, hlast⟩ := Option.bind_eq_some_iff.mp hw
    obtain ⟨child, hchild, hend⟩ := Option.bind_eq_some_iff.mp hlast
    cases hend
    have hleaf : LeafOk leaf := hparts leaf (by simp)
    have hdir := (ht.isChild ((findChild_eq_some_iff hleaf.nul_free).mp hchild).1 hleaf.ne_nil).1
    have hdrop : (dirs ++ [leaf]).dropLast = dirs := dropLast_concat
    refine ⟨parent, leaf, ⟨?_, by simp⟩, hdrop.symm ▸ hdirs, hchild,
      findChild_typed hleaf.nul_free hchild hat.2⟩
    rw [hdrop]
    exact ht.walk_typeDir (fun c hc => hparts c (by simp [hc])) hdir hdirs

end Parent

/-! ### Mounted filesystems -/

/-- A mounted filesystem on any drive, whatever has failed so far. -/
structure Sane (s : Fs) : Prop where
  ok : s.block.Ok
  consistent : s.tables.Consistent ∅
  isTree : s.tables.IsTree
  available : s.available = true

theorem Sane.run {s : Fs} (h : Sane s) (ops : List Op) : Sane (run s ops) :=
  run_induction (fun _ op hs => ⟨exec_ok hs.consistent hs.ok op, exec_consistent hs.consistent op,
    exec_isTree hs.consistent hs.isTree op, (exec_available hs.consistent op).trans hs.available⟩)
    h ops

theorem MountedImage.sane {s : Fs} (h : MountedImage s) : Sane s :=
  ⟨h.block_ok, h.consistent, h.isTree, h.available⟩

/-! ### Reading by name -/

/-- `diskfs_read_file`: the data, if any, and the state. -/
def diskfsReadFile (s : Fs) (name : Option CString) : Option (List UInt8) × Fs :=
  match diskfsFindFile s.tables name with
  | none => (none, s)
  | some index =>
    if (s.tables.inodes index).size > readBufferSize then (none, s)
    else
      let r := diskfsReadIndex s index 0 (s.tables.inodes index).size
      (if r.1.1 then some r.1.2 else none, r.2)

variable {s : Fs} {t t' : Tables} {path : CString} {i j : Fin 64} {size : UInt32}

/-- A read that touches the cache only leaves a sane state with the same files. -/
theorem Sane.reads (h : Sane s) {b : BlockLayer} (hb : Reads s.block b) :
    Sane { s with block := b } ∧ ∀ i, Fs.content { s with block := b } i = s.content i := by
  refine ⟨⟨hb.moves.ok h.ok, h.consistent, h.isTree, h.available⟩, fun i => ?_⟩
  unfold Fs.content Fs.byte
  rw [Moves.logical_eq hb.moves h.ok]

/-- **What `diskfs_read_file` delivers is the content of the file.** -/
theorem diskfsReadFile_some (h : Sane s) {name : Option CString} {data : List UInt8}
    (hdata : (diskfsReadFile s name).1 = some data) :
    ∃ i b, diskfsFindFile s.tables name = some i ∧ data = s.content i ∧
      (diskfsReadFile s name).2 = { s with block := b } ∧ Reads s.block b := by
  unfold diskfsReadFile at hdata ⊢
  cases hfind : diskfsFindFile s.tables name with
  | none =>
    rw [hfind] at hdata
    cases hdata
  | some i =>
    rw [hfind] at hdata
    dsimp only at hdata ⊢
    by_cases hbig : (s.tables.inodes i).size > readBufferSize
    · rw [if_pos hbig] at hdata
      cases hdata
    rw [if_neg hbig] at hdata ⊢
    obtain ⟨b, hb, hreads⟩ := diskfsReadIndex_reads s i 0 (s.tables.inodes i).size
    obtain ⟨hok, hread⟩ := Option.ite_none_right_eq_some.mp hdata
    cases hread
    refine ⟨i, b, rfl, ?_, hb, hreads⟩
    rw [diskfsReadIndex_of_true h.available h.ok (isFile_of_diskfsFindFile h.consistent hfind) _ _
      hok]
    simp [Fs.content]

/-! ### Listed names -/

/-- `p` is one of the names that `diskfs_file_name` returns. -/
def Listed (s : Fs) (p : CString) : Prop := ∃ k < diskfsFileCount s, diskfsFileName s k = p

/-- The names in the list begin with a slash. -/
def ListsAbsolute (s : Fs) : Prop := ∀ v ∈ s.files, v.name.head? = some slash

theorem rebuildFileList_absolute (t : Tables) :
    ∀ v ∈ rebuildFileList t, v.name.head? = some slash := by
  intro v hv
  obtain ⟨i, -, rfl⟩ := mem_map.mp hv
  rfl

/-- An operation keeps the list or makes a new one. -/
theorem transact_listsAbsolute (h : ListsAbsolute s) (plan : Plan) :
    ListsAbsolute (transact s plan).2 := by
  cases plan with
  | reject ok => exact h
  | noRoom t =>
    unfold transact
    dsimp only
    split <;> exact h
  | change t w =>
    unfold transact finishOp
    dsimp only
    split
    · split
      · exact rebuildFileList_absolute t
      · exact h
    · exact h

/-- **Every listed name begins with a slash**, after any run on a mounted image. -/
theorem listed_absolute {s0 : Fs} (h0 : MountedImage s0) (ops : List Op) {p : CString}
    (hp : Listed (run s0 ops) p) : p.bytes.head? = some slash := by
  have habs : ListsAbsolute s0 := by
    obtain ⟨files, image, machine, start, b, b', -, -, -, heq, -⟩ := h0.eq
    rw [heq]
    exact rebuildFileList_absolute _
  have hrun : (run s0 ops).tables.Consistent ∅ ∧ ListsAbsolute (run s0 ops) := by
    refine run_induction (P := fun s => s.tables.Consistent ∅ ∧ ListsAbsolute s) ?_
      ⟨h0.consistent, habs⟩ ops
    rintro s op ⟨hcons, hlist⟩
    refine ⟨exec_consistent hcons op, ?_⟩
    obtain ⟨b, plan, -, -, heq⟩ := op.exec_plan hcons
    rw [heq]
    exact transact_listsAbsolute (s := { s with block := b }) hlist plan
  obtain ⟨k, hk, rfl⟩ := hp
  have hget : (run s0 ops).files[k]? = some ((run s0 ops).files[k]) := getElem?_eq_getElem hk
  have hhead := hrun.2 _ (mem_of_getElem? hget)
  unfold diskfsFileName
  rw [hget]
  dsimp only
  cases hname : ((run s0 ops).files[k]).name with
  | nil => rw [hname] at hhead; cases hhead
  | cons c rest =>
    rw [hname] at hhead
    cases hhead
    rfl

/-! ### The slot of a write -/

/-- The file that `diskfs_write_file` finds under the path. -/
def WriteTarget (t : Tables) (path : CString) (j : Fin 64) : Prop :=
  ∃ parent leaf, ensureParentDir t path = some (parent, leaf) ∧
    findChild t (idx32 parent) leaf typeFile = some j

theorem WriteTarget.unique (hi : WriteTarget t path i) (hj : WriteTarget t path j) : i = j := by
  obtain ⟨parent, leaf, hens, hchild⟩ := hi
  obtain ⟨parent', leaf', hens', hchild'⟩ := hj
  rw [hens] at hens'
  obtain ⟨rfl, rfl⟩ := Prod.mk.inj (Option.some.inj hens')
  exact Option.some.inj (hchild.symm.trans hchild')

theorem WriteTarget.isFile (hj : WriteTarget t path j) : t.IsFile j := by
  obtain ⟨parent, leaf, hens, hchild⟩ := hj
  have hlast := ((ensureParentDir_eq_some_iff _ _ _ _).mp hens).2
  have hleaf : LeafOk leaf := leafOk_of_mem_pathParts (mem_of_getLast? hlast)
  obtain ⟨hchild, -⟩ := (findChild_eq_some_iff hleaf.nul_free).mp hchild
  exact ⟨hchild.inUse, hchild.type.resolve_left (by decide)⟩

variable {label : Fin 64 → List (List UInt8)}

/-- The path of a file is the way of the write to it. -/
theorem FileAt.writeTarget (ht : Tree t label) (hat : FileAt t (pathParts path.bytes) i) :
    WriteTarget t path i := by
  obtain ⟨parent, leaf, hparent, -, -, hfile⟩ := hat.parent ht
  exact ⟨parent, leaf, (ensureParentDir_eq_some_iff _ _ _ _).mpr hparent, hfile⟩

/-- The components of the path spell the place of its target. -/
theorem WriteTarget.label_eq (ht : Tree t label)
    (hj : WriteTarget t path j) : label j = pathParts path.bytes := by
  obtain ⟨parent, leaf, hens, hchild⟩ := hj
  obtain ⟨hwalk, hlast⟩ := (ensureParentDir_eq_some_iff _ _ _ _).mp hens
  have hparts : ∀ c ∈ pathParts path.bytes, LeafOk c := fun c hc => leafOk_of_mem_pathParts hc
  obtain ⟨dirs, hcat⟩ := getLast?_eq_some_iff.mp hlast
  rw [hcat, dropLast_concat] at hwalk
  rw [hcat] at hparts ⊢
  have hleaf : LeafOk leaf := hparts leaf (by simp)
  rw [(ht.isChild ((findChild_eq_some_iff hleaf.nul_free).mp hchild).1 hleaf.ne_nil).2,
    ht.walk_label (fun c hc => hparts c (by simp [hc])) hwalk, ht.root_label, nil_append]

/-- The slot has the same place in the tree. -/
structure SameEntry (t t' : Tables) (j : Fin 64) : Prop where
  type : (t'.inodes j).type = (t.inodes j).type
  parent : (t'.inodes j).parent = (t.inodes j).parent
  name : (t'.inodes j).name = (t.inodes j).name

theorem SameEntry.of_eq (h : t'.inodes j = t.inodes j) : SameEntry t t' j := by
  refine ⟨?_, ?_, ?_⟩ <;> rw [h]

theorem SameEntry.of_withExtent {first sectors : UInt32}
    (h : t'.inodes j = (t.inodes j).withExtent first sectors size) : SameEntry t t' j := by
  refine ⟨?_, ?_, ?_⟩ <;> rw [h] <;> rfl

theorem walk_of_sameEntry (hentry : ∀ j, SameEntry t t' j) (huse : ∀ j, t'.InUse j ↔ t.InUse j)
    (ty : UInt8) (cur : Fin 64) (cs : List (List UInt8)) :
    walk t' ty cur cs = walk t ty cur cs := by
  have hchild : findChild t' = findChild t := by
    funext parent name ty
    unfold findChild
    congr 1
    funext j
    rw [(hentry j).type, (hentry j).parent, (hentry j).name, decide_eq_decide.mpr (huse j)]
  induction cs generalizing cur with
  | nil => rfl
  | cons c cs ih =>
    rw [walk, walk, hchild]
    congr 1
    funext child
    exact ih child

/-- What a successful write of `data` under `path` did: it replaced the content of its target, which
kept its place, or put a file into a free slot. -/
structure WroteTo (s s' : Fs) (path : CString) (data : List UInt8) (j : Fin 64) : Prop where
  data : s'.content j = data
  inodes : ∀ k, k ≠ j → s'.tables.inodes k = s.tables.inodes k
  content : ∀ k, k ≠ j → s.tables.IsFile k → s'.content k = s.content k
  slot : (WriteTarget s.tables path j ∧ SameEntry s.tables s'.tables j ∧
      ∀ k, s'.tables.InUse k ↔ s.tables.InUse k) ∨
    ((∀ k, ¬ WriteTarget s.tables path k) ∧ (s.tables.inodes j).type = 0 ∧ s'.tables.IsFile j)

/-- A change keeps the content of every other file, on any drive. -/
theorem Changed.content {s' : Fs} {kind : Kind} {w : BlockAction} (hd : Changed s s' t' i kind)
    (h : s.tables.Consistent ∅) (hc : Change (s.tables.setJournal 1) i kind t' w) (hji : j ≠ i)
    (hj : s.tables.IsFile j) : s'.content j = s.content j := by
  have hino : s'.tables.inodes j = s.tables.inodes j := by
    rw [hd.tables]
    exact (hc.replaces (h.setJournal 1)).inodes j hji
  unfold Fs.content
  rw [hino]
  exact slice_congr fun k hk => hd.byte h hc hji hj (by omega)

/-- **A write that reports success has one slot**, on any drive. -/
theorem Sane.write_slot (h : Sane s) {buf : Buffer}
    (hok : (diskfsWriteFile s (some path) (some buf) size).1 = true) :
    ∃ j, WroteTo s (diskfsWriteFile s (some path) (some buf) size).2 path
      (slice buf 0 size.toNat) j := by
  obtain ⟨p, buf', parent, leaf, j, kind, t', w, hargs, hkind, hc, heq⟩ :=
    write_true h.consistent hok
  obtain rfl := Option.some.inj hargs.path
  obtain rfl := Option.some.inj hargs.buffer
  have hens := (ensureParentDir_eq_some_iff _ _ _ _).mpr hargs.parentAt
  rw [heq] at hok ⊢
  obtain ⟨s', hrun, hd⟩ := transact_disk_true h.ok h.consistent hc hok
  have htables := hd.tables
  obtain ⟨hf, hsize, -⟩ := hc.size_of_data (h.consistent.setJournal 1) hkind.data
  have hrep := hc.replaces (h.consistent.setJournal 1)
  have hputs := hc.puts (h.consistent.setJournal 1)
  rw [hrun]
  -- the new content, the other inodes, the content of the other files, and which slot it is
  refine ⟨j, ?_, fun k hk => ?_, fun k hk hfile => hd.content h.consistent hc hk hfile, ?_⟩
  · change slice (s'.byte j) 0 (s'.tables.inodes j).size.toNat = _
    rw [show (s'.tables.inodes j).size = size by rw [htables]; exact hsize]
    exact slice_congr fun k hk => hd.data _ _ hkind.data _ (by omega)
  · rw [htables]
    exact hrep.inodes k hk
  · dsimp only
    rw [htables]
    cases hkind with
    | overwrite hchild =>
      obtain ⟨first, hnew⟩ := hputs
      have htarget : WriteTarget s.tables path j := ⟨parent, leaf, hens, hchild⟩
      refine .inl ⟨htarget, .of_withExtent hnew, fun k => (hrep.inUse k).trans ⟨?_, .inl⟩⟩
      rintro (hk | rfl)
      · exact hk
      · exact htarget.isFile.1
    | create =>
      have hnone : findChild s.tables (idx32 parent) leaf typeFile = none := by
        cases hc with
        | create _ _ hnone _ _ => exact hnone
      refine .inr ⟨?_, hputs.1, hf⟩
      rintro k ⟨parent', leaf', hens', hchild⟩
      rw [hens] at hens'
      obtain ⟨rfl, rfl⟩ := Prod.mk.inj (Option.some.inj hens')
      exact nomatch hchild.symm.trans hnone

/-! ### Saving -/

/-- From `s` to `s'` the text was saved in the file at `p`, in slot `i`, and nothing else: every
other slot has kept its place and its content. -/
structure Saves (s s' : Fs) (p : CString) (i : Fin 64) (text : List UInt8) : Prop where
  found : diskfsFindFile s'.tables (some p) = some i
  content : s'.content i = text
  entries : ∀ j, j ≠ i → SameEntry s.tables s'.tables j
  others : ∀ j, j ≠ i → s.tables.IsFile j → s'.content j = s.content j

/-- **A text written under the path `q` is saved in the file at `p` exactly if the paths have the
same components**, or if the file at `p` and the one that `q` leads to held that text before. -/
theorem saves_iff (h : Sane s) {p q : CString} (hat : FileAt s.tables (pathParts p.bytes) i)
    {buf : Buffer} (hok : (diskfsWriteFile s (some q) (some buf) size).1 = true) :
    Saves s (diskfsWriteFile s (some q) (some buf) size).2 p i (slice buf 0 size.toNat) ↔
      pathParts q.bytes = pathParts p.bytes ∨ (slice buf 0 size.toNat = s.content i ∧
        ∃ j, WriteTarget s.tables q j ∧ s.content j = slice buf 0 size.toNat) := by
  obtain ⟨label, ht⟩ := h.isTree
  obtain ⟨j, hwrote⟩ := h.write_slot hok
  generalize (diskfsWriteFile s (some q) (some buf) size).2 = s' at hwrote ⊢
  have hfile : s.tables.IsFile i := isFile_of_diskfsFindFile h.consistent
    ((diskfsFindFile_eq_some_iff _ p i).mpr (.inl hat))
  have hlive : (s.tables.inodes i).type ≠ 0 := by rw [hfile.2]; decide
  -- a write over a file changes no name
  have hfound : WriteTarget s.tables q j → diskfsFindFile s'.tables (some p) = some i ∧
      SameEntry s.tables s'.tables j := by
    intro htarget
    rcases hwrote.slot with ⟨-, hentry, huse⟩ | ⟨hnone, -⟩
    · have hall : ∀ k, SameEntry s.tables s'.tables k := fun k => by
        by_cases hk : k = j
        · exact hk ▸ hentry
        · exact .of_eq (hwrote.inodes k hk)
      refine ⟨(diskfsFindFile_eq_some_iff _ p i).mpr (.inl ⟨?_, (hall i).type.trans hat.2⟩), hentry⟩
      rw [walk_of_sameEntry hall huse]
      exact hat.1
    · exact absurd htarget (hnone j)
  have htarget_of : ∀ k, WriteTarget s.tables q k → WriteTarget s.tables q j := by
    intro k hk
    rcases hwrote.slot with ⟨hj, -⟩ | ⟨hnone, -⟩
    · exact hj
    · exact absurd hk (hnone k)
  by_cases hji : j = i
  · subst hji
    have htarget : WriteTarget s.tables q j := by
      rcases hwrote.slot with ⟨hj, -⟩ | ⟨-, hfree, -⟩
      · exact hj
      · exact absurd hfree hlive
    refine iff_of_true ⟨(hfound htarget).1, hwrote.data,
      fun k hk => .of_eq (hwrote.inodes k hk), hwrote.content⟩ (.inl ?_)
    have hspell := ht.walk_label (fun c hc => leafOk_of_mem_pathParts hc) hat.1
    rw [ht.root_label, nil_append] at hspell
    exact (htarget.label_eq ht).symm.trans hspell
  · have hkept : s'.content i = s.content i := hwrote.content i (fun hij => hji hij.symm) hfile
    constructor
    · intro hsaves
      refine .inr ⟨hsaves.content.symm.trans hkept, ?_⟩
      rcases hwrote.slot with ⟨hj, -⟩ | ⟨-, hfree, hnew⟩
      · exact ⟨j, hj, (hsaves.others j hji hj.isFile).symm.trans hwrote.data⟩
      · have htype := (hsaves.entries j hji).type
        rw [hfree, hnew.2] at htype
        cases htype
    · rintro (hparts | ⟨htext, k, hk, hcontent⟩)
      · have hi : WriteTarget s.tables q i := FileAt.writeTarget ht (hparts ▸ hat)
        exact absurd ((htarget_of i hi).unique hi) hji
      · have hj := htarget_of k hk
        obtain rfl := hj.unique hk
        refine ⟨(hfound hj).1, hkept.trans htext.symm, fun l _ => ?_, fun l hl hlfile => ?_⟩
        · by_cases hlj : l = j
          · exact hlj ▸ (hfound hj).2
          · exact .of_eq (hwrote.inodes l hlj)
        · by_cases hlj : l = j
          · rw [hlj, hwrote.data, hcontent]
          · exact hwrote.content l hlj hlfile

end MyOS.Diskfs
