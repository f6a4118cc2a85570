import MyOS.Mkfs.Agree

/-!
# Listed names

`rebuild_file_list` names a file by its parent directory and its own name, and by nothing above the
parent: the listed name spells the last two components of the path (`Tree.pathParts_visibleName`).
So a listed name leads back to the listed file exactly when the path has at most two components
(`listing_agrees_iff`). The file `/a/b/c` is listed as `/b/c`, which names nothing
(`deep_unlisted`).
-/

namespace MyOS.Diskfs

open List

/-- `diskfs_file_count`. -/
def diskfsFileCount (s : Fs) : ℕ := s.files.length

/-- The string at the beginning of a buffer. -/
def CString.ofBuffer (bytes : List UInt8) : CString :=
  ⟨bytes.takeWhile (· != 0), fun h => by simpa using List.mem_takeWhile_imp h⟩

/-- `diskfs_file_name`. -/
def diskfsFileName (s : Fs) (k : ℕ) : CString :=
  match s.files[k]? with
  | some v => .ofBuffer v.name
  | none => .ofBuffer []

/-- The `k`-th listed name opens the `k`-th listed file. -/
def OpensListed (s : Fs) (k : ℕ) : Prop :=
  ∃ v, s.files[k]? = some v ∧
    diskfsFindFile s.tables (some (diskfsFileName s k)) = some v.index

/-! ### The name of a file in a tree -/

section VisibleName

variable {t : Tables} {label : Fin 64 → List (List UInt8)}

theorem nul_not_mem_visibleName (t : Tables) (i : Fin 64) : (0 : UInt8) ∉ visibleName t i := by
  intro hmem
  have hdir : (0 : UInt8) ∉ visibleDir t (t.inodes i).parent := by
    unfold visibleDir
    split
    · split
      · simp [nul_not_mem_cstr, slash]
      · exact not_mem_nil
    · exact not_mem_nil
  rcases mem_cons.mp (mem_of_mem_take hmem) with h | h
  · cases h
  · exact (mem_append.mp h).elim hdir (nul_not_mem_cstr _)

theorem ofBuffer_visibleName (t : Tables) (i : Fin 64) :
    (CString.ofBuffer (visibleName t i)).bytes = visibleName t i := by
  refine takeWhile_eq_self_iff.mpr fun c hc => bne_iff_ne.mpr ?_
  rintro rfl
  exact nul_not_mem_visibleName t i hc

/-- Components with a slash before each are cut apart again. -/
theorem pathParts_flatMap {cs : List (List UInt8)} (hcs : ∀ c ∈ cs, LeafOk c) :
    pathParts (cs.flatMap (fun c => slash :: c)) = cs := by
  unfold pathParts
  rw [components_flatMap fun c hc => ⟨(hcs c hc).slash_free, (hcs c hc).ne_nil⟩,
    takeWhile_eq_self_iff]
  exact fun c hc => decide_eq_true (hcs c hc).length

variable (ht : Tree t label)
  (hnames : ∀ i, t.InUse i → (t.inodes i).type ≠ 0 → i ≠ rootInode →
    LeafOk (cstr (t.inodes i).name) ∧ (cstr (t.inodes i).name).length ≤ 30)
include ht hnames

/-- **A listed name spells the last two components of the path.** -/
theorem Tree.pathParts_visibleName {i : Fin 64} (hi : t.IsFile i) :
    pathParts (visibleName t i) = (label i).drop ((label i).length - 2) := by
  have hlive : (t.inodes i).type ≠ 0 := by rw [hi.2]; decide
  have hroot : i ≠ rootInode := by
    rintro rfl
    exact nomatch hi.2.symm.trans ht.root_dir.2
  obtain ⟨p, hp, hparent, hlabel⟩ := ht.child i hi.1 hlive hroot
  obtain ⟨hleaf, hlen⟩ := hnames i hi.1 hlive hroot
  have hval : (idx32 p).toNat = p.val := idx32_toNat p
  by_cases hpr : p = rootInode
  · -- a file of the root
    have hname : visibleName t i = [cstr (t.inodes i).name].flatMap (fun c => slash :: c) := by
      have hdir : visibleDir t (t.inodes i).parent = [] := by
        unfold visibleDir
        rw [hparent, hpr]
        simp
      unfold visibleName pathMax
      rw [hdir, nil_append, take_of_length_le (by simp; omega)]
      simp
    rw [hname, pathParts_flatMap (by simpa using hleaf), hlabel, hpr, ht.root_label]
    rfl
  · -- the parent is named too
    have hplive : (t.inodes p).type ≠ 0 := by rw [hp.2]; decide
    obtain ⟨hpleaf, hplen⟩ := hnames p hp.1 hplive hpr
    obtain ⟨pp, -, -, hplabel⟩ := ht.child p hp.1 hplive hpr
    have hname : visibleName t i = [cstr (t.inodes p).name, cstr (t.inodes i).name].flatMap
        (fun c => slash :: c) := by
      have hdir : visibleDir t (t.inodes i).parent = cstr (t.inodes p).name ++ [slash] := by
        unfold visibleDir
        have hne : idx32 p ≠ idx32 rootInode := fun h => hpr (idx32_inj.mp h)
        have hfin : ∀ h, (⟨(idx32 p).toNat, h⟩ : Fin 64) = p := fun h => Fin.ext hval
        rw [hparent, dif_pos (by omega), hfin, if_pos ⟨hne, hp.2⟩]
      unfold visibleName pathMax
      rw [hdir, take_of_length_le (by simp; omega)]
      simp
    rw [hname, pathParts_flatMap (by simpa using ⟨hpleaf, hleaf⟩), hlabel, hplabel,
      append_assoc]
    simp

/-- **Where labels are unique, the listed name of a file leads back to it exactly when its path has
at most two components.** -/
theorem Tree.findFile_visibleName (hinj : ∀ i j, t.InUse i → (t.inodes i).type ≠ 0 → t.InUse j →
      (t.inodes j).type ≠ 0 → label i = label j → i = j) {i : Fin 64} (hi : t.IsFile i) :
    diskfsFindFile t (some (.ofBuffer (visibleName t i))) = some i ↔ (label i).length ≤ 2 := by
  have hparts := ht.pathParts_visibleName hnames hi
  have hslash : (visibleName t i).head? = some slash := rfl
  have hlive : (t.inodes i).type ≠ 0 := by rw [hi.2]; decide
  have hwalk := ht.walk_of_label hinj (fun j hu hl hr => (hnames j hu hl hr).1.ne_nil) hi.1 hlive
  rw [diskfsFindFile_eq_some_iff, ofBuffer_visibleName]
  constructor
  · rintro (hat | ⟨hrel, -⟩)
    · -- the walk spells the label of the file
      have hspell := ht.walk_label (fun c hc => leafOk_of_mem_pathParts
        (p := .ofBuffer (visibleName t i)) (by rwa [ofBuffer_visibleName])) hat.1
      have hlength := congrArg length hspell
      rw [ht.root_label, List.nil_append, hparts, List.length_drop] at hlength
      omega
    · exact absurd hslash hrel
  · intro hle
    refine .inl ⟨?_, hi.2⟩
    rw [hparts, show (label i).length - 2 = 0 by omega]
    exact hwalk

end VisibleName

end MyOS.Diskfs

namespace MyOS.Mkfs

open Diskfs

/-! ### The list of a built image -/

section Built

variable {files : List (List Char × List UInt8)} {b : Builder} (hf : NormalFiles files) (h : b.Ok)
  (hn : b.Named (filePaths files) (files.mergeSort pathLe).reverse)
include hf h hn

omit hf in
/-- A file slot holds a file of the dictionary. -/
theorem built_origin {i : Fin 64} (hi : (builtTables b).IsFile i) :
    ∃ f ∈ files, b.label i.val = splitPath f.1 := by
  obtain ⟨node, hnode⟩ := built_fileNode h hi
  obtain ⟨f, hfm, hlabel⟩ := hn.file _ _ hnode.1
  exact ⟨f, mem_reverse_mergeSort.mp hfm, hlabel⟩

/-- The listed name of a file, in the tables of a dictionary. -/
theorem built_findFile_visibleName {i : Fin 64} (hi : (builtTables b).IsFile i) :
    diskfsFindFile (builtTables b) (some (.ofBuffer (visibleName (builtTables b) i))) = some i ↔
      (b.label i.val).length ≤ 2 := by
  have hlive : ∀ j : Fin 64, (builtTables b).InUse j → j.val < b.inodes.length :=
    fun j hj => (built_inUse_iff h j).mp hj
  rw [(builtTables_tree h).findFile_visibleName ?_ ?_ hi, builtLabel, List.length_map]
  · intro j hj _ hroot
    obtain ⟨node, -, -, hname, hin⟩ := built_name hf h hn hj hroot
    have hcstr : cstr ((builtTables b).inodes j).name = textBytes node.name := by
      rw [hin]
      exact hname.cstr_eq
    rw [hcstr]
    exact ⟨hname.leafOk, by simpa [textBytes] using hname.length⟩
  · exact fun j k hj _ hk _ heq => builtLabel_inj hf h hn (hlive j hj) (hlive k hk) heq

end Built

section Mounted

variable {files : List (List Char × List UInt8)} {image : ℕ → UInt8} {s0 : Fs} {start : UInt32}

/-- **Listing and lookup agree exactly on shallow paths.** After the mount of an image of
normalized paths, every list entry is a file of the dictionary, and its name opens it exactly when
the path of the file has at most two components. So all listed names open their files exactly when
no path of the dictionary is longer. -/
theorem listing_agrees_iff (hf : NormalFiles files) (himg : HoldsImage files image s0 start)
    (havail : (diskfsInitialize s0 start).1.available = true) :
    (∀ k < diskfsFileCount (diskfsInitialize s0 start).1, ∃ f, ∃ hfm : f ∈ files, ∃ v,
      (diskfsInitialize s0 start).1.files[k]? = some v ∧
      FileAt (diskfsInitialize s0 start).1.tables
        (pathParts (hf.normal f hfm).cstring.bytes) v.index ∧
      (OpensListed (diskfsInitialize s0 start).1 k ↔ (splitPath f.1).length ≤ 2)) ∧
    ((∀ k < diskfsFileCount (diskfsInitialize s0 start).1,
        OpensListed (diskfsInitialize s0 start).1 k) ↔
      ∀ f ∈ files, (splitPath f.1).length ≤ 2) := by
  obtain ⟨b, hadd, hok, -, hm⟩ := himg.mirrors
  have hn := hf.named himg.nodup hadd
  obtain ⟨b', heq, -⟩ := mount_clean hm (builtTables_consistent hok).layout rfl havail
  rw [heq]
  -- what one list entry says
  have hentry : ∀ k v, (rebuildFileList (builtTables b))[k]? = some v →
      (builtTables b).IsFile v.index ∧
      (OpensListed ⟨b', true, builtTables b, rebuildFileList (builtTables b)⟩ k ↔
        (b.label v.index.val).length ≤ 2) := by
    intro k v hk
    obtain ⟨i, hi, rfl⟩ := List.mem_map.mp (List.mem_of_getElem? hk)
    have hfile : (builtTables b).IsFile i := of_decide_eq_true (List.mem_filter.mp hi).2
    refine ⟨hfile, ?_⟩
    rw [← built_findFile_visibleName hf hok hn hfile]
    unfold OpensListed diskfsFileName
    rw [hk]
    simp
  have hshallow : ∀ k < (rebuildFileList (builtTables b)).length, ∃ f, ∃ hfm : f ∈ files, ∃ v,
      (rebuildFileList (builtTables b))[k]? = some v ∧
      FileAt (builtTables b) (pathParts (hf.normal f hfm).cstring.bytes) v.index ∧
      (OpensListed ⟨b', true, builtTables b, rebuildFileList (builtTables b)⟩ k ↔
        (splitPath f.1).length ≤ 2) := by
    intro k hk
    have hget := List.getElem?_eq_getElem hk
    obtain ⟨hfile, hopens⟩ := hentry k _ hget
    obtain ⟨f, hfm, hlabel⟩ := built_origin hok hn hfile
    obtain ⟨j, node, hs, hat⟩ := built_fileAt hf hok hn hfm
    -- labels are unique, so the path leads to the slot of the entry
    obtain rfl : j = _ := Fin.ext (hn.inj _ _ (lt_length_of_getElem? hs.file.1)
      ((built_inUse_iff hok _).mp hfile.1) (hs.label.trans hlabel.symm))
    exact ⟨f, hfm, _, hget, hat, by rw [hopens, hlabel]⟩
  refine ⟨hshallow, fun hall f hfm => ?_, fun hall k hk => ?_⟩
  · -- the file is listed somewhere
    obtain ⟨i, node, hs, hat⟩ := built_fileAt hf hok hn hfm
    have hfile : (builtTables b).IsFile i :=
      ⟨(built_inUse_iff hok i).mpr (lt_length_of_getElem? hs.file.1), hat.2⟩
    have hmem : (⟨i, visibleName (builtTables b) i⟩ : VisibleFile) ∈
        rebuildFileList (builtTables b) :=
      List.mem_map.mpr ⟨i, List.mem_filter.mpr ⟨List.mem_finRange i, decide_eq_true hfile⟩, rfl⟩
    obtain ⟨k, hk, hget⟩ := List.getElem_of_mem hmem
    have hopens := ((hentry k _ (hget ▸ List.getElem?_eq_getElem hk)).2).mp (hall k hk)
    rwa [hs.label] at hopens
  · obtain ⟨f, hfm, v, -, -, hiff⟩ := hshallow k hk
    exact hiff.mpr (hall f hfm)

/-- The one name listed of the small image opens its file. -/
theorem listing_agrees_iff_motd :
    0 < diskfsFileCount motdFs ∧ ∀ k < diskfsFileCount motdFs, OpensListed motdFs k := by
  refine ⟨by decide +kernel, (listing_agrees_iff motd_normalFiles (motd_holdsImage fun _ => .done)
    motd_available).2.mpr fun f hf => ?_⟩
  rw [List.mem_singleton.mp hf]
  decide

end Mounted

/-- The dictionary with the one file `/a/b/c`. -/
def deepFiles : List (List Char × List UInt8) := [(['/', 'a', '/', 'b', '/', 'c'], [1])]

/-- The builder at the end of the loop. -/
def deepBuilder : Builder :=
  ((start.addDir ['/', 'a'] 0 ['a']).addDir ['/', 'a', '/', 'b'] 1 ['b']).addData 2 ['c'] [1]

/-- Its image. -/
def deepImage : ℕ → UInt8 :=
  match main deepFiles with
  | .ok image => image
  | .error _ => fun _ => 0

theorem main_deep : main deepFiles = .ok deepImage := by
  have hadd : addFiles (deepFiles.mergeSort pathLe) start = .ok deepBuilder := by
    rw [deepFiles, List.mergeSort_singleton]
    rfl
  have hok : ∃ image, main deepFiles = .ok image := by
    unfold main
    rw [hadd]
    exact ⟨_, rfl⟩
  obtain ⟨image, himage⟩ := hok
  unfold deepImage
  rw [himage]

/-- A machine whose drive holds the image and never fails. -/
def deepMachine : Fs := machineOn (fun lba => imageSector deepImage lba) fun _ => .done

theorem deep_normalFiles : NormalFiles deepFiles :=
  .single (by decide) (by decide) (by decide) (by decide)

/-- **A deep file is listed under a name that leads nowhere**: `/a/b/c` as `/b/c`. -/
theorem deep_unlisted : NormalFiles deepFiles ∧ HoldsImage deepFiles deepImage deepMachine 0 ∧
    (diskfsInitialize deepMachine 0).1.available = true ∧
    (diskfsInitialize deepMachine 0).1.files = [⟨3, [47, 98, 47, 99]⟩] ∧
    diskfsFindFile (diskfsInitialize deepMachine 0).1.tables
      (some (diskfsFileName (diskfsInitialize deepMachine 0).1 0)) = none := by
  refine ⟨deep_normalFiles, ⟨by decide, main_deep, fun r _ => ?_⟩, ?_, ?_, ?_⟩
  · change imageSector deepImage (0 + r) = _
    rw [UInt32.zero_add]
  all_goals decide +kernel

end MyOS.Mkfs
