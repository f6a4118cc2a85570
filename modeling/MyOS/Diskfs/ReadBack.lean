import MyOS.Diskfs.Tree

/-!
# Reading back by path

`diskfs_write_file` finds its parent with a lookup for directories and the file with one for files;
`diskfs_find_file` looks for any kind of inode. When a file and a directory share a name the two
disagree. Both walkers stop at a component of more than 30 bytes, so that a longer path is a name of
the file before it, and `diskfs_find_file` tries the first 62 bytes of a relative path that leads
nowhere. `WalkersAgree` rules all of this out for the path that is written, and then a successful
write is read back under its path, and every other path and file is as it was (`read_your_writes`).

Nothing in `diskfs_write_file` enforces the condition: `/etc` names a directory of the image, the
write creates a file beside it, and the path still leads to the directory (`write_etc_lost`).
-/

namespace MyOS.Diskfs

open List

/-- The typed walk of `ensure_parent_dir` and the untyped one of `find_path` go the same way along
the whole path: no component is skipped, the directories are not hidden by files of their names, and
under the parent no directory has the name of the leaf. No string with the components of the path
leads to a file through its cut copy only. -/
structure WalkersAgree (t : Tables) (path : CString) : Prop where
  whole : skippedParts path.bytes = []
  dirs : ∀ parent leaf, ensureParentDir t path = some (parent, leaf) →
    walk t 0 rootInode (pathParts path.bytes).dropLast = some parent
  leaf : ∀ parent leaf, ensureParentDir t path = some (parent, leaf) →
    findChild t (idx32 parent) leaf 0 = findChild t (idx32 parent) leaf typeFile
  direct : ∀ q j, pathParts q.bytes = pathParts path.bytes → diskfsFindFile t (some q) = some j →
    FileAt t (pathParts q.bytes) j

/-! ### One slot gets a place -/

/-- Slot `i` is the child `leaf` of `parent` in `u`. In `t` it was that child or none, nothing else
stood in its place, and all other slots are as they were. -/
structure Places (t u : Tables) (parent : Fin 64) (leaf : List UInt8) (i : Fin 64) : Prop where
  others : ∀ j, j ≠ i → ∀ P c, IsChild u P c 0 j ↔ IsChild t P c 0 j
  now : IsChild u (idx32 parent) leaf 0 i
  before : ∀ P c, IsChild t P c 0 i → P = idx32 parent ∧ c = leaf
  first : ∀ j, findChild t (idx32 parent) leaf 0 = some j → j = i

/-- The journal marker plays no part in lookups. -/
theorem isChild_setJournal {t : Tables} {state P : UInt32} {c : List UInt8} {ty : UInt8}
    {j : Fin 64} : IsChild (t.setJournal state) P c ty j ↔ IsChild t P c ty j :=
  ⟨fun h => ⟨h.inUse, h.live, h.parent, h.type, h.name⟩,
    fun h => ⟨h.inUse, h.live, h.parent, h.type, h.name⟩⟩

namespace Places

variable {t u : Tables} {parent : Fin 64} {leaf : List UInt8} {i : Fin 64}

section

variable (h : Places t u parent leaf i)
include h

theorem setJournal (state : UInt32) :
    Places t (u.setJournal state) parent leaf i :=
  ⟨fun j hj P c => isChild_setJournal.trans (h.others j hj P c), isChild_setJournal.mpr h.now,
    h.before, h.first⟩

/-- `find_child` after the change: the new place, and everything else as before. -/
theorem findChild_eq {P : UInt32} {c : List UInt8} (hc : (0 : UInt8) ∉ c) : findChild u P c 0
      = if P = idx32 parent ∧ c = leaf then some i else findChild t P c 0 := by
  by_cases hplace : P = idx32 parent ∧ c = leaf
  · obtain ⟨rfl, rfl⟩ := hplace
    rw [if_pos ⟨rfl, rfl⟩]
    refine (findChild_eq_some_iff hc).mpr ⟨h.now, fun j hj hchild => ?_⟩
    -- a lower child would have stood in the place before
    have hold := (h.others j hj.ne _ _).mp hchild
    cases hf : findChild t (idx32 parent) c 0 with
    | none => exact (findChild_eq_none_iff hc).mp hf j hold
    | some m =>
      obtain rfl := h.first m hf
      exact ((findChild_eq_some_iff hc).mp hf).2 j hj hold
  · rw [if_neg hplace]
    have hiff : ∀ j, IsChild u P c 0 j ↔ IsChild t P c 0 j := by
      intro j
      by_cases hj : j = i
      · subst hj
        refine ⟨fun hn => absurd ?_ hplace, fun hb => absurd (h.before P c hb) hplace⟩
        exact ⟨hn.parent.symm.trans h.now.parent, hn.name.symm.trans h.now.name⟩
      · exact h.others j hj P c
    cases hf : findChild t P c 0 with
    | none =>
      refine (findChild_eq_none_iff hc).mpr fun j hj => ?_
      exact (findChild_eq_none_iff hc).mp hf j ((hiff j).mp hj)
    | some m =>
      obtain ⟨hm, hmin⟩ := (findChild_eq_some_iff hc).mp hf
      exact (findChild_eq_some_iff hc).mpr
        ⟨(hiff m).mpr hm, fun j hj hchild => hmin j hj ((hiff j).mp hchild)⟩

/-- Walks that led somewhere still lead there. -/
theorem walk {cs : List (List UInt8)} (hcs : ∀ c ∈ cs, LeafOk c)
    {cur j : Fin 64} (hw : Diskfs.walk t 0 cur cs = some j) : Diskfs.walk u 0 cur cs = some j := by
  induction cs generalizing cur with
  | nil => exact hw
  | cons c cs ih =>
    obtain ⟨child, hchild, hrest⟩ := Option.bind_eq_some_iff.mp hw
    refine Option.bind_eq_some_iff.mpr ⟨child, ?_, ?_⟩
    · rw [h.findChild_eq (hcs c mem_cons_self).nul_free]
      by_cases hplace : idx32 cur = idx32 parent ∧ c = leaf
      · rw [if_pos hplace, h.first child (by rw [← hplace.1, ← hplace.2]; exact hchild)]
      · rw [if_neg hplace]
        exact hchild
    · exact ih (fun d hd => hcs d (mem_cons_of_mem _ hd)) hrest

/-- A walk that leads somewhere now led there before, unless it ends in the slot that changed. That
slot is no directory, so no walk goes on from it. -/
theorem walk_back {label : Fin 64 → List (List UInt8)}
    (ht : Tree u label) (hi : ¬ u.IsDir i) {cs : List (List UInt8)} (hcs : ∀ c ∈ cs, LeafOk c)
    {cur k : Fin 64} (hw : Diskfs.walk u 0 cur cs = some k) :
    k = i ∨ Diskfs.walk t 0 cur cs = some k := by
  induction cs generalizing cur with
  | nil => exact .inr hw
  | cons c cs ih =>
    have hc := hcs c mem_cons_self
    have hcs' : ∀ d ∈ cs, LeafOk d := fun d hd => hcs d (mem_cons_of_mem _ hd)
    obtain ⟨child, hchild, hrest⟩ := Option.bind_eq_some_iff.mp hw
    by_cases hci : child = i
    · subst hci
      cases cs with
      | nil => exact .inl (Option.some.inj hrest).symm
      | cons d cs =>
        obtain ⟨grandchild, hgrand, -⟩ := Option.bind_eq_some_iff.mp hrest
        have hd := hcs' d mem_cons_self
        have hg := ((findChild_eq_some_iff hd.nul_free).mp hgrand).1
        exact absurd (ht.isChild hg hd.ne_nil).1 hi
    · have hold : findChild t (idx32 cur) c 0 = some child := by
        rw [h.findChild_eq hc.nul_free] at hchild
        by_cases hplace : idx32 cur = idx32 parent ∧ c = leaf
        · rw [if_pos hplace] at hchild
          exact absurd (Option.some.inj hchild).symm hci
        · rwa [if_neg hplace] at hchild
      rcases ih hcs' hrest with hk | hk
      · exact .inl hk
      · exact .inr (Option.bind_eq_some_iff.mpr ⟨child, hold, hk⟩)

end

end Places

/-- The parts of the cut copy of a path are names. -/
theorem leafOk_of_mem_cutParts {q : CString} {c : List UInt8} (hc : c ∈ cutParts q.bytes) :
    LeafOk c :=
  leafOk_of_mem_pathParts
    (p := ⟨q.bytes.take (pathMax - 2), fun h => q.nul_free (mem_of_mem_take h)⟩) hc

section Resolve

variable {t u : Tables} {parent : Fin 64} {leaf : List UInt8} {i : Fin 64}

/-- The slot that got a place is found under it. -/
theorem Places.findFile (h : Places t u parent leaf i) {path : CString}
    (hpath : ParentAt t (pathParts path.bytes) parent leaf)
    (hdirs : Diskfs.walk t 0 rootInode (pathParts path.bytes).dropLast = some parent)
    (hi : (u.inodes i).type = typeFile) : FileAt u (pathParts path.bytes) i := by
  have hparts : (pathParts path.bytes).dropLast ++ [leaf] = pathParts path.bytes :=
    dropLast_append_getLast? leaf hpath.2
  have hdrop : ∀ c ∈ (pathParts path.bytes).dropLast, LeafOk c :=
    fun c hc => leafOk_of_mem_pathParts (dropLast_subset _ hc)
  have hleaf : LeafOk leaf := leafOk_of_mem_pathParts (mem_of_getLast? hpath.2)
  refine ⟨?_, hi⟩
  rw [← hparts, walk_append, h.walk hdrop hdirs, Option.bind_some, Diskfs.walk,
    h.findChild_eq hleaf.nul_free, if_pos ⟨rfl, rfl⟩]
  rfl

/-- **Paths keep their files**: a path leads to the slot it led to before, unless it has the
components of the one written and led there through its cut copy. -/
theorem Places.findFile_other (h : Places t u parent leaf i) {label : Fin 64 → List (List UInt8)}
    (ht : Tree u label) (hi : (u.inodes i).type = typeFile) {parts : List (List UInt8)}
    (hparts : ∀ c ∈ parts, LeafOk c) (hnew : FileAt u parts i)
    (hsame : ∀ j, j ≠ i → u.inodes j = t.inodes j) {q : CString} {j : Fin 64}
    (hq : pathParts q.bytes = parts → FileAt t (pathParts q.bytes) j)
    (hj : diskfsFindFile t (some q) = some j) :
    diskfsFindFile u (some q) = some j := by
  have hdir : ¬ u.IsDir i := fun hd => absurd (hi.symm.trans hd.2) (by decide)
  -- a file found in `t` is found in `u` under the same components
  have hkeep : ∀ {cs}, (∀ c ∈ cs, LeafOk c) → FileAt t cs j → FileAt u cs j := by
    intro cs hcs hat
    refine ⟨h.walk hcs hat.1, ?_⟩
    by_cases hji : j = i
    · rw [hji]; exact hi
    · rw [hsame j hji]; exact hat.2
  have hqparts : ∀ c ∈ pathParts q.bytes, LeafOk c := fun c hc => leafOk_of_mem_pathParts hc
  rw [diskfsFindFile_eq_some_iff] at hj ⊢
  rcases hj with hat | ⟨hrel, hnone, hat⟩
  · exact .inl (hkeep hqparts hat)
  · -- the path was found by its cut copy only, and the path itself still leads to no file
    refine .inr ⟨hrel, fun k hk => ?_, hkeep (fun c hc => leafOk_of_mem_cutParts hc) hat⟩
    have hki : k ≠ i := by
      rintro rfl
      refine hnone j (hq ?_)
      -- two lists of components that lead to one slot both spell its label
      have h1 := ht.walk_label hqparts hk.1
      have h2 := ht.walk_label hparts hnew.1
      rw [ht.root_label, nil_append] at h1 h2
      exact h1.symm.trans h2
    have hback := (h.walk_back ht hdir hqparts hk.1).resolve_left hki
    exact hnone k ⟨hback, by rw [← hsame k hki]; exact hk.2⟩

end Resolve

/-! ### Writes -/

/-- A write on whose path the walkers agree puts its slot under the leaf name. -/
theorem WriteKind.places {leak : Set ℕ} {t u : Tables} {parent : Fin 64} {leaf : List UInt8}
    {buf : Buffer} {size : UInt32} {i : Fin 64} {kind : Kind} {w : BlockAction}
    (h : t.Consistent leak) (hkind : WriteKind t parent leaf buf size i kind)
    (hc : Change (t.setJournal 1) i kind u w) (hleaf : LeafOk leaf)
    (hagree : findChild t (idx32 parent) leaf 0 = findChild t (idx32 parent) leaf typeFile) :
    Places t u parent leaf i := by
  have hr := hc.replaces (h.setJournal 1)
  have hputs := hc.puts (h.setJournal 1)
  have hused : u.InUse i := (hr.inUse i).mpr (.inr rfl)
  -- the other slots keep their places in the tree
  have hothers : ∀ j, j ≠ i → ∀ P c, IsChild u P c 0 j ↔ IsChild t P c 0 j := by
    intro j hj P c
    have hino : u.inodes j = t.inodes j := hr.inodes j hj
    have hu : u.InUse j ↔ t.InUse j := (hr.inUse j).trans (or_iff_left hj)
    constructor
    · rintro ⟨h1, h2, h3, h4, h5⟩
      rw [hino] at h2 h3 h4 h5
      exact ⟨hu.mp h1, h2, h3, h4, h5⟩
    · rintro ⟨h1, h2, h3, h4, h5⟩
      rw [← hino] at h2 h3 h4 h5
      exact ⟨hu.mpr h1, h2, h3, h4, h5⟩
  cases hkind with
  | overwrite hchild =>
    obtain ⟨first, hino⟩ := hputs
    have hold := ((findChild_eq_some_iff hleaf.nul_free).mp (hagree.trans hchild)).1
    refine ⟨hothers, ⟨hused, ?_, ?_, .inl rfl, ?_⟩, fun P c hb => ?_, fun j hj => ?_⟩
    · rw [hino]; exact hold.live
    · rw [hino]; exact hold.parent
    · rw [hino]; exact hold.name
    · exact ⟨hb.parent.symm.trans hold.parent, hb.name.symm.trans hold.name⟩
    · rw [hagree, hchild] at hj
      exact (Option.some.inj hj).symm
  | create =>
    obtain ⟨hfree, first, hino⟩ := hputs
    have hnone : findChild t (idx32 parent) leaf typeFile = none := by
      cases hc with
      | create _ _ hnone _ _ => exact hnone
    refine ⟨hothers, ⟨hused, ?_, ?_, .inl rfl, ?_⟩, fun P c hb => absurd hfree hb.live,
      fun j hj => ?_⟩
    · rw [hino]; exact (by decide : typeFile ≠ 0)
    · rw [hino]; rfl
    · rw [hino]; exact hleaf.cstr_nameOf
    · rw [hagree, hnone] at hj
      cases hj

/-- What the caller of `diskfs_write_file(path, buf, size)` can rely on, from `s` to `s'`: the path
leads to a file with the written bytes, every path that led to a file still leads to it, and a file
other than the written one has kept its content. -/
def ReadsBack (s s' : Fs) (path : CString) (buf : Buffer) (size : UInt32) : Prop :=
  ∃ i, diskfsFindFile s'.tables (some path) = some i ∧ (s'.tables.inodes i).size = size ∧
    (diskfsReadIndex s' i 0 size).1 = (true, slice buf 0 size.toNat) ∧
    ∀ q j, diskfsFindFile s.tables (some q) = some j →
      diskfsFindFile s'.tables (some q) = some j ∧ (j ≠ i → SameFile s s' j)

/-- **Read your writes by path.** In every state that a run on a mounted image reaches, a
successful write to a path on which the walkers agree is read back under that path. -/
theorem read_your_writes {s0 : Fs} (h0 : MountedImage s0) (hr : s0.block.Reliable)
    (ops : List Op) (path : CString) (buf : Buffer) (size : UInt32)
    (hagree : WalkersAgree (run s0 ops).tables path)
    (hok : (diskfsWriteFile (run s0 ops) (some path) (some buf) size).1 = true) :
    ReadsBack (run s0 ops) (diskfsWriteFile (run s0 ops) (some path) (some buf) size).2
      path buf size := by
  have hgood := (h0.good hr).run ops
  have htree' : ((Op.write (some path) (some buf) size).exec (run s0 ops)).2.tables.IsTree :=
    exec_isTree hgood.consistent (run_isTree h0.consistent h0.isTree ops) _
  change (diskfsWriteFile (run s0 ops) (some path) (some buf) size).2.tables.IsTree at htree'
  obtain ⟨p, buf', parent, leaf, i, kind, u, w, hargs, hkind, hc, heq⟩ :=
    write_true hgood.consistent hok
  obtain rfl := Option.some.inj hargs.path
  obtain rfl := Option.some.inj hargs.buffer
  have hone := transact_writesOne hgood hargs hkind hc
  obtain ⟨s', hrun, htables, -⟩ := transact_disk hgood hc
  rw [heq, hrun] at htree' ⊢
  rw [hrun] at hone
  obtain ⟨label, htree⟩ := htree'
  have hens := (ensureParentDir_eq_some_iff _ _ _ _).mpr hargs.parentAt
  have hplaces : Places (run s0 ops).tables s'.tables parent leaf i := by
    rw [htables]
    exact (hkind.places hgood.consistent hc hargs.leafOk (hagree.leaf _ _ hens)).setJournal 0
  have hat := hplaces.findFile hargs.parentAt (hagree.dirs _ _ hens) hone.isFile.2
  refine ⟨i, (diskfsFindFile_eq_some_iff _ _ _).mpr (.inl hat), hone.length, ?_,
    fun q j hj => ⟨?_, fun hji => ?_⟩⟩
  · have := hone.data 0 size
    rwa [UInt32.toNat_zero, Nat.sub_zero, Nat.min_self] at this
  · exact hplaces.findFile_other htree hone.isFile.2 (fun c hc => leafOk_of_mem_pathParts hc) hat
      hone.inodes (fun hq => hagree.direct q j hq hj) hj
  · exact hone.others j hji (isFile_of_diskfsFindFile hgood.consistent hj)

/-- `/etc/motd` is overwritten and read back, and `/x`, created before, keeps its content. -/
theorem read_your_writes_motd : ReadsBack (run motdFs [.write (some xPath) (some fun _ => 5) 9])
      (diskfsWriteFile (run motdFs [.write (some xPath) (some fun _ => 5) 9])
        (some motdPath) (some fun _ => 7) 600).2 motdPath (fun _ => 7) 600 := by
  refine read_your_writes motd_mounted motd_reliable _ _ _ _ ?_ (by decide +kernel)
  have hens : ensureParentDir (run motdFs [.write (some xPath)
      (some fun _ => 5) 9]).tables motdPath = some (1, [109, 111, 116, 100]) := by decide +kernel
  refine ⟨by decide, fun parent leaf h => ?_, fun parent leaf h => ?_, fun q j hq hj => ?_⟩
  · obtain ⟨rfl, rfl⟩ := Prod.mk.inj (Option.some.inj (hens.symm.trans h))
    decide +kernel
  · obtain ⟨rfl, rfl⟩ := Prod.mk.inj (Option.some.inj (hens.symm.trans h))
    decide +kernel
  · -- the components lead to the file, so no cut copy is tried
    rw [hq]
    have hat : FileAt (run motdFs [.write (some xPath) (some fun _ => 5) 9]).tables
        (pathParts motdPath.bytes) 2 := ⟨by decide +kernel, by decide +kernel⟩
    rw [(diskfsFindFile_eq_some_iff _ q 2).mpr (.inl (hq ▸ hat))] at hj
    exact Option.some.inj hj ▸ hat

/-- A write to `/etc`, the name of a directory, succeeds and cannot be read back. -/
theorem write_etc_lost : MountedImage motdFs ∧ motdFs.block.Reliable ∧
    (diskfsWriteFile motdFs (some etcPath) (some fun _ => 7) 1).1 = true ∧
    ¬ ReadsBack motdFs (diskfsWriteFile motdFs (some etcPath) (some fun _ => 7) 1).2
      etcPath (fun _ => 7) 1 := by
  refine ⟨motd_mounted, motd_reliable, by decide +kernel, ?_⟩
  have hnone : diskfsFindFile (diskfsWriteFile motdFs (some etcPath) (some fun _ => 7) 1).2.tables
      (some etcPath) = none := by decide +kernel
  rintro ⟨i, hi, -⟩
  rw [hnone] at hi
  cases hi

end MyOS.Diskfs
