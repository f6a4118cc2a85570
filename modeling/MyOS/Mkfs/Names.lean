import MyOS.Mkfs.Tables

/-!
# The names in a built image

`Builder.label b k` are the components of the path of entry `k`, read along the parents, which
precede their children. For a dictionary of normalized paths, none a proper prefix of another,
labels are unique: a directory is created only when `lookup` does not know its path, and no file has
the path of a directory. `Builder.Named` is the invariant of the loops that says so, together with
where the files and their data are; `addFiles_named` carries it through the run.
-/

namespace MyOS.Mkfs

open Diskfs List

/-! ### Labels -/

/-- The components from the root to entry `k`. -/
def Builder.label (b : Builder) (k : ℕ) : List (List Char) :=
  match b.inodes[k]? with
  | none => []
  | some node => if _h : node.parent < k then b.label node.parent ++ [node.name] else []
termination_by k

section Label

variable {b b' : Builder} {node : Node} {k : ℕ}

/-- The label of an entry other than the root extends the one of its parent. -/
theorem Builder.label_child (hn : b.inodes[k]? = some node) (hlt : node.parent < k) :
    b.label k = b.label node.parent ++ [node.name] := by
  rw [Builder.label, hn]
  exact dif_pos hlt

theorem Builder.Ok.label_root (h : b.Ok) : b.label 0 = [] := by
  rw [Builder.label, h.root]
  rfl

/-- Labels look at the entries up to their own. -/
theorem label_congr (h : ∀ j ≤ k, b'.inodes[j]? = b.inodes[j]?) : b'.label k = b.label k := by
  induction k using Nat.strongRecOn with
  | ind k ih =>
    rw [Builder.label, Builder.label, h k (le_refl k)]
    cases b.inodes[k]? with
    | none => rfl
    | some node =>
      dsimp only
      by_cases hlt : node.parent < k
      · rw [dif_pos hlt, dif_pos hlt, ih _ hlt fun j hj => h j (by omega)]
      · rw [dif_neg hlt, dif_neg hlt]

/-- A new entry leaves the labels of the others alone. -/
theorem label_of_lt (hb : b'.inodes = b.inodes ++ [node]) (hk : k < b.inodes.length) :
    b'.label k = b.label k :=
  label_congr fun j hj => by rw [hb, getElem?_append_left (by omega)]

theorem label_new (hb : b'.inodes = b.inodes ++ [node]) (hp : node.parent < b.inodes.length) :
    b'.label b.inodes.length = b.label node.parent ++ [node.name] := by
  have hget : b'.inodes[b.inodes.length]? = some node := by simp [hb]
  rw [Builder.label_child hget hp, label_of_lt hb hp]

/-- A new directory is one component below its parent. -/
theorem label_addDir {path part : List Char} {parent : ℕ} (hp : parent < b.inodes.length) :
    (b.addDir path parent part).label b.inodes.length = b.label parent ++ [part] := by
  have hb : (b.addDir path parent part).inodes = b.inodes ++ [⟨typeDir, parent, part, 0, 0, 0⟩] :=
    rfl
  exact label_new hb hp

end Label

/-! ### Paths -/

/-- The absolute path with the given components. -/
def joinPath (parts : List (List Char)) : List Char := parts.flatMap (fun c => '/' :: c)

theorem joinPath_concat (parts : List (List Char)) (c : List Char) :
    joinPath (parts ++ [c]) = joinPath parts ++ '/' :: c := by
  simp [joinPath]

/-- The component lists of the files of a dictionary: they are made of components, and none is a
proper prefix of another. -/
structure PathSet (all : Set (List (List Char))) : Prop where
  parts : ∀ P ∈ all, ∀ c ∈ P, '/' ∉ c ∧ c ≠ []
  free : ∀ P ∈ all, ∀ Q ∈ all, P <+: Q → P = Q

section PathSet

variable {all : Set (List (List Char))} (hall : PathSet all) {P Q L L' : List (List Char)}
include hall

/-- A file's path is no directory of a file. -/
theorem PathSet.not_dir (hP : P ∈ all) (hQ : Q ∈ all) (hne : P ≠ []) : ¬ P <+: Q.dropLast := by
  intro h
  obtain rfl := hall.free P hP Q hQ (h.trans (List.dropLast_prefix Q))
  have hlen := h.length_le
  rw [length_dropLast] at hlen
  have := length_pos_iff.mpr hne
  omega

/-- Paths of directories determine their components. -/
theorem PathSet.joinPath_inj (hP : P ∈ all) (hL : L <+: P) (hQ : Q ∈ all) (hL' : L' <+: Q)
    (h : joinPath L = joinPath L') : L = L' := by
  have h1 := components_flatMap fun c hc => hall.parts P hP c (hL.subset hc)
  have h2 := components_flatMap fun c hc => hall.parts Q hQ c (hL'.subset hc)
  rw [← h1, ← h2]
  exact congrArg (components '/') h

/-- Only the root has the path `/`. -/
theorem PathSet.joinPath_ne (hP : P ∈ all) (hL : L <+: P) (hne : L ≠ []) : joinPath L ≠ ['/'] := by
  intro h
  have h1 := components_flatMap fun c hc => hall.parts P hP c (hL.subset hc)
  change components '/' (joinPath L) = L at h1
  rw [h, components_cons_sep, components_nil] at h1
  exact hne h1.symm

end PathSet

/-! ### The invariant -/

/-- Entry `k` is the file `f`, with its data in the image. -/
structure Builder.Stores (b : Builder) (f : List Char × List UInt8) (k : ℕ) (node : Node) :
    Prop where
  file : b.FileNode k node
  label : b.label k = splitPath f.1
  size : node.size = f.2.length
  data : ∀ j < f.2.length, b.image (node.first * 512 + j) = f.2.getD j 0

/-- The invariant of the loops about names: `all` are the component lists of all files, `done` the
files already added. -/
structure Builder.Named (all : Set (List (List Char))) (done : List (List Char × List UInt8))
    (b : Builder) : Prop where
  inj : ∀ j k, j < b.inodes.length → k < b.inodes.length → b.label j = b.label k → j = k
  /-- Directories lead to files. -/
  dir : ∀ k, k ≠ 0 → b.IsDir k → ∃ P ∈ all, b.label k <+: P.dropLast
  /-- Directories are known to `lookup`, under their paths. -/
  known : ∀ k, k ≠ 0 → b.IsDir k → b.lookup.lookup (joinPath (b.label k)) = some k
  lookup : ∀ path k, b.lookup.lookup path = some k → path = ['/'] ∨ path = joinPath (b.label k)
  file : ∀ k node, b.FileNode k node → ∃ f ∈ done, b.label k = splitPath f.1
  stored : ∀ f ∈ done, ∃ k node, b.Stores f k node

theorem start_named (all : Set (List (List Char))) : start.Named all [] := by
  refine ⟨fun j k hj hk _ => ?_, fun k hk hd => ?_, fun k hk hd => ?_, fun path k h => ?_,
    fun k node hf => absurd hf (start_not_fileNode k node),
    fun f hf => absurd hf not_mem_nil⟩
  · have hlen : start.inodes.length = 1 := rfl
    omega
  · obtain ⟨node, hn, -⟩ := hd
    exact absurd (start_entry hn).1 hk
  · obtain ⟨node, hn, -⟩ := hd
    exact absurd (start_entry hn).1 hk
  · left
    simp only [start, lookup_cons, lookup_nil] at h
    split at h
    · exact beq_iff_eq.mp ‹_›
    · cases h

section Steps

variable {all : Set (List (List Char))} {done : List (List Char × List UInt8)} {b b' : Builder}
  {node : Node}

/-- A new entry with a new label keeps labels unique. -/
theorem Builder.Named.inj_append (hn : b.Named all done) (hb : b'.inodes = b.inodes ++ [node])
    (hnew : ∀ j < b.inodes.length, b.label j ≠ b'.label b.inodes.length) :
    ∀ j k, j < b'.inodes.length → k < b'.inodes.length → b'.label j = b'.label k → j = k := by
  have hlen : b'.inodes.length = b.inodes.length + 1 := by rw [hb]; simp
  intro j k hj hk h
  rcases Nat.lt_or_ge j b.inodes.length with hj' | hj'
  · rcases Nat.lt_or_ge k b.inodes.length with hk' | hk'
    · rw [label_of_lt hb hj', label_of_lt hb hk'] at h
      exact hn.inj j k hj' hk' h
    · obtain rfl : k = b.inodes.length := by omega
      rw [label_of_lt hb hj'] at h
      exact absurd h (hnew j hj')
  · obtain rfl : j = b.inodes.length := by omega
    rcases Nat.lt_or_ge k b.inodes.length with hk' | hk'
    · rw [label_of_lt hb hk'] at h
      exact absurd h.symm (hnew k hk')
    · omega

/-- An entry is the root, another directory or a file. -/
theorem Builder.Ok.entry_cases (h : b.Ok) {k : ℕ} (hk : k < b.inodes.length) :
    k = 0 ∨ (k ≠ 0 ∧ b.IsDir k) ∨ ∃ node, b.FileNode k node := by
  have hget := getElem?_eq_getElem hk
  by_cases hk0 : k = 0
  · exact .inl hk0
  · rcases h.type k _ hget with ht | ht
    · exact .inr (.inr ⟨_, hget, ht⟩)
    · exact .inr (.inl ⟨hk0, _, hget, ht⟩)

variable {f : List Char × List UInt8} {P : List (List Char)} {parent : ℕ}

/-- What is stored stays stored, if the new entry leaves the bytes of the old files alone. -/
theorem Builder.Stores.append {k : ℕ} {m : Node} (hs : b.Stores f k m)
    (hb : b'.inodes = b.inodes ++ [node])
    (himage : ∀ j < f.2.length, b'.image (m.first * 512 + j) = b.image (m.first * 512 + j)) :
    b'.Stores f k m := by
  refine ⟨(fileNode_append hb).mpr (.inl hs.file), ?_, hs.size, fun j hj => ?_⟩
  · rw [label_of_lt hb (lt_length_of_getElem? hs.file.1)]
    exact hs.label
  · rw [himage j hj]
    exact hs.data j hj

/-- A directory of a file that `lookup` knows has the label it is known under. -/
theorem Builder.Named.label_of_lookup (hn : b.Named all done) (hall : PathSet all) (h : b.Ok)
    {L : List (List Char)} {i : ℕ} (hP : P ∈ all) (hpre : L <+: P.dropLast) (hne : L ≠ [])
    (hl : b.lookup.lookup (joinPath L) = some i) : b.label i = L := by
  have hL : L <+: P := hpre.trans (List.dropLast_prefix P)
  rcases hn.lookup _ i hl with heq | heq
  · exact absurd heq (hall.joinPath_ne hP hL hne)
  · by_cases hi : i = 0
    · -- the root has the empty path
      subst hi
      rw [h.label_root] at heq ⊢
      exact hall.joinPath_inj hP nil_prefix hP hL heq.symm
    · obtain ⟨Q, hQ, hiQ⟩ := hn.dir i hi (h.lookup _ i hl)
      exact hall.joinPath_inj hQ (hiQ.trans (List.dropLast_prefix Q)) hP hL heq.symm

/-- **A new file** in the directory of its path keeps the names in order. -/
theorem Builder.Named.addData (hn : b.Named all done) (hall : PathSet all) (h : b.Ok)
    {name : List Char} (hp : b.IsDir parent) (hf : splitPath f.1 ∈ all)
    (hlabel : b.label parent ++ [name] = splitPath f.1)
    (hfresh : ∀ g ∈ done, splitPath g.1 ≠ splitPath f.1) :
    (b.addData parent name f.2).Named all (f :: done) := by
  have hb : (b.addData parent name f.2).inodes = b.inodes ++
      [⟨typeFile, parent, name, f.2.length, b.nextSector, sectorsFor f.2.length⟩] := rfl
  have hnew : (b.addData parent name f.2).label b.inodes.length = splitPath f.1 :=
    (label_new hb hp.lt_length).trans hlabel
  have hne : splitPath f.1 ≠ [] := by rw [← hlabel]; simp
  have hdir : ∀ k, (b.addData parent name f.2).IsDir k → b.IsDir k := by
    intro k hk
    refine ((isDir_append hb).mp hk).resolve_right fun hnew => ?_
    exact absurd hnew.2 (show typeFile ≠ typeDir by decide)
  refine ⟨hn.inj_append hb fun j hj heq => ?_, fun k hk hd => ?_, fun k hk hd => ?_,
    fun q k hq => ?_, fun k m hm => ?_, fun g hg => ?_⟩
  · rw [hnew] at heq
    rcases h.entry_cases hj with rfl | ⟨hj0, hjd⟩ | ⟨m, hjf⟩
    · rw [h.label_root] at heq
      exact hne heq.symm
    · obtain ⟨Q, hQ, hpre⟩ := hn.dir j hj0 hjd
      exact hall.not_dir hf hQ hne (heq ▸ hpre)
    · obtain ⟨g, hg, hgl⟩ := hn.file j m hjf
      exact hfresh g hg (hgl.symm.trans heq)
  · rw [label_of_lt hb (hdir k hd).lt_length]
    exact hn.dir k hk (hdir k hd)
  · rw [label_of_lt hb (hdir k hd).lt_length]
    exact hn.known k hk (hdir k hd)
  · rw [label_of_lt hb (h.lookup q k hq).lt_length]
    exact hn.lookup q k hq
  · rcases (fileNode_append hb).mp hm with hk | ⟨rfl, -⟩
    · obtain ⟨g, hg, hgl⟩ := hn.file k m hk
      refine ⟨g, mem_cons_of_mem _ hg, ?_⟩
      rw [label_of_lt hb (lt_length_of_getElem? hk.1)]
      exact hgl
    · exact ⟨f, mem_cons_self, hnew⟩
  · rcases mem_cons.mp hg with rfl | hg
    · refine ⟨b.inodes.length, _, (fileNode_append hb).mpr (.inr ⟨rfl, rfl, rfl⟩), hnew, rfl,
        fun j hj => ?_⟩
      change put b.image (b.nextSector * 512) g.2 (b.nextSector * 512 + j) = _
      rw [put_apply (by omega) (by omega), Nat.add_sub_cancel_left]
    · obtain ⟨k, m, hs⟩ := hn.stored g hg
      refine ⟨k, m, hs.append hb fun j hj => put_of_lt f.2 ?_⟩
      -- the old files end before the sectors of the new one
      obtain ⟨-, -, hend⟩ := h.file k m hs.file
      obtain ⟨-, -, -, hroom, -⟩ := fileNode_fields h hs.file
      have hsize := hs.size
      omega

variable (hall : PathSet all) (hdone : ∀ f ∈ done, splitPath f.1 ∈ all)
include hall hdone

/-- **A new directory** on the way to a file keeps the names in order. -/
theorem Builder.Named.addDir (h : b.Ok) (hn : b.Named all done) {path part : List Char}
    (hp : b.IsDir parent) (hP : P ∈ all) (hpre : b.label parent ++ [part] <+: P.dropLast)
    (hpath : path = joinPath (b.label parent ++ [part])) (hnone : b.lookup.lookup path = none) :
    (b.addDir path parent part).Named all done := by
  have hb : (b.addDir path parent part).inodes = b.inodes ++ [⟨typeDir, parent, part, 0, 0, 0⟩] :=
    rfl
  have hlabel : (b.addDir path parent part).label b.inodes.length = b.label parent ++ [part] :=
    label_addDir hp.lt_length
  have hdir : ∀ k, (b.addDir path parent part).IsDir k → b.IsDir k ∨ k = b.inodes.length :=
    fun k hk => ((isDir_append hb).mp hk).imp_right And.left
  refine ⟨hn.inj_append hb fun j hj heq => ?_, fun k hk hd => ?_, fun k hk hd => ?_,
    fun q k hq => ?_, fun k m hf => ?_, fun f hf => ?_⟩
  · rw [hlabel] at heq
    rcases h.entry_cases hj with rfl | ⟨hj0, hjd⟩ | ⟨m, hjf⟩
    · rw [h.label_root] at heq
      exact absurd heq (by simp)
    · -- a directory with this label would have been found
      have := hn.known j hj0 hjd
      rw [heq, ← hpath, hnone] at this
      cases this
    · -- and a file with this label would be a proper prefix of another
      obtain ⟨f, hf, hfl⟩ := hn.file j m hjf
      refine hall.not_dir (hdone f hf) hP ?_ (P := splitPath f.1) ?_
      · rw [← hfl, heq]; simp
      · rw [← hfl, heq]; exact hpre
  · -- every directory is on the way to a file
    rcases hdir k hd with hd | rfl
    · rw [label_of_lt hb hd.lt_length]
      exact hn.dir k hk hd
    · rw [hlabel]
      exact ⟨P, hP, hpre⟩
  · -- and the dictionary knows it
    change List.lookup _ ((path, b.inodes.length) :: b.lookup) = _
    rcases hdir k hd with hd | rfl
    · have hold := hn.known k hk hd
      have hne : joinPath (b.label k) ≠ path := by
        intro heq
        rw [heq, hnone] at hold
        cases hold
      rw [label_of_lt hb hd.lt_length, lookup_cons, beq_false_of_ne hne]
      exact hold
    · rw [hlabel, ← hpath, lookup_cons, beq_self_eq_true]
  · rw [Builder.addDir, lookup_cons] at hq
    split at hq
    · rw [← Option.some.inj hq, hlabel, ← hpath]
      exact .inr (beq_iff_eq.mp ‹_›)
    · rw [label_of_lt hb (h.lookup q k hq).lt_length]
      exact hn.lookup q k hq
  · rcases (fileNode_append hb).mp hf with hk | ⟨-, -, ht⟩
    · rw [label_of_lt hb (lt_length_of_getElem? hk.1)]
      exact hn.file k m hk
    · exact absurd ht (show typeDir ≠ typeFile by decide)
  · obtain ⟨k, m, hs⟩ := hn.stored f hf
    exact ⟨k, m, hs.append hb fun _ _ => rfl⟩

/-- **The loop of `ensure_dir`** on the way to a file ends at the directory of the file. -/
theorem ensureDir_named {parts : List (List Char)} {path : List Char} {p : ℕ} (h : b.Ok)
    (hn : b.Named all done) (hp : b.IsDir parent) (hP : P ∈ all)
    (hpath : path = joinPath (b.label parent)) (hparts : b.label parent ++ parts = P.dropLast)
    (hr : ensureDir parts path parent b = .ok (p, b')) :
    b'.Named all done ∧ b'.label p = P.dropLast := by
  induction parts generalizing path parent b with
  | nil =>
    cases hr
    rw [append_nil] at hparts
    exact ⟨hn, hparts⟩
  | cons part parts ih =>
    have hsplit : b.label parent ++ [part] ++ parts = P.dropLast := by
      rw [append_assoc]
      exact hparts
    have hpre : b.label parent ++ [part] <+: P.dropLast := ⟨parts, hsplit⟩
    have hnext : path ++ '/' :: part = joinPath (b.label parent ++ [part]) := by
      rw [joinPath_concat, hpath]
    rw [ensureDir] at hr
    cases hl : b.lookup.lookup (path ++ '/' :: part) with
    | some i =>
      rw [hl] at hr
      -- the directory that was found has the label that was looked for
      have hlabel : b.label i = b.label parent ++ [part] :=
        hn.label_of_lookup hall h hP hpre (by simp) (hnext ▸ hl)
      exact ih h hn (h.lookup _ i hl) (by rw [hnext, hlabel]) (by rw [hlabel, hsplit]) hr
    | none =>
      rw [hl] at hr
      by_cases hc : b.inodes.length ≥ 64
      · rw [if_pos hc] at hr; cases hr
      · rw [if_neg hc] at hr
        obtain ⟨hok, hdir⟩ := h.addDir (path ++ '/' :: part) part hp (by omega)
        have hlabel : (b.addDir (path ++ '/' :: part) parent part).label b.inodes.length
            = b.label parent ++ [part] := label_addDir hp.lt_length
        exact ih hok (hn.addDir hall hdone h hp hP hpre hnext hl) hdir (by rw [hlabel, hnext])
          (by rw [hlabel, hsplit]) hr

theorem addFile_named (h : b.Ok) (hn : b.Named all done) (hf : splitPath f.1 ∈ all)
    (hfresh : ∀ g ∈ done, splitPath g.1 ≠ splitPath f.1) (hr : addFile b f = .ok b') :
    b'.Named all (f :: done) := by
  obtain ⟨parent, b1, name, he, hlast, -, -, rfl⟩ := addFile_eq_ok hr
  have hroot : b.IsDir 0 := ⟨_, h.root, rfl⟩
  obtain ⟨hok, hdir, -⟩ := ensureDir_ok h hroot he
  obtain ⟨hn1, hlabel⟩ := ensureDir_named hall hdone h hn hroot hf
    (by rw [h.label_root]; rfl) (by rw [h.label_root]; rfl) he
  refine hn1.addData hall hok hdir hf ?_ hfresh
  rw [hlabel]
  exact dropLast_append_getLast? name hlast

end Steps

/-- **The whole run** keeps the names in order, and at its end every file is stored. -/
theorem addFiles_named {all : Set (List (List Char))} (hall : PathSet all)
    {files done : List (List Char × List UInt8)} {b b' : Builder} (h : b.Ok)
    (hn : b.Named all done) (hdone : ∀ f ∈ done, splitPath f.1 ∈ all)
    (hfiles : ∀ f ∈ files, splitPath f.1 ∈ all)
    (hdistinct : (files.map fun f => splitPath f.1).Nodup)
    (hfresh : ∀ f ∈ files, ∀ g ∈ done, splitPath g.1 ≠ splitPath f.1)
    (hr : addFiles files b = .ok b') : b'.Named all (files.reverse ++ done) := by
  induction files generalizing b done with
  | nil =>
    rw [← Except.ok.inj hr]
    exact hn
  | cons f files ih =>
    rw [map_cons, nodup_cons] at hdistinct
    have hf := hfiles f mem_cons_self
    rw [addFiles] at hr
    cases ha : addFile b f with
    | error e => rw [ha] at hr; cases hr
    | ok b1 =>
      rw [ha] at hr
      have hn1 := addFile_named hall hdone h hn hf (hfresh f mem_cons_self) ha
      have hstep := ih (addFile_ok h ha) hn1 (forall_mem_cons.mpr ⟨hf, hdone⟩)
        (fun g hg => hfiles g (mem_cons_of_mem _ hg)) hdistinct.2 ?_ hr
      · rw [reverse_cons, append_assoc]
        exact hstep
      · intro g hg f' hf' heq
        rcases mem_cons.mp hf' with rfl | hf'
        · exact hdistinct.1 (heq ▸ mem_map_of_mem hg)
        · exact hfresh g (mem_cons_of_mem _ hg) f' hf' heq

/-! ### Dictionaries of normalized paths -/

/-- An absolute normalized path: one slash before each component and no other, and components that
fit the name field and its NUL with a byte to spare. -/
structure NormalPath (path : List Char) : Prop where
  absolute : path = joinPath (splitPath path)
  ne_nil : splitPath path ≠ []
  length : ∀ c ∈ splitPath path, c.length ≤ 30
  ascii : ∀ x ∈ path, x.toNat ≠ 0 ∧ x.toNat < 128

/-- The paths of a dictionary are normalized, and none is a proper prefix of another. -/
structure NormalFiles (files : List (List Char × List UInt8)) : Prop where
  normal : ∀ f ∈ files, NormalPath f.1
  free : ∀ f ∈ files, ∀ g ∈ files, splitPath f.1 <+: splitPath g.1 → f.1 = g.1

/-- The component lists of the files of a dictionary. -/
def filePaths (files : List (List Char × List UInt8)) : Set (List (List Char)) :=
  {P | ∃ f ∈ files, splitPath f.1 = P}

section Normal

variable {files : List (List Char × List UInt8)} (hf : NormalFiles files)
include hf

theorem NormalFiles.pathSet : PathSet (filePaths files) := by
  refine ⟨?_, ?_⟩
  · rintro P ⟨f, -, rfl⟩ c hc
    exact ⟨(mem_components hc).1, ne_nil_of_mem_components hc⟩
  · rintro P ⟨f, hfm, rfl⟩ Q ⟨g, hgm, rfl⟩ h
    rw [hf.free f hfm g hgm h]

/-- Distinct paths have distinct components. -/
theorem NormalFiles.nodup (hkeys : (files.map Prod.fst).Nodup) :
    (files.map fun f => splitPath f.1).Nodup := by
  have hmap : (files.map fun f => splitPath f.1) = (files.map Prod.fst).map splitPath := by
    rw [map_map]
    rfl
  rw [hmap]
  refine hkeys.map_on ?_
  intro p hp q hq h
  obtain ⟨f, hfm, rfl⟩ := mem_map.mp hp
  obtain ⟨g, hgm, rfl⟩ := mem_map.mp hq
  exact hf.free f hfm g hgm (h ▸ prefix_refl _)

/-- **The names in the image of a dictionary.** -/
theorem NormalFiles.named (hkeys : (files.map Prod.fst).Nodup) {b : Builder}
    (hadd : addFiles (files.mergeSort pathLe) start = .ok b) :
    b.Named (filePaths files) (files.mergeSort pathLe).reverse := by
  have hperm := mergeSort_perm files pathLe
  have h := addFiles_named hf.pathSet start_ok (start_named _)
    (fun f hf => absurd hf not_mem_nil) (fun f hfm => ⟨f, hperm.mem_iff.mp hfm, rfl⟩)
    ((hperm.map _).nodup_iff.mpr (hf.nodup hkeys))
    (fun f _ g hg => absurd hg not_mem_nil) hadd
  rwa [append_nil] at h

end Normal

/-- The components of a label are components of files. -/
theorem Builder.Named.mem_label {all : Set (List (List Char))}
    {done : List (List Char × List UInt8)} {b : Builder} (hn : b.Named all done) (h : b.Ok)
    (hdone : ∀ f ∈ done, splitPath f.1 ∈ all) {k : ℕ} (hk : k < b.inodes.length) {c : List Char}
    (hc : c ∈ b.label k) : ∃ P ∈ all, c ∈ P := by
  rcases h.entry_cases hk with rfl | ⟨hk0, hkd⟩ | ⟨m, hkf⟩
  · rw [h.label_root] at hc
    cases hc
  · obtain ⟨P, hP, hpre⟩ := hn.dir k hk0 hkd
    exact ⟨P, hP, (hpre.trans (List.dropLast_prefix P)).subset hc⟩
  · obtain ⟨f, hfm, hlabel⟩ := hn.file k m hkf
    exact ⟨_, hdone f hfm, hlabel ▸ hc⟩

end MyOS.Mkfs
