import MyOS.Diskfs.Write
import MyOS.Mkfs.Names

/-!
# The directory tree

`Tree t label` says that the live slots of `t` form a tree: every slot but the root has a directory
as its parent, and `label` spells its path. The operations never check this; it holds because they
only ever move files, and only below directories they have found (`Change.tree`).

A walk spells the label of where it ends (`Tree.walk_label`), so a slot is reached by one list of
components only.
-/

namespace MyOS.Diskfs

open Function List

/-- A live directory. -/
def Tables.IsDir (t : Tables) (i : Fin 64) : Prop := t.InUse i ∧ (t.inodes i).type = typeDir

/-- The live slots form a tree under the root, and `label` spells the path of each. -/
structure Tree (t : Tables) (label : Fin 64 → List (List UInt8)) : Prop where
  root_dir : t.IsDir rootInode
  root_name : cstr (t.inodes rootInode).name = []
  root_label : label rootInode = []
  child : ∀ i, t.InUse i → (t.inodes i).type ≠ 0 → i ≠ rootInode →
    ∃ p, t.IsDir p ∧ (t.inodes i).parent = idx32 p ∧ label i = label p ++ [cstr (t.inodes i).name]

/-! ### Walks in a tree -/

section Walk

variable {t : Tables} {label : Fin 64 → List (List UInt8)} {cs : List (List UInt8)}

/-- What `find_child` finds is the child of a directory, and its label says so. -/
theorem Tree.isChild (h : Tree t label) {cur i : Fin 64} {c : List UInt8} {ty : UInt8}
    (hc : IsChild t (idx32 cur) c ty i) (hne : c ≠ []) :
    t.IsDir cur ∧ label i = label cur ++ [c] := by
  have hroot : i ≠ rootInode := by
    rintro rfl
    exact hne (hc.name.symm.trans h.root_name)
  obtain ⟨p, hp, hparent, hlabel⟩ := h.child i hc.inUse hc.live hroot
  obtain rfl : p = cur := idx32_inj.mp (hparent.symm.trans hc.parent)
  exact ⟨hp, by rw [hlabel, hc.name]⟩

/-- **A walk spells the label of where it ends.** -/
theorem Tree.walk_label (h : Tree t label) {ty : UInt8}
    (hcs : ∀ c ∈ cs, LeafOk c) {cur i : Fin 64} (hw : walk t ty cur cs = some i) :
    label i = label cur ++ cs := by
  induction cs generalizing cur with
  | nil => rw [append_nil, Option.some.inj hw]
  | cons c cs ih =>
    have hc := hcs c mem_cons_self
    obtain ⟨child, hchild, hrest⟩ := Option.bind_eq_some_iff.mp hw
    obtain ⟨-, hlabel⟩ := h.isChild ((findChild_eq_some_iff hc.nul_free).mp hchild).1 hc.ne_nil
    rw [ih (fun d hd => hcs d (mem_cons_of_mem _ hd)) hrest, hlabel, append_assoc]
    rfl

/-- The typed walk ends in a directory. -/
theorem Tree.walk_isDir (h : Tree t label) {i : Fin 64}
    (hw : walk t typeDir rootInode cs = some i) : t.IsDir i := by
  rcases eq_nil_or_concat cs with rfl | ⟨cs, c, rfl⟩
  · rw [← Option.some.inj hw]
    exact h.root_dir
  · rw [concat_eq_append, walk_append] at hw
    obtain ⟨d, -, hlast⟩ := Option.bind_eq_some_iff.mp hw
    obtain ⟨j, hj, hji⟩ := Option.bind_eq_some_iff.mp hlast
    cases hji
    have htest := (find?_finRange_eq_some_iff.mp hj).1
    simp only [Bool.and_eq_true, decide_eq_true_eq, Bool.or_eq_true, beq_iff_eq] at htest
    exact ⟨htest.1.1.1.1, htest.1.2.resolve_left (by decide)⟩

/-- **Where labels are unique they are paths**: the untyped walk along the label of a live slot
ends there. -/
theorem Tree.walk_of_label (h : Tree t label)
    (hinj : ∀ i j, t.InUse i → (t.inodes i).type ≠ 0 → t.InUse j → (t.inodes j).type ≠ 0 →
      label i = label j → i = j)
    (hname : ∀ i, t.InUse i → (t.inodes i).type ≠ 0 → i ≠ rootInode → cstr (t.inodes i).name ≠ [])
    {i : Fin 64} (hu : t.InUse i) (hl : (t.inodes i).type ≠ 0) :
    walk t 0 rootInode (label i) = some i := by
  induction hn : (label i).length generalizing i with
  | zero =>
    -- only the root has the empty label
    have hroot := h.root_dir
    have heq : i = rootInode := by
      refine hinj i rootInode hu hl hroot.1 (by rw [hroot.2]; decide) ?_
      rw [h.root_label, length_eq_zero_iff.mp hn]
    rw [heq, h.root_label]
    rfl
  | succ n ih =>
    have hi : i ≠ rootInode := by
      rintro rfl
      rw [h.root_label] at hn
      cases hn
    obtain ⟨p, hp, hparent, hlabel⟩ := h.child i hu hl hi
    have hlen : (label p).length = n := by
      rw [hlabel] at hn
      simpa using hn
    have hfind : findChild t (idx32 p) (cstr (t.inodes i).name) 0 = some i := by
      refine (findChild_eq_some_iff (nul_not_mem_cstr _)).mpr
        ⟨⟨hu, hl, hparent, .inl rfl, rfl⟩, fun j hj hc => ?_⟩
      -- another child of this name would have the same label
      obtain ⟨-, hjl⟩ := h.isChild hc (hname i hu hl hi)
      exact absurd (hinj j i hc.inUse hc.live hu hl (hjl.trans hlabel.symm)) (ne_of_lt hj)
    rw [hlabel, walk_append, ih hp.1 (by rw [hp.2]; decide) hlen, Option.bind_some, walk, hfind]
    rfl

end Walk

/-! ### The tree survives every operation -/

section Preserve

variable {leak : Set ℕ} {t t' : Tables} {label : Fin 64 → List (List UInt8)} {i : Fin 64}

theorem Tree.setJournal (h : Tree t label) (state : UInt32) : Tree (t.setJournal state) label :=
  ⟨h.root_dir, h.root_name, h.root_label, h.child⟩

/-- One slot that is not a directory changes: if it is live afterwards, its parent is a directory.
The labels of all other slots stay. -/
theorem Tree.replaces (h : Tree t label) (hr : Replaces t t' i) (hdir : (t.inodes i).type ≠ typeDir)
    (lab : List (List UInt8))
    (hlive : (t'.inodes i).type ≠ 0 → ∃ p, t.IsDir p ∧ (t'.inodes i).parent = idx32 p ∧
      lab = label p ++ [cstr (t'.inodes i).name]) :
    Tree t' (update label i lab) := by
  have hne : ∀ p, t.IsDir p → p ≠ i := by
    rintro p hp rfl
    exact hdir hp.2
  have hkeep : ∀ p, t.IsDir p → t'.IsDir p := by
    intro p hp
    refine ⟨(hr.inUse p).mpr (.inl hp.1), ?_⟩
    rw [hr.inodes p (hne p hp)]
    exact hp.2
  have hroot := hne rootInode h.root_dir
  refine ⟨hkeep _ h.root_dir, ?_, ?_, fun j hu hl hj => ?_⟩
  · rw [hr.inodes _ hroot]
    exact h.root_name
  · rw [update_of_ne hroot]
    exact h.root_label
  · by_cases hji : j = i
    · subst hji
      obtain ⟨p, hp, hparent, hlab⟩ := hlive hl
      refine ⟨p, hkeep p hp, hparent, ?_⟩
      rw [update_self, update_of_ne (hne p hp)]
      exact hlab
    · have hu' : t.InUse j := ((hr.inUse j).mp hu).resolve_right hji
      rw [hr.inodes j hji] at hl ⊢
      obtain ⟨p, hp, hparent, hlab⟩ := h.child j hu' hl hj
      refine ⟨p, hkeep p hp, hparent, ?_⟩
      rw [update_of_ne hji, update_of_ne (hne p hp)]
      exact hlab

/-- **A change keeps the tree.** -/
theorem Change.tree {kind : Kind} {w : BlockAction} (h : t.Consistent leak) (ht : Tree t label)
    (hc : Change t i kind t' w) : ∃ label', Tree t' label' := by
  have hr := hc.replaces h
  have hputs := hc.puts h
  have hfile : t.IsFile i → (t.inodes i).type ≠ typeDir := fun hi => by rw [hi.2]; decide
  cases hc with
  | resize hi hsize hres =>
    -- the slot keeps its place in the tree
    obtain ⟨first, hino⟩ := hputs
    refine ⟨_, ht.replaces hr (hfile hi) (label i) fun _ => ?_⟩
    have hroot : i ≠ rootInode := by
      rintro rfl
      exact hfile hi ht.root_dir.2
    rw [hino]
    exact ht.child i hi.1 (by rw [hi.2]; decide) hroot
  | create hdir hleaf hnone hsize hn =>
    obtain ⟨cs, hw⟩ := hdir
    obtain ⟨hfree, first, hino⟩ := hputs
    refine ⟨_, ht.replaces hr (by rw [hfree]; decide) _ fun _ => ⟨_, ht.walk_isDir hw, ?_, rfl⟩⟩
    rw [hino]
    rfl
  | remove hi =>
    refine ⟨_, ht.replaces hr (hfile hi) [] fun hl => absurd ?_ hl⟩
    rw [hputs]
    rfl
  | move hi hdir hleaf hnone =>
    obtain ⟨cs, hw⟩ := hdir
    refine ⟨_, ht.replaces hr (hfile hi) _ fun _ => ⟨_, ht.walk_isDir hw, ?_, rfl⟩⟩
    rw [hputs]

/-- Claiming a slot keeps the tree. -/
theorem Claims.tree (hc : Claims t t' i) (ht : Tree t label) : ∃ label', Tree t' label' := by
  refine ⟨_, ht.replaces hc.replaces (by rw [hc.free]; decide) [] fun hl => absurd ?_ hl⟩
  rw [hc.inodes]
  exact hc.free

end Preserve

/-- The live slots form a tree. -/
def Tables.IsTree (t : Tables) : Prop := ∃ label, Tree t label

/-- The tree is kept. -/
theorem Kept.isTree (leak : Set ℕ) : Kept leak Tables.IsTree where
  journal := fun state ⟨label, ht⟩ => ⟨label, ht.setJournal state⟩
  claims := fun hc ⟨_, ht⟩ => hc.tree ht
  change := fun h hc ⟨_, ht⟩ => hc.tree h ht

section

variable {leak : Set ℕ} {s : Fs} (h : s.tables.Consistent leak) (ht : s.tables.IsTree)
include h ht

/-- **The tree survives every operation**, on any drive. -/
theorem exec_isTree (op : Op) : (op.exec s).2.tables.IsTree :=
  (Kept.isTree leak).exec h ht op

theorem run_isTree (ops : List Op) : (run s ops).tables.IsTree :=
  (Kept.isTree leak).run h ht ops

end

/-! ### The tree of a built image -/

/-- The label of a slot in the tables of a builder: the names as the inodes hold them. -/
def builtLabel (b : Mkfs.Builder) (i : Fin 64) : List (List UInt8) :=
  (b.label i.val).map fun name => cstr (nameOf (Mkfs.nameBytes name))

/-- The entries of a builder form a tree. -/
theorem builtTables_tree {b : Mkfs.Builder} (h : b.Ok) :
    Tree (Mkfs.builtTables b) (builtLabel b) := by
  have hdir : ∀ i : Fin 64, b.IsDir i.val → (Mkfs.builtTables b).IsDir i := by
    rintro i ⟨node, hn, ht⟩
    refine ⟨(Mkfs.built_inUse_iff h i).mpr (Mkfs.lt_length_of_getElem? hn), ?_⟩
    rw [Mkfs.builtTables_inode hn]
    exact ht
  refine ⟨?_, ?_, ?_, fun i hu hl hroot => ?_⟩
  · exact hdir rootInode ⟨_, h.root, rfl⟩
  · rw [Mkfs.builtTables_inode (i := rootInode) h.root]
    decide
  · rw [builtLabel, show rootInode.val = 0 from rfl, h.label_root]
    rfl
  · obtain ⟨node, hn, hin⟩ := Mkfs.built_node h hu
    have hi0 : i.val ≠ 0 := fun h0 => hroot (Fin.ext h0)
    obtain ⟨hlt, hpdir⟩ := h.parent i.val node hn hi0
    refine ⟨⟨node.parent, by omega⟩, hdir _ hpdir, ?_, ?_⟩
    · rw [hin]
      rfl
    · rw [hin, builtLabel, Mkfs.Builder.label_child hn hlt, map_append]
      rfl

theorem MountedImage.isTree {s : Fs} (h : MountedImage s) : s.tables.IsTree := by
  obtain ⟨-, -, -, -, b, b', -, -, hok, rfl, -⟩ := h.eq
  exact ⟨_, builtTables_tree hok⟩

end MyOS.Diskfs
