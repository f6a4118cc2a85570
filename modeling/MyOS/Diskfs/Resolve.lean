import MyOS.Diskfs.Path

/-!
# What a path resolves to

`walk t ty cur cs` follows `find_child` with type argument `ty` along the components `cs`.
`find_path` walks `pathParts p` untyped and `ensure_parent_dir` walks all of them but the last
through directories (`findPath_eq`, `ensureParentDir_eq_some_iff`).

So resolution is exact on paths whose components all fit, as long as `diskfs_find_file` does not
fall back on a cut copy of the path. `path_exact_iff` says when it is exact in a given state, and
`longPath_not_exact` is a path on which it is not.
-/

namespace MyOS.Diskfs

open List

/-! ### Walking a list of components -/

/-- `find_child` followed along a list of components. -/
def walk (t : Tables) (ty : UInt8) (cur : Fin 64) : List (List UInt8) → Option (Fin 64)
  | [] => some cur
  | c :: cs => (findChild t (idx32 cur) c ty).bind (fun child => walk t ty child cs)

theorem walk_append (t : Tables) (ty : UInt8) (cur : Fin 64) (cs ds : List (List UInt8)) :
    walk t ty cur (cs ++ ds) = (walk t ty cur cs).bind (fun i => walk t ty i ds) := by
  induction cs generalizing cur with
  | nil => rfl
  | cons c cs ih =>
    rw [cons_append, walk, walk, Option.bind_assoc]
    congr 1
    funext child
    exact ih child

/-- The components that `path_part` delivers, one call after another. -/
def pathParts (p : List UInt8) : List (List UInt8) :=
  (components slash p).takeWhile (fun c => decide (c.length < nameMax))

/-- The components the walkers never see. -/
def skippedParts (p : List UInt8) : List (List UInt8) :=
  (components slash p).dropWhile (fun c => decide (c.length < nameMax))

theorem pathParts_append_skippedParts (p : List UInt8) :
    pathParts p ++ skippedParts p = components slash p := takeWhile_append_dropWhile

variable {p : List UInt8} {t : Tables}

theorem pathParts_of_none (h : pathPart p = none) : pathParts p = [] := by
  rw [pathPart_eq] at h
  unfold pathParts
  cases hcs : components slash p with
  | nil => rfl
  | cons c cs =>
    rw [hcs] at h
    by_cases hlen : c.length < nameMax
    · simp [hlen] at h
    · rw [takeWhile_cons_of_neg (by simpa using hlen)]

theorem pathParts_of_some {part rest : List UInt8} (h : pathPart p = some (part, rest)) :
    pathParts p = part :: pathParts rest := by
  obtain ⟨hcs, hlen, -⟩ := pathPart_some h
  unfold pathParts
  rw [hcs, takeWhile_cons_of_pos (by simpa using hlen)]

@[simp] theorem pathParts_cons_slash (p : List UInt8) : pathParts (slash :: p) = pathParts p := by
  unfold pathParts; rw [components_cons_sep]

theorem findPathLoop_eq (t : Tables) (cursor : List UInt8) (cur : Fin 64) :
    findPathLoop t cursor cur = walk t 0 cur (pathParts cursor) := by
  fun_induction findPathLoop t cursor cur with
  | case1 cursor cur h => rw [pathParts_of_none h]; rfl
  | case2 cursor cur part rest h hc => rw [pathParts_of_some h, walk, hc]; rfl
  | case3 cursor cur part rest h child hc ih =>
    rw [pathParts_of_some h, walk, hc, Option.bind_some]
    exact ih

/-- **`find_path` walks the components that fit.** -/
theorem findPath_eq (t : Tables) (p : List UInt8) :
    findPath t p = walk t 0 rootInode (pathParts p) := findPathLoop_eq t p rootInode

theorem ensureParentDirLoop_eq (t : Tables) (cursor : List UInt8) (cur : Fin 64)
    (part : List UInt8) :
    ensureParentDirLoop t cursor cur part
      = (walk t typeDir cur (part :: pathParts cursor).dropLast).map
          (fun d => (d, (part :: pathParts cursor).getLastD [])) := by
  fun_induction ensureParentDirLoop t cursor cur part with
  | case1 cursor cur part h => rw [pathParts_of_none h]; rfl
  | case2 cursor cur part next rest h hc =>
    rw [pathParts_of_some h, dropLast_cons_cons, walk, hc]; rfl
  | case3 cursor cur part next rest h child hc ih =>
    rw [pathParts_of_some h, dropLast_cons_cons, walk, hc, Option.bind_some, ih]
    rfl

/-- The components `cs` lead to the inode `i`, which is a file. -/
def FileAt (t : Tables) (cs : List (List UInt8)) (i : Fin 64) : Prop :=
  walk t 0 rootInode cs = some i ∧ (t.inodes i).type = typeFile

/-- The components `cs` but the last lead through directories to `parent`, and the last is
`leaf`. -/
def ParentAt (t : Tables) (cs : List (List UInt8)) (parent : Fin 64) (leaf : List UInt8) : Prop :=
  walk t typeDir rootInode cs.dropLast = some parent ∧ cs.getLast? = some leaf

theorem FileAt.unique {cs : List (List UInt8)} {i j : Fin 64} (hi : FileAt t cs i)
    (hj : FileAt t cs j) : i = j := Option.some.inj (hi.1.symm.trans hj.1)

/-- **`ensure_parent_dir` splits off the last component that fits.** -/
theorem ensureParentDir_eq_some_iff (t : Tables) (p : CString) (parent : Fin 64)
    (leaf : List UInt8) :
    ensureParentDir t p = some (parent, leaf) ↔ ParentAt t (pathParts p.bytes) parent leaf := by
  unfold ensureParentDir ParentAt
  cases hp : pathPart p.bytes with
  | none => simp [pathParts_of_none hp]
  | some r =>
    obtain ⟨part, cursor⟩ := r
    dsimp only
    rw [ensureParentDirLoop_eq, pathParts_of_some hp, Option.map_eq_some_iff]
    constructor
    · rintro ⟨d, hd, heq⟩
      cases heq
      refine ⟨hd, ?_⟩
      rw [List.getLast?_eq_some_getLast (cons_ne_nil _ _), getLastD_cons, getLast_eq_getLastD]
    · rintro ⟨hd, hl⟩
      refine ⟨parent, hd, ?_⟩
      rw [getLastD_eq_getLast?, hl]
      rfl

theorem findPathFile_eq_some_iff (t : Tables) (p : List UInt8) (i : Fin 64) :
    findPathFile t p = some i ↔ FileAt t (pathParts p) i := by
  unfold findPathFile FileAt
  rw [findPath_eq, Option.filter_eq_some_iff, beq_iff_eq]

theorem findPathFile_eq_none_iff (t : Tables) (p : List UInt8) :
    findPathFile t p = none ↔ ∀ i, ¬ FileAt t (pathParts p) i := by
  rw [Option.eq_none_iff_forall_ne_some]
  exact forall_congr' fun i => not_congr (findPathFile_eq_some_iff t p i)

/-- The components in the cut copy of a relative path. -/
def cutParts (p : List UInt8) : List (List UInt8) := pathParts (p.take (pathMax - 2))

/-- **`diskfs_find_file`** resolves the components that fit, or else those of the cut copy. -/
theorem diskfsFindFile_eq_some_iff (t : Tables) (p : CString) (i : Fin 64) :
    diskfsFindFile t (some p) = some i ↔ FileAt t (pathParts p.bytes) i ∨
      (p.bytes.head? ≠ some slash ∧ (∀ j, ¬ FileAt t (pathParts p.bytes) j) ∧
        FileAt t (cutParts p.bytes) i) := by
  unfold diskfsFindFile cutParts
  dsimp only
  cases hf : findPathFile t p.bytes with
  | some j =>
    have hj := (findPathFile_eq_some_iff t p.bytes j).mp hf
    rw [Option.some.injEq]
    constructor
    · rintro rfl; exact .inl hj
    · rintro (hi | ⟨-, hno, -⟩)
      · exact hj.unique hi
      · exact absurd hj (hno j)
  | none =>
    have hno := (findPathFile_eq_none_iff t p.bytes).mp hf
    have hcut : findPathFile t (fullPath p.bytes) = some i ↔
        FileAt t (pathParts (p.bytes.take (pathMax - 2))) i := by
      rw [findPathFile_eq_some_iff, fullPath, pathParts_cons_slash]
    by_cases hs : p.bytes.head? = some slash
    · simp [hs, hno i]
    · rw [if_pos (by simpa using hs), hcut]
      constructor
      · exact fun hi => .inr ⟨hs, hno, hi⟩
      · rintro (hi | ⟨-, -, hi⟩)
        · exact absurd hi (hno i)
        · exact hi

/-! ### Exactness -/

/-- Path resolution is exact on `p`: what the walkers return is what all components of the path
lead to. -/
structure PathExact (t : Tables) (p : CString) : Prop where
  file : ∀ i, diskfsFindFile t (some p) = some i →
    components slash p.bytes ≠ [] ∧ FileAt t (components slash p.bytes) i
  parent : ∀ parent leaf, ensureParentDir t p = some (parent, leaf) →
    ParentAt t (components slash p.bytes) parent leaf

/-- The walkers do not stop early on something that is there. Either no component is skipped, or
what the components before the first skipped one lead to is neither a file nor, without the last
of them, a directory, except where the skipped components lead back to the same inode; and the cut
copy of a relative path names no file that the path itself does not name. -/
structure ReadsWhole (t : Tables) (p : CString) : Prop where
  root : components slash p.bytes = [] → (t.inodes rootInode).type ≠ typeFile
  skipped_file : skippedParts p.bytes ≠ [] → ∀ i, FileAt t (pathParts p.bytes) i →
    walk t 0 i (skippedParts p.bytes) = some i
  skipped_parent : skippedParts p.bytes ≠ [] → ∀ parent leaf,
    ParentAt t (pathParts p.bytes) parent leaf →
      walk t typeDir parent (leaf :: skippedParts p.bytes).dropLast = some parent ∧
      (skippedParts p.bytes).getLast? = some leaf
  cut : p.bytes.head? ≠ some slash → (∀ j, ¬ FileAt t (pathParts p.bytes) j) →
    ∀ i, FileAt t (cutParts p.bytes) i → FileAt t (components slash p.bytes) i

/-- With nothing skipped the walkers see the whole path. -/
theorem pathParts_of_skippedParts_nil (h : skippedParts p = []) :
    pathParts p = components slash p := by
  rw [← pathParts_append_skippedParts p, h, append_nil]

theorem pathParts_eq_nil (h : components slash p = []) : pathParts p = [] := by
  unfold pathParts; rw [h]; rfl

/-- A path without components cuts to one without components. -/
theorem cutParts_eq_nil (hs : p.head? ≠ some slash) (h : components slash p = []) :
    cutParts p = [] := by
  cases p with
  | nil => rfl
  | cons c p =>
    have hc : (c :: p).head? ≠ some slash := hs
    rw [components_run (cons_ne_nil _ _) hc] at h
    exact absurd h (cons_ne_nil _ _)

/-- Walking the skipped components from where the others lead. -/
theorem walk_components {ty : UInt8} {i : Fin 64} (h : walk t ty rootInode (pathParts p) = some i) :
    walk t ty rootInode (components slash p) = walk t ty i (skippedParts p) := by
  rw [← pathParts_append_skippedParts p, walk_append, h, Option.bind_some]

theorem parentAt_components_iff {parent : Fin 64} {leaf : List UInt8} (hs : skippedParts p ≠ [])
    (h : ParentAt t (pathParts p) parent leaf) :
    ParentAt t (components slash p) parent leaf ↔
      walk t typeDir parent (leaf :: skippedParts p).dropLast = some parent ∧
      (skippedParts p).getLast? = some leaf := by
  have hsplit : (pathParts p).dropLast ++ [leaf] = pathParts p :=
    dropLast_append_getLast? leaf h.2
  have hcomp : components slash p = (pathParts p).dropLast ++ (leaf :: skippedParts p) := by
    rw [← pathParts_append_skippedParts p]
    conv_lhs => rw [← hsplit]
    rw [append_assoc]; rfl
  unfold ParentAt
  rw [hcomp, dropLast_append_of_ne_nil (cons_ne_nil _ _), walk_append, h.1,
    Option.bind_some, List.getLast?_append_of_ne_nil _ (cons_ne_nil _ _),
    List.getLast?_cons_of_ne_nil hs]

/-- **When path resolution is exact.** In every state and for every path, `diskfs_find_file` and
`ensure_parent_dir` resolve the whole path exactly when they do not stop early on something that
is there. -/
theorem path_exact_iff (t : Tables) (p : CString) : PathExact t p ↔ ReadsWhole t p := by
  constructor
  · intro h
    have hfile : ∀ i, FileAt t (pathParts p.bytes) i →
        components slash p.bytes ≠ [] ∧ FileAt t (components slash p.bytes) i :=
      fun i hi => h.file i ((diskfsFindFile_eq_some_iff t p i).mpr (.inl hi))
    refine ⟨fun hnil hroot => ?_, fun _ i hi => ?_, fun hs parent leaf hp => ?_,
      fun hrel hno i hi => ?_⟩
    · have hat : FileAt t (pathParts p.bytes) rootInode := by
        rw [pathParts_eq_nil hnil]; exact ⟨rfl, hroot⟩
      exact (hfile rootInode hat).1 hnil
    · rw [← walk_components hi.1]
      exact (hfile i hi).2.1
    · exact (parentAt_components_iff hs hp).mp
        (h.parent parent leaf ((ensureParentDir_eq_some_iff t p parent leaf).mpr hp))
    · exact (h.file i ((diskfsFindFile_eq_some_iff t p i).mpr (.inr ⟨hrel, hno, hi⟩))).2
  · intro h
    refine ⟨fun i hi => ?_, fun parent leaf hp => ?_⟩
    · rcases (diskfsFindFile_eq_some_iff t p i).mp hi with hi | ⟨hrel, hno, hi⟩
      · have hne : components slash p.bytes ≠ [] := by
          intro hnil
          rw [pathParts_eq_nil hnil] at hi
          obtain rfl : rootInode = i := Option.some.inj hi.1
          exact h.root hnil hi.2
        refine ⟨hne, ?_, hi.2⟩
        by_cases hs : skippedParts p.bytes = []
        · rw [← pathParts_of_skippedParts_nil hs]; exact hi.1
        · rw [walk_components hi.1]; exact h.skipped_file hs i hi
      · refine ⟨fun hnil => hno i ?_, h.cut hrel hno i hi⟩
        rw [pathParts_eq_nil hnil]
        rwa [cutParts_eq_nil hrel hnil] at hi
    · have hp' := (ensureParentDir_eq_some_iff t p parent leaf).mp hp
      by_cases hs : skippedParts p.bytes = []
      · rw [← pathParts_of_skippedParts_nil hs]; exact hp'
      · exact (parentAt_components_iff hs hp').mpr (h.skipped_parent hs parent leaf hp')

/-! ### A path on which it is not -/

/-- `hello.txt`. -/
def helloName : List UInt8 := [104, 101, 108, 108, 111, 46, 116, 120, 116]

/-- Tables with a root directory and the file `hello.txt`. -/
def helloTables : Tables where
  superblock := ⟨diskfsMagic, 4096, 64, 2, 2, 1, 3, 8, 11, 0⟩
  inodes := fun i =>
    if i.val = 0 then ⟨typeDir, 0, 0, 0, 0, 0, 0, Bytes.zero, Bytes.zero⟩
    else if i.val = 1 then ⟨typeFile, 0, 0, 81, 11, 1, 0, nameOf helloName, Bytes.zero⟩
    else Inode.zero
  bitmap := Bytes.ofFun (fun i => if i = 0 then 255 else if i = 1 then 15 else 0)

/-- `/hello.txt/` followed by a component of 31 bytes. -/
def longPath : CString where
  bytes := slash :: helloName ++ slash :: List.replicate 31 98
  nul_free := by decide

/-- `diskfs_find_file` resolves `/hello.txt/bbb…b` to `/hello.txt`. -/
theorem longPath_not_exact : ¬ PathExact helloTables longPath := by
  have hparts : pathParts longPath.bytes = [helloName] := by decide
  have hcomps : components slash longPath.bytes = [helloName, List.replicate 31 98] := by decide
  have hat : FileAt helloTables (pathParts longPath.bytes) 1 := by
    rw [hparts]; exact ⟨by decide, rfl⟩
  intro h
  obtain ⟨-, hwalk, -⟩ := h.file 1 ((diskfsFindFile_eq_some_iff _ _ 1).mpr (.inl hat))
  rw [hcomps] at hwalk
  cases hwalk

end MyOS.Diskfs
