import MyOS.Diskfs.State
import MyOS.Lib.Components

/-!
# Path resolution in diskfs

`path_part`, `find_child`, `find_path`, `ensure_parent_dir` and `diskfs_find_file` of
`kernel/fs/diskfs/diskfs.c`. They are compared with the list `components slash p` of all maximal
runs of non-`/` bytes of a path, and the walk of `find_child` along such a list (`walk`). The
walkers of the code walk `pathParts p`, the components before the first one longer than 30 bytes:
`path_part` reports such a component like the end of the path.
-/

namespace MyOS.Diskfs

open List

/-! ### Strings -/

/-- The byte `'/'`. -/
def slash : UInt8 := 47

/-- The string stored in a name field: its bytes before the first NUL. -/
def cstr (name : Bytes 32) : List UInt8 := (List.ofFn name).takeWhile (· != 0)

/-- A search over all indices returns the first that passes. -/
theorem find?_finRange_eq_some_iff {n : ℕ} {p : Fin n → Bool} {i : Fin n} :
    (List.finRange n).find? p = some i ↔ p i = true ∧ ∀ j < i, p j = false := by
  rw [find?_eq_some_iff_getElem]
  constructor
  · rintro ⟨hp, k, hk, rfl, hmin⟩
    refine ⟨hp, fun j hj => ?_⟩
    have hjk : j.val < k := by simpa using Fin.lt_def.mp hj
    simpa using hmin j.val hjk
  · rintro ⟨hp, hmin⟩
    refine ⟨hp, i.val, by simp, by simp, fun j hj => ?_⟩
    simpa using hmin ⟨j, hj.trans i.isLt⟩ hj

theorem find?_finRange_eq_none_iff {n : ℕ} {p : Fin n → Bool} :
    (List.finRange n).find? p = none ↔ ∀ i, p i = false := by
  simp [find?_eq_none, mem_finRange]

/-- The zeroed name field into which a string was copied. -/
def nameOf (s : List UInt8) : Bytes 32 := Bytes.ofFun (fun i => s.getD i 0)

/-- `kstrcmp` on the bytes before the NULs. -/
def kstrcmp : List UInt8 → List UInt8 → ℤ
  | [], [] => 0
  | [], r :: _ => 0 - r.toNat
  | l :: _, [] => l.toNat - 0
  | l :: left, r :: right => if l != r then (l.toNat : ℤ) - r.toNat else kstrcmp left right

theorem kstrcmp_eq_zero_iff {left right : List UInt8} (hl : (0 : UInt8) ∉ left)
    (hr : (0 : UInt8) ∉ right) : kstrcmp left right = 0 ↔ left = right := by
  have pos : ∀ {c : UInt8}, c ≠ 0 → c.toNat ≠ 0 :=
    fun hc h => hc (UInt8.toNat_inj.mp (h.trans UInt8.toNat_zero.symm))
  induction left generalizing right with
  | nil =>
    cases right with
    | nil => simp [kstrcmp]
    | cons r right =>
      have hr0 : r ≠ 0 := fun h => hr (by rw [h]; exact mem_cons_self)
      simp [kstrcmp, pos hr0]
  | cons l left ih =>
    have hl0 : l ≠ 0 := fun h => hl (by rw [h]; exact mem_cons_self)
    cases right with
    | nil =>
      simp [kstrcmp, pos hl0]
    | cons r right =>
      have ih' := ih (fun h => hl (mem_cons_of_mem _ h)) (fun h => hr (mem_cons_of_mem _ h))
      by_cases hlr : l = r
      · subst hlr
        simp [kstrcmp, ih']
      · have hne : (l.toNat : ℤ) - r.toNat ≠ 0 := by
          intro h
          apply hlr
          apply UInt8.toNat_inj.mp
          omega
        simp [kstrcmp, hlr, hne]

theorem nul_not_mem_cstr (name : Bytes 32) : (0 : UInt8) ∉ cstr name := by
  intro h
  have := mem_takeWhile_imp h
  simp at this

/-- A string that fits with its NUL is what the field then holds. -/
theorem cstr_nameOf {l : List UInt8} (hlen : l.length < 32) (h0 : (0 : UInt8) ∉ l) :
    cstr (nameOf l) = l := by
  have hfield : ofFn (nameOf l) = l ++ replicate (32 - l.length) 0 := by
    refine ext_getElem (by simp; omega) fun k hk _ => ?_
    rw [List.getElem_ofFn]
    change l.getD k 0 = _
    rw [getD_eq_getElem?_getD]
    by_cases hlt : k < l.length
    · rw [getElem_append_left hlt, getElem?_eq_getElem hlt, Option.getD_some]
    · rw [getElem_append_right (by omega), getElem?_eq_none (by omega),
        getElem_replicate, Option.getD_none]
  unfold cstr
  rw [hfield, takeWhile_append_of_pos (fun c hc => ?_)]
  · have hz : replicate (32 - l.length) (0 : UInt8)
        = 0 :: replicate (32 - l.length - 1) 0 := by
      rw [← replicate_succ]; congr 1; omega
    rw [hz, takeWhile_cons_of_neg (by simp), append_nil]
  · exact bne_iff_ne.mpr fun hc0 => h0 (hc0 ▸ hc)

/-- `inode_name_valid` on the bytes of a name buffer. -/
def inodeNameValid (name : ℕ → UInt8) : Bool :=
  if name 0 == 0 then false else (List.range 32).any (fun i => name i == 0)

/-! ### The walkers -/

/-- The copying loop of `path_part`: `p` is what is left to read, `part` what was copied. -/
def copyPart : List UInt8 → List UInt8 → Option (List UInt8 × List UInt8)
  | [], part => some (part, [])
  | c :: p, part =>
    if c == slash then some (part, c :: p)
    else if part.length + 1 ≥ nameMax then none
    else copyPart p (part ++ [c])

/-- `path_part`: the next component and the cursor after it. It answers `none` both at the end of
the path and on a component that does not fit. -/
def pathPart (cursor : List UInt8) : Option (List UInt8 × List UInt8) :=
  match cursor.dropWhile (· == slash) with
  | [] => none
  | p => (copyPart p []).filter (fun r => decide (r.1.length > 0))

/-- `find_child`. -/
def findChild (t : Tables) (parent : UInt32) (name : List UInt8) (typeOrZero : UInt8) :
    Option (Fin 64) :=
  (List.finRange 64).find? (fun i => decide (t.InUse i) && (t.inodes i).type != 0 &&
    (t.inodes i).parent == parent && (typeOrZero == 0 || (t.inodes i).type == typeOrZero) &&
    kstrcmp (cstr (t.inodes i).name) name == 0)

/-- Slot `i` is what `find_child` looks for. -/
structure IsChild (t : Tables) (parent : UInt32) (name : List UInt8) (typeOrZero : UInt8)
    (i : Fin 64) : Prop where
  inUse : t.InUse i
  live : (t.inodes i).type ≠ 0
  parent : (t.inodes i).parent = parent
  type : typeOrZero = 0 ∨ (t.inodes i).type = typeOrZero
  name : cstr (t.inodes i).name = name

section FindChild

variable {t : Tables} {parent : UInt32} {name : List UInt8} {typeOrZero : UInt8} {i : Fin 64}

theorem findChild_test_iff (hname : (0 : UInt8) ∉ name) :
    (decide (t.InUse i) && (t.inodes i).type != 0 && (t.inodes i).parent == parent &&
      (typeOrZero == 0 || (t.inodes i).type == typeOrZero) &&
      kstrcmp (cstr (t.inodes i).name) name == 0) = true ↔
    IsChild t parent name typeOrZero i := by
  simp only [Bool.and_eq_true, decide_eq_true_eq, bne_iff_ne, ne_eq, beq_iff_eq, Bool.or_eq_true,
    kstrcmp_eq_zero_iff (nul_not_mem_cstr _) hname]
  constructor
  · rintro ⟨⟨⟨⟨hu, hl⟩, hp⟩, ht⟩, hn⟩
    exact ⟨hu, hl, hp, ht, hn⟩
  · rintro ⟨hu, hl, hp, ht, hn⟩
    exact ⟨⟨⟨⟨hu, hl⟩, hp⟩, ht⟩, hn⟩

/-- `find_child` returns the lowest child. -/
theorem findChild_eq_some_iff (hname : (0 : UInt8) ∉ name) :
    findChild t parent name typeOrZero = some i ↔ IsChild t parent name typeOrZero i ∧
      ∀ j < i, ¬ IsChild t parent name typeOrZero j := by
  unfold findChild
  rw [find?_finRange_eq_some_iff, findChild_test_iff hname]
  refine and_congr_right fun _ => forall_congr' fun j => imp_congr_right fun _ => ?_
  rw [← findChild_test_iff hname, Bool.not_eq_true]

theorem findChild_eq_none_iff (hname : (0 : UInt8) ∉ name) :
    findChild t parent name typeOrZero = none ↔ ∀ i, ¬ IsChild t parent name typeOrZero i := by
  unfold findChild
  rw [find?_finRange_eq_none_iff]
  refine forall_congr' fun j => ?_
  rw [← findChild_test_iff hname, Bool.not_eq_true]

end FindChild

theorem copyPart_eq (p : List UInt8) {part : List UInt8} (hpart : part.length < nameMax) :
    copyPart p part = if part.length + (p.takeWhile (· != slash)).length < nameMax then
      some (part ++ p.takeWhile (· != slash), p.dropWhile (· != slash)) else none := by
  induction p generalizing part with
  | nil => simp [copyPart, hpart]
  | cons c p ih =>
    unfold copyPart
    by_cases hc : c = slash
    · subst hc
      simp [hpart]
    · have hne : (c != slash) = true := by simpa using hc
      rw [if_neg (by simpa using hc), takeWhile_cons_of_pos (p := (· != slash)) hne,
        dropWhile_cons_of_pos (p := (· != slash)) hne, length_cons]
      by_cases hlen : part.length + 1 ≥ nameMax
      · rw [if_pos hlen, if_neg (by omega)]
      · have happ : (part ++ [c]).length = part.length + 1 := by simp
        rw [if_neg hlen, ih (by omega), happ]
        by_cases hrun : part.length + 1 + (p.takeWhile (· != slash)).length < nameMax
        · rw [if_pos hrun, if_pos (by omega)]
          simp
        · rw [if_neg hrun, if_neg (by omega)]

/-- **`path_part` reads one component**: the first of the path, when it has at most 30 bytes. -/
theorem pathPart_eq (cursor : List UInt8) : pathPart cursor = match components slash cursor with
      | [] => none
      | c :: _ => if c.length < nameMax then
          some (c, (cursor.dropWhile (· == slash)).dropWhile (· != slash)) else none := by
  unfold pathPart
  rw [← components_dropWhile slash cursor]
  cases hp : cursor.dropWhile (· == slash) with
  | nil => simp
  | cons c p =>
    have hhead : (c :: p).head? ≠ some slash := by
      have h := head?_dropWhile_not (fun x => x == slash) cursor
      rw [hp] at h
      simpa using h
    have hc : c ≠ slash := fun h => hhead (by rw [h]; rfl)
    have hne : (c != slash) = true := by simpa using hc
    rw [components_run (cons_ne_nil _ _) hhead]
    have hrun : (c :: p).takeWhile (· != slash) ≠ [] := by
      rw [takeWhile_cons_of_pos (p := (· != slash)) hne]; exact cons_ne_nil _ _
    dsimp only
    rw [copyPart_eq _ (by decide), length_nil, Nat.zero_add, nil_append]
    by_cases hlen : ((c :: p).takeWhile (· != slash)).length < nameMax
    · rw [if_pos hlen, Option.filter_some, if_pos]
      simpa using length_pos_iff.mpr hrun
    · rw [if_neg hlen, Option.filter_none]

/-- The cursor moves forward, and leaves the other components to read. -/
theorem pathPart_some {cursor part rest : List UInt8} (h : pathPart cursor = some (part, rest)) :
    components slash cursor = part :: components slash rest ∧ part.length < nameMax ∧
      rest.length < cursor.length := by
  rw [pathPart_eq] at h
  cases hcs : components slash cursor with
  | nil => rw [hcs] at h; cases h
  | cons c cs =>
    rw [hcs] at h
    simp only at h
    by_cases hlen : c.length < nameMax
    · rw [if_pos hlen] at h
      obtain ⟨rfl, rfl⟩ := Prod.mk.inj (Option.some.inj h)
      have hne : cursor.dropWhile (· == slash) ≠ [] := by
        intro hnil
        rw [← components_dropWhile, hnil] at hcs
        cases hcs
      have hhead : (cursor.dropWhile (· == slash)).head? ≠ some slash := by
        cases hp : cursor.dropWhile (· == slash) with
        | nil => simp
        | cons d p =>
          have h := head?_dropWhile_not (fun x => x == slash) cursor
          rw [hp] at h
          simpa using h
      have hrun := components_run hne hhead
      rw [components_dropWhile, hcs] at hrun
      obtain ⟨hc, hcs'⟩ := cons.inj hrun
      refine ⟨by rw [hcs'], hlen, ?_⟩
      have hlen1 := (dropWhile_sublist (· == slash) (l := cursor)).length_le
      have hlen2 : ((cursor.dropWhile (· == slash)).takeWhile (· != slash)).length
          + ((cursor.dropWhile (· == slash)).dropWhile (· != slash)).length
          = (cursor.dropWhile (· == slash)).length := by
        rw [← length_append, takeWhile_append_dropWhile]
      have hpos : 0 < ((cursor.dropWhile (· == slash)).takeWhile (· != slash)).length := by
        rw [← hc]
        have hmem : c ∈ components slash cursor := hcs ▸ mem_cons_self
        exact length_pos_iff.mpr (ne_nil_of_mem_components hmem)
      omega
    · rw [if_neg hlen] at h
      cases h

/-- The loop of `find_path`. -/
def findPathLoop (t : Tables) (cursor : List UInt8) (current : Fin 64) : Option (Fin 64) :=
  match _h : pathPart cursor with
  | none => some current
  | some (part, cursor') =>
    match findChild t (idx32 current) part 0 with
    | none => none
    | some child => findPathLoop t cursor' child
termination_by cursor.length
decreasing_by exact (pathPart_some _h).2.2

/-- `find_path`. With no component read, `saw_part` makes it answer the root, which `current` still
is. -/
def findPath (t : Tables) (path : List UInt8) : Option (Fin 64) := findPathLoop t path rootInode

/-- The loop of `ensure_parent_dir`: `part` is the component read last. -/
def ensureParentDirLoop (t : Tables) (cursor : List UInt8) (current : Fin 64)
    (part : List UInt8) : Option (Fin 64 × List UInt8) :=
  match _h : pathPart cursor with
  | none => some (current, part)
  | some (next, cursor') =>
    match findChild t (idx32 current) part typeDir with
    | none => none
    | some child => ensureParentDirLoop t cursor' child next
termination_by cursor.length
decreasing_by exact (pathPart_some _h).2.2

/-- `ensure_parent_dir`: the parent directory and the leaf. -/
def ensureParentDir (t : Tables) (path : CString) : Option (Fin 64 × List UInt8) :=
  match pathPart path.bytes with
  | none => none
  | some (part, cursor) => ensureParentDirLoop t cursor rootInode part

/-- The index `find_path` returns, when it is one of a file. -/
def findPathFile (t : Tables) (path : List UInt8) : Option (Fin 64) :=
  (findPath t path).filter (fun i => (t.inodes i).type == typeFile)

/-- The copy `diskfs_find_file` makes of a path without a leading slash: a slash and the first
62 bytes. -/
def fullPath (path : List UInt8) : List UInt8 := slash :: path.take (pathMax - 2)

/-- `diskfs_find_file`; `none` is the null pointer. -/
def diskfsFindFile (t : Tables) (path : Option CString) : Option (Fin 64) :=
  match path with
  | none => none
  | some path =>
    match findPathFile t path.bytes with
    | some i => some i
    | none => if path.bytes.head? != some slash then findPathFile t (fullPath path.bytes) else none

end MyOS.Diskfs
