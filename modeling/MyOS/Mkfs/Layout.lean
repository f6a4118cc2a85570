import MyOS.Mkfs.Build
import MyOS.Diskfs.Consistent

/-!
# The layout of a built image

`Builder.Ok` is the invariant of the loops of `mkfs.py`: the root comes first, parents are
directories that precede their children, and the files occupy the data area one after another,
without gaps. `addFiles_ok` carries it through the whole run.
-/

namespace MyOS.Mkfs

open Diskfs ExtentAlloc List

/-! ### The builder invariant -/

/-- Slot `k` of the list is a directory. -/
def Builder.IsDir (b : Builder) (k : ℕ) : Prop :=
  ∃ node : Node, b.inodes[k]? = some node ∧ node.type = typeDir

/-- Slot `k` of the list is the file `node`. -/
def Builder.FileNode (b : Builder) (k : ℕ) (node : Node) : Prop :=
  b.inodes[k]? = some node ∧ node.type = typeFile

/-- The invariant of the loops of `mkfs.py`. -/
structure Builder.Ok (b : Builder) : Prop where
  root : b.inodes[0]? = some ⟨typeDir, 0, [], 0, 0, 0⟩
  count_le : b.inodes.length ≤ 64
  next_ge : 11 ≤ b.nextSector
  next_le : b.nextSector ≤ 4096
  type : ∀ (k : ℕ) (node : Node), b.inodes[k]? = some node →
    node.type = typeFile ∨ node.type = typeDir
  /-- Parents are directories and precede their children. -/
  parent : ∀ (k : ℕ) (node : Node), b.inodes[k]? = some node → k ≠ 0 →
    node.parent < k ∧ b.IsDir node.parent
  lookup : ∀ path k, b.lookup.lookup path = some k → b.IsDir k
  file : ∀ k node, b.FileNode k node → node.sectors = sectorsFor node.size ∧
    11 ≤ node.first ∧ node.first + node.sectors ≤ b.nextSector
  /-- Files are laid out in the order of their slots. -/
  ordered : ∀ j k m n, j < k → b.FileNode j m → b.FileNode k n → m.first + m.sectors ≤ n.first
  /-- There are no gaps. -/
  cover : ∀ n, 11 ≤ n → n < b.nextSector →
    ∃ k node, b.FileNode k node ∧ node.first ≤ n ∧ n < node.first + node.sectors
  /-- Nothing is written before the data area yet. -/
  blank : ∀ k < 11 * 512, b.image k = 0

/-- At the start there is the root and nothing else. -/
theorem start_entry {k : ℕ} {node : Node} (h : start.inodes[k]? = some node) :
    k = 0 ∧ node = ⟨typeDir, 0, [], 0, 0, 0⟩ := by
  cases k with
  | zero => exact ⟨rfl, (Option.some.inj h).symm⟩
  | succ k => exact absurd h (by simp [start])

theorem start_not_fileNode (k : ℕ) (node : Node) : ¬ start.FileNode k node := by
  rintro ⟨h, ht⟩
  rw [(start_entry h).2] at ht
  cases ht

theorem start_ok : start.Ok := by
  refine ⟨rfl, by decide, by decide, by decide, fun k node h => ?_, fun k node h hk => ?_,
    fun path k h => ?_, fun k node h => absurd h (start_not_fileNode k node),
    fun j k m n _ h _ => absurd h (start_not_fileNode j m), fun n h1 h2 => ?_, fun _ _ => rfl⟩
  · rw [(start_entry h).2]; exact .inr rfl
  · exact absurd (start_entry h).1 hk
  · have hk : k = 0 := by
      simp only [start, lookup_cons, lookup_nil] at h
      split at h
      · exact (Option.some.inj h).symm
      · cases h
    rw [hk]
    exact ⟨_, rfl, rfl⟩
  · have h2' : n < 11 := h2
    omega

section Append

variable {b : Builder} {node m : Node} {inodes : List Node} {k : ℕ}

theorem lt_length_of_getElem? (h : inodes[k]? = some m) : k < inodes.length :=
  (List.getElem?_eq_some_iff.mp h).1

/-- Slots after appending one entry: the old ones and the new one. -/
theorem getElem?_append_singleton (h : (inodes ++ [node])[k]? = some m) :
    inodes[k]? = some m ∨ (k = inodes.length ∧ m = node) := by
  by_cases hk : k < inodes.length
  · rw [getElem?_append_left hk] at h
    exact .inl h
  · have hlt := lt_length_of_getElem? h
    rw [length_append, length_singleton] at hlt
    obtain rfl : k = inodes.length := by omega
    rw [getElem?_concat_length] at h
    exact .inr ⟨rfl, (Option.some.inj h).symm⟩

theorem getElem?_append_of_some (h : inodes[k]? = some m) : (inodes ++ [node])[k]? = some m := by
  rwa [getElem?_append_left (lt_length_of_getElem? h)]

theorem Builder.IsDir.lt_length (h : b.IsDir k) : k < b.inodes.length := by
  obtain ⟨m, hm, -⟩ := h
  exact lt_length_of_getElem? hm

variable {b' : Builder} (hb : b'.inodes = b.inodes ++ [node])
include hb

/-- The directories after appending one entry. -/
theorem isDir_append : b'.IsDir k ↔ b.IsDir k ∨ (k = b.inodes.length ∧ node.type = typeDir) := by
  unfold Builder.IsDir
  rw [hb]
  constructor
  · rintro ⟨m, hk, ht⟩
    rcases getElem?_append_singleton hk with hk | ⟨hlast, rfl⟩
    · exact .inl ⟨m, hk, ht⟩
    · exact .inr ⟨hlast, ht⟩
  · rintro (⟨m, hk, ht⟩ | ⟨rfl, ht⟩)
    · exact ⟨m, getElem?_append_of_some hk, ht⟩
    · exact ⟨node, by simp, ht⟩

/-- The files after appending one entry. -/
theorem fileNode_append : b'.FileNode k m ↔
    b.FileNode k m ∨ (k = b.inodes.length ∧ m = node ∧ node.type = typeFile) := by
  unfold Builder.FileNode
  rw [hb]
  constructor
  · rintro ⟨hk, ht⟩
    rcases getElem?_append_singleton hk with hk | ⟨hlast, rfl⟩
    · exact .inl ⟨hk, ht⟩
    · exact .inr ⟨hlast, rfl, ht⟩
  · rintro (⟨hk, ht⟩ | ⟨rfl, rfl, ht⟩)
    · exact ⟨getElem?_append_of_some hk, ht⟩
    · exact ⟨by simp, ht⟩

/-- What the invariant says of parents, after appending an entry below a directory. -/
theorem parent_append (h : b.Ok) (hp : b.IsDir node.parent) :
    ∀ (j : ℕ) (m : Node), b'.inodes[j]? = some m → j ≠ 0 → m.parent < j ∧ b'.IsDir m.parent := by
  intro j m hj hj0
  rw [hb] at hj
  rcases getElem?_append_singleton hj with hj | ⟨rfl, rfl⟩
  · obtain ⟨hlt, hd⟩ := h.parent j m hj hj0
    exact ⟨hlt, (isDir_append hb).mpr (.inl hd)⟩
  · exact ⟨hp.lt_length, (isDir_append hb).mpr (.inl hp)⟩

end Append

variable {b b' : Builder} {parent : ℕ} {file : List Char × List UInt8}

/-- **A new directory** keeps the invariant. -/
theorem Builder.Ok.addDir (h : b.Ok) (path name : List Char) (hp : b.IsDir parent)
    (hc : b.inodes.length < 64) :
    (b.addDir path parent name).Ok ∧ (b.addDir path parent name).IsDir b.inodes.length := by
  have hb : (b.addDir path parent name).inodes = b.inodes ++ [⟨typeDir, parent, name, 0, 0, 0⟩] :=
    rfl
  have hnew : (b.addDir path parent name).IsDir b.inodes.length :=
    (isDir_append hb).mpr (.inr ⟨rfl, rfl⟩)
  have hfile : ∀ k node, (b.addDir path parent name).FileNode k node → b.FileNode k node := by
    intro k node hk
    refine ((fileNode_append hb).mp hk).resolve_right fun hnew => ?_
    exact absurd hnew.2.2 (show typeDir ≠ typeFile by decide)
  refine ⟨⟨getElem?_append_of_some h.root, ?_, h.next_ge, h.next_le, fun k node hk => ?_,
    parent_append hb h hp, fun p k hk => ?_, fun k node hk => h.file k node (hfile k node hk),
    fun j k m n hjk hj hk => h.ordered j k m n hjk (hfile j m hj) (hfile k n hk),
    fun n h1 h2 => ?_, h.blank⟩, hnew⟩
  · simp [Builder.addDir]; omega
  · rcases getElem?_append_singleton hk with hk | ⟨-, rfl⟩
    · exact h.type k node hk
    · exact .inr rfl
  · rw [Builder.addDir, lookup_cons] at hk
    split at hk
    · rw [← Option.some.inj hk]; exact hnew
    · exact (isDir_append hb).mpr (.inl (h.lookup p k hk))
  · obtain ⟨k, node, hk, hn⟩ := h.cover n h1 h2
    exact ⟨k, node, (fileNode_append hb).mpr (.inl hk), hn⟩

theorem ensureDir_ok {parts : List (List Char)} {path : List Char} {p : ℕ} (h : b.Ok)
    (hp : b.IsDir parent) (hr : ensureDir parts path parent b = .ok (p, b')) :
    b'.Ok ∧ b'.IsDir p ∧ b'.nextSector = b.nextSector := by
  induction parts generalizing path parent b with
  | nil =>
    cases hr
    exact ⟨h, hp, rfl⟩
  | cons part parts ih =>
    rw [ensureDir] at hr
    cases hl : b.lookup.lookup (path ++ '/' :: part) with
    | some i =>
      rw [hl] at hr
      exact ih h (h.lookup _ i hl) hr
    | none =>
      rw [hl] at hr
      by_cases hc : b.inodes.length ≥ 64
      · rw [if_pos hc] at hr; cases hr
      · rw [if_neg hc] at hr
        obtain ⟨hok, hdir⟩ := h.addDir (path ++ '/' :: part) part hp (by omega)
        obtain ⟨hok', hdir', hnext⟩ := ih hok hdir hr
        exact ⟨hok', hdir', hnext⟩

theorem put_of_lt {image : ℕ → UInt8} {off k : ℕ} (data : List UInt8) (h : k < off) :
    put image off data k = image k := if_neg (by omega)

/-- **A new file** goes to the sectors after all others. -/
theorem Builder.Ok.addData (h : b.Ok) {name : List Char} {data : List UInt8} (hp : b.IsDir parent)
    (hc : b.inodes.length < 64) (hn : b.nextSector + sectorsFor data.length ≤ 4096) :
    (b.addData parent name data).Ok := by
  have hb : (b.addData parent name data).inodes = b.inodes ++
      [⟨typeFile, parent, name, data.length, b.nextSector, sectorsFor data.length⟩] := rfl
  have hfile : ∀ k node, (b.addData parent name data).FileNode k node → b.FileNode k node ∨
      (k = b.inodes.length ∧ node = ⟨typeFile, parent, name, data.length, b.nextSector,
        sectorsFor data.length⟩) := by
    intro k node hk
    exact ((fileNode_append hb).mp hk).imp_right fun hnew => ⟨hnew.1, hnew.2.1⟩
  have hge := h.next_ge
  refine ⟨getElem?_append_of_some h.root, ?_, ?_, hn, fun k node hk => ?_, parent_append hb h hp,
    fun p k hk => (isDir_append hb).mpr (.inl (h.lookup p k hk)), fun k node hk => ?_,
    fun j k m n hjk hj hk => ?_, fun n h1 h2 => ?_, fun k hk => ?_⟩
  · simp [Builder.addData]; omega
  · simp only [Builder.addData]; omega
  · rcases getElem?_append_singleton hk with hk | ⟨-, rfl⟩
    · exact h.type k node hk
    · exact .inl rfl
  · simp only [Builder.addData]
    rcases hfile k node hk with hk | ⟨rfl, rfl⟩
    · obtain ⟨hs, hlo, hhi⟩ := h.file k node hk
      exact ⟨hs, hlo, by omega⟩
    · exact ⟨rfl, hge, le_refl _⟩
  · rcases hfile j m hj with hj | ⟨rfl, rfl⟩
    · rcases hfile k n hk with hk | ⟨rfl, rfl⟩
      · exact h.ordered j k m n hjk hj hk
      · exact (h.file j m hj).2.2
    · -- nothing comes after the new entry
      rcases hfile k n hk with hk | ⟨rfl, -⟩
      · have := lt_length_of_getElem? hk.1
        omega
      · omega
  · simp only [Builder.addData] at h2
    by_cases hlt : n < b.nextSector
    · obtain ⟨k, node, hk, hn⟩ := h.cover n h1 hlt
      exact ⟨k, node, (fileNode_append hb).mpr (.inl hk), hn⟩
    · refine ⟨b.inodes.length, _, (fileNode_append hb).mpr (.inr ⟨rfl, rfl, rfl⟩), ?_, ?_⟩
      · dsimp only; omega
      · dsimp only; omega
  · have hkb : k < b.nextSector * 512 := lt_of_lt_of_le hk (Nat.mul_le_mul_right 512 hge)
    change put b.image (b.nextSector * 512) data k = 0
    rw [put_of_lt data hkb]
    exact h.blank k hk

/-- What a completed step of the loop over the files did. -/
theorem addFile_eq_ok (hr : addFile b file = .ok b') :
    ∃ parent b1 name, ensureDir (splitPath file.1).dropLast [] 0 b = .ok (parent, b1) ∧
      (splitPath file.1).getLast? = some name ∧ b1.inodes.length < 64 ∧
      b1.nextSector + sectorsFor file.2.length ≤ 4096 ∧ b' = b1.addData parent name file.2 := by
  unfold addFile at hr
  dsimp only at hr
  cases he : ensureDir (splitPath file.1).dropLast [] 0 b with
  | error e => rw [he] at hr; cases hr
  | ok r =>
    obtain ⟨parent, b1⟩ := r
    rw [he] at hr
    dsimp only at hr
    by_cases hc : b1.inodes.length ≥ 64
    · rw [if_pos hc] at hr; cases hr
    · rw [if_neg hc] at hr
      by_cases hn : b1.nextSector + sectorsFor file.2.length > 4096
      · rw [if_pos hn] at hr; cases hr
      · rw [if_neg hn] at hr
        cases hg : (splitPath file.1).getLast? with
        | none => rw [hg] at hr; cases hr
        | some name =>
          rw [hg] at hr
          exact ⟨parent, b1, name, rfl, rfl, by omega, by omega, (Except.ok.inj hr).symm⟩

theorem addFile_ok (h : b.Ok) (hr : addFile b file = .ok b') :
    b'.Ok := by
  obtain ⟨parent, b1, name, he, -, hc, hn, rfl⟩ := addFile_eq_ok hr
  obtain ⟨hok, hdir, -⟩ := ensureDir_ok h ⟨_, h.root, rfl⟩ he
  exact hok.addData hdir hc hn

/-- **The whole run** keeps the invariant. -/
theorem addFiles_ok {files : List (List Char × List UInt8)} (h : b.Ok)
    (hr : addFiles files b = .ok b') : b'.Ok := by
  induction files generalizing b with
  | nil => rw [← Except.ok.inj hr]; exact h
  | cons file files ih =>
    rw [addFiles] at hr
    cases ha : addFile b file with
    | error e => rw [ha] at hr; cases hr
    | ok b1 => rw [ha] at hr; exact ih (addFile_ok h ha) hr

end MyOS.Mkfs
