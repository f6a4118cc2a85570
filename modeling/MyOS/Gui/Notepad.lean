import MyOS.Diskfs.Target
import MyOS.Gui.System

/-!
# The notepad

`NotepadApp` copies the file that it opens into a buffer of 2048 bytes, edits it at the cursor and
writes it back under the path that it has kept. While keys are typed the cursor stays at the end of
the text (`typed_text`).

The path is kept in `path_[32]`, and a listed name can have 63 bytes. What is left of a name of more
than 31 bytes is another path: the text is saved in another file, or a new one, and the one that was
opened is as before (`notepad_long_path`). For all other names the file that was opened gets the
text and nothing else changes (`notepad_saves_iff`).
-/

namespace MyOS.Gui

open Diskfs Function

/-- `NotepadApp::BUFFER_SIZE`. -/
def notepadSize : ℕ := 2048

/-- `class NotepadApp`. -/
structure Notepad where
  window : Window
  path : CString
  buffer : Buffer
  length : ℕ
  cursor : ℕ
  dirty : Bool
  lastSaveOk : Bool

/-- `GUI_KEY_CTRL_S`. -/
def keyCtrlS : UInt8 := 21

namespace Notepad

/-- `NotepadApp::set_path`: what fits into `path_[32]`. -/
def setPath (path : CString) : CString :=
  ⟨path.bytes.take 31, fun h => path.nul_free (List.mem_of_mem_take h)⟩

/-- `NotepadApp::open_file`. -/
def openFile (n : Notepad) (s : Fs) (path : CString) (m : Metrics) (z : ℕ) :
    Bool × Notepad × Fs :=
  match diskfsReadFile s (some path) with
  | (none, s) => (false, n, s)
  | (some data, s) =>
    if data.length > notepadSize then (false, n, s)
    else
      (true,
        { window := NotepadApp.openWindow m z n.window
          path := setPath path
          buffer := update
            (fun k => if k < data.length then data.getD k 0 else n.buffer k) data.length 0
          length := data.length
          cursor := data.length
          dirty := false
          lastSaveOk := false }, s)

/-- `NotepadApp::initialize`. -/
def initial (m : Metrics) : Notepad where
  window := windowInitialize (NotepadApp.defaultGeometry m)
  path := ⟨[], List.not_mem_nil⟩
  buffer _ := 0
  length := 0
  cursor := 0
  dirty := false
  lastSaveOk := false

/-- The loop of `insert_char`, from `i` down to the cursor. -/
def shiftUp (cursor : ℕ) : ℕ → Buffer → Buffer
  | 0, b => b
  | i + 1, b => if i + 1 > cursor then shiftUp cursor i (update b (i + 1) (b i)) else b

/-- `NotepadApp::insert_char`. -/
def insertChar (n : Notepad) (c : UInt8) : Notepad :=
  if n.length ≥ notepadSize then n
  else
    { n with
      buffer := update
        (update (shiftUp n.cursor n.length n.buffer) n.cursor c) (n.length + 1) 0
      cursor := n.cursor + 1
      length := n.length + 1
      dirty := true }

/-- The loop of `backspace`, over the next `k` places from `i`. -/
def shiftDown : ℕ → ℕ → Buffer → Buffer
  | _, 0, b => b
  | i, k + 1, b => shiftDown (i + 1) k (update b i (b (i + 1)))

/-- `NotepadApp::backspace`. -/
def backspace (n : Notepad) : Notepad :=
  if n.cursor = 0 then n
  else
    { n with
      buffer := shiftDown (n.cursor - 1) (n.length - (n.cursor - 1)) n.buffer
      cursor := n.cursor - 1
      length := n.length - 1
      dirty := true }

/-- `NotepadApp::save`. -/
def save (n : Notepad) (s : Fs) : Notepad × Fs :=
  let r := diskfsWriteFile s (some n.path) (some n.buffer) (UInt32.ofNat n.length)
  ({ n with lastSaveOk := r.1, dirty := if r.1 then false else n.dirty }, r.2)

/-- `NotepadApp::handle_key`. -/
def handleKey (st : Notepad × Fs) (key : UInt8) : Notepad × Fs :=
  if !st.1.window.isOpen || st.1.window.mode == .minimized || !st.1.window.focused then st
  else if key = keyCtrlS then st.1.save st.2
  else if key = 8 then (st.1.backspace, st.2)
  else if key = 10 then (st.1.insertChar 10, st.2)
  else if key ≥ 32 && key ≤ 126 then (st.1.insertChar key, st.2)
  else st

/-- The state after some keys. -/
def typeKeys (st : Notepad × Fs) (keys : List UInt8) : Notepad × Fs := keys.foldl handleKey st

/-! ### The text -/

/-- A printable character, newline or backspace. -/
def EditKey (key : UInt8) : Prop := key = 8 ∨ key = 10 ∨ 32 ≤ key ∧ key ≤ 126

instance (key : UInt8) : Decidable (EditKey key) := inferInstanceAs (Decidable (_ ∨ _))

/-- What a key does to a text at its end. -/
def edit (text : List UInt8) (key : UInt8) : List UInt8 :=
  if key = 8 then text.dropLast
  else if text.length < notepadSize then text ++ [key]
  else text

/-- The text with the keys applied at the end, insertions beyond the buffer ignored. -/
def edited (text keys : List UInt8) : List UInt8 := keys.foldl edit text

/-- The text in the buffer. -/
def text (n : Notepad) : List UInt8 := slice n.buffer 0 n.length

/-- The bounds of the buffer. -/
structure Bounded (n : Notepad) : Prop where
  cursor : n.cursor ≤ n.length
  length : n.length ≤ notepadSize
  terminated : n.buffer n.length = 0

/-- The notepad has the focus and the cursor is at the end of `content`. -/
structure AtEnd (n : Notepad) (content : List UInt8) : Prop where
  isOpen : n.window.isOpen = true
  shown : n.window.mode ≠ .minimized
  focused : n.window.focused = true
  cursor : n.cursor = n.length
  length : n.length ≤ notepadSize
  terminated : n.buffer n.length = 0
  text : n.text = content

variable {n : Notepad} {content : List UInt8}

theorem AtEnd.bounded (h : n.AtEnd content) : n.Bounded :=
  ⟨h.cursor.le, h.length, h.terminated⟩

theorem AtEnd.length_eq (h : n.AtEnd content) : content.length = n.length := by
  rw [← h.text, Notepad.text, length_slice]

theorem AtEnd.takesKeys (h : n.AtEnd content) :
    ¬ (!n.window.isOpen || n.window.mode == .minimized || !n.window.focused) = true := by
  simp [h.isOpen, h.shown, h.focused]

/-- At the end nothing has to move. -/
theorem shiftUp_self (i : ℕ) (b : Buffer) : shiftUp i i b = b := by
  cases i with
  | zero => rfl
  | succ i => rw [shiftUp, if_neg (lt_irrefl _)]

theorem slice_update_succ (b : Buffer) (len : ℕ) (c : UInt8) :
    slice (update b len c) 0 (len + 1) = slice b 0 len ++ [c] := by
  rw [← slice_append]
  congr 1
  · refine slice_congr fun k hk => update_of_ne (by omega) _ _
  · simp [slice]

/-- A key at the end of the text goes behind it, if there is room. -/
theorem AtEnd.insertChar (h : n.AtEnd content) (c : UInt8) :
    (n.insertChar c).AtEnd (if content.length < notepadSize then content ++ [c] else content) := by
  unfold Notepad.insertChar
  rw [h.length_eq]
  by_cases hfull : n.length ≥ notepadSize
  · rw [if_pos hfull, if_neg (not_lt.mpr hfull)]
    exact h
  · rw [if_neg hfull, if_pos (not_le.mp hfull), h.cursor, shiftUp_self]
    refine ⟨h.isOpen, h.shown, h.focused, rfl, not_le.mp hfull, update_self _ _ _, ?_⟩
    change slice (update (update n.buffer n.length c) (n.length + 1) 0) 0
      (n.length + 1) = _
    rw [← h.text, Notepad.text, ← slice_update_succ]
    exact slice_congr fun k hk => update_of_ne (by omega) _ _

/-- Backspace at the end of the text takes the last character. -/
theorem AtEnd.backspace (h : n.AtEnd content) : n.backspace.AtEnd content.dropLast := by
  unfold Notepad.backspace
  by_cases hzero : n.cursor = 0
  · rw [if_pos hzero]
    have hnil : content = [] := List.length_eq_zero_iff.mp (by rw [h.length_eq, ← h.cursor, hzero])
    subst hnil
    exact h
  · obtain ⟨len, hlen⟩ := Nat.exists_eq_succ_of_ne_zero (h.cursor ▸ hzero)
    rw [if_neg hzero, h.cursor, hlen]
    have hone : len.succ - (len.succ - 1) = 1 := by omega
    rw [hone]
    -- the loop moves the NUL
    have hnul : n.buffer (len + 1) = 0 := by
      rw [← Nat.succ_eq_add_one, ← hlen, h.terminated]
    refine ⟨h.isOpen, h.shown, h.focused, rfl, ?_, ?_, ?_⟩
    · change len ≤ notepadSize
      exact le_trans (by omega) h.length
    · change update n.buffer len (n.buffer (len + 1)) len = 0
      rw [update_self, hnul]
    · change slice (update n.buffer len (n.buffer (len + 1))) 0 len = _
      have hsplit : content = slice n.buffer 0 len ++ [n.buffer len] := by
        rw [← slice_update_succ, update_eq_self, ← h.text, Notepad.text, hlen]
      rw [hsplit, List.dropLast_concat]
      exact slice_congr fun k hk => update_of_ne (by omega) _ _

/-- One key. -/
theorem AtEnd.handleKey (h : n.AtEnd content) (s : Fs) {key : UInt8} (hkey : EditKey key) :
    ∃ n', handleKey (n, s) key = (n', s) ∧ n'.AtEnd (edit content key) ∧ n'.path = n.path := by
  have hpath : ∀ c, (n.insertChar c).path = n.path := by
    intro c
    unfold Notepad.insertChar
    split <;> rfl
  have hsave : key ≠ keyCtrlS := by
    rintro rfl
    exact absurd hkey (by unfold EditKey; decide)
  unfold Notepad.handleKey edit
  rw [if_neg h.takesKeys, if_neg hsave]
  by_cases hback : key = 8
  · rw [if_pos hback, if_pos hback]
    refine ⟨_, rfl, h.backspace, ?_⟩
    unfold Notepad.backspace
    split <;> rfl
  rw [if_neg hback, if_neg hback]
  by_cases hline : key = 10
  · rw [if_pos hline, hline]
    exact ⟨_, rfl, h.insertChar 10, hpath 10⟩
  · rw [if_neg hline, if_pos (by simpa using (hkey.resolve_left hback).resolve_left hline)]
    exact ⟨_, rfl, h.insertChar key, hpath key⟩

/-- **The buffer is the content with the keys applied at its end.** -/
theorem typed_text (h : n.AtEnd content) (s : Fs) {keys : List UInt8}
    (hkeys : ∀ key ∈ keys, EditKey key) :
    ∃ n', typeKeys (n, s) keys = (n', s) ∧ n'.AtEnd (edited content keys) ∧ n'.path = n.path := by
  induction keys generalizing n content with
  | nil => exact ⟨n, rfl, h, rfl⟩
  | cons key keys ih =>
    obtain ⟨n1, hstep, h1, hpath1⟩ := h.handleKey s (hkeys key List.mem_cons_self)
    obtain ⟨n2, hrest, h2, hpath2⟩ := ih h1 fun k hk => hkeys k (List.mem_cons_of_mem _ hk)
    refine ⟨n2, ?_, h2, hpath2.trans hpath1⟩
    rw [typeKeys, List.foldl_cons, hstep]
    exact hrest

/-! ### Opening and saving -/

/-- An opened file is in the buffer, and the filesystem has read only. -/
theorem openFile_true {s : Fs} (hs : Sane s) {p : CString} {m : Metrics} {z : ℕ}
    (hopen : (n.openFile s p m z).1 = true) :
    ∃ i n' b, diskfsFindFile s.tables (some p) = some i ∧
      n.openFile s p m z = (true, n', { s with block := b }) ∧ Reads s.block b ∧
      n'.path = setPath p ∧ n'.AtEnd (s.content i) := by
  cases hread : diskfsReadFile s (some p) with
  | mk data s' =>
  unfold openFile at hopen ⊢
  rw [hread] at hopen ⊢
  cases data with
  | none => cases hopen
  | some data =>
    dsimp only at hopen ⊢
    by_cases hbig : data.length > notepadSize
    · rw [if_pos hbig] at hopen
      cases hopen
    rw [if_neg hbig]
    obtain ⟨i, b, hfind, hdata, hstate, hreads⟩ :=
      diskfsReadFile_some hs (congrArg Prod.fst hread)
    rw [hread] at hstate
    dsimp only at hstate
    refine ⟨i, _, b, hfind, by rw [hstate], hreads, rfl, ?_⟩
    rw [← hdata]
    refine ⟨?_, ?_, ?_, rfl, not_lt.mp hbig, ?_, ?_⟩
    · simp [NotepadApp.openWindow]
    · simp [NotepadApp.openWindow]
    · simp [NotepadApp.openWindow, Window.focus]
    · dsimp only
      rw [update_self]
    · change slice (update _ data.length 0) 0 data.length = data
      refine Eq.trans (slice_congr fun k hk => ?_) (slice_getD_self data)
      rw [update_of_ne (by omega), if_pos (by omega)]

/-- Ctrl+S saves. -/
theorem AtEnd.handleKey_save (h : n.AtEnd content) (s : Fs) :
    Notepad.handleKey (n, s) keyCtrlS = n.save s := by
  unfold Notepad.handleKey
  rw [if_neg h.takesKeys, if_pos rfl]

/-- **The notepad saves to the file that it opened exactly if it has kept its path.** After any run
on a mounted image, on any drive, for every listed name, every sequence of keys and whatever the
notepad held before: the buffer keeps its bounds, and a save that reports success puts the edited
text into the opened file and changes nothing else exactly if the first 31 bytes of the name have
the components of the whole name, as they have for every name of at most 31 bytes, or the text is
the old one of that file and of the file that those bytes lead to. -/
theorem notepad_saves_iff {s0 : Fs} (h0 : MountedImage s0) (ops : List Op) {p : CString}
    (hp : Listed (run s0 ops) p) (n : Notepad) (m : Metrics) (z : ℕ)
    (hopen : (n.openFile (run s0 ops) p m z).1 = true) (keys : List UInt8)
    (hkeys : ∀ key ∈ keys, EditKey key) :
    let s := run s0 ops
    let typed := typeKeys (n.openFile s p m z).2 keys
    let saved := handleKey typed keyCtrlS
    typed.1.Bounded ∧ saved.1.Bounded ∧
    ∃ i, diskfsFindFile s.tables (some p) = some i ∧ typed.1.text = edited (s.content i) keys ∧
      (saved.1.lastSaveOk = true →
        (Saves s saved.2 p i (edited (s.content i) keys) ↔
          pathParts (p.bytes.take 31) = pathParts p.bytes ∨
          (edited (s.content i) keys = s.content i ∧ ∃ j, WriteTarget s.tables (setPath p) j ∧
            s.content j = edited (s.content i) keys))) := by
  intro s typed saved
  have hs : Sane s := h0.sane.run ops
  obtain ⟨i, n1, b, hfind, heq, hreads, hpath1, h1⟩ := openFile_true hs hopen
  obtain ⟨n2, htyped, h2, hpath2⟩ := typed_text h1 { s with block := b } hkeys
  have htyped' : typed = (n2, { s with block := b }) := by
    change typeKeys (n.openFile s p m z).2 keys = _
    rw [heq]
    exact htyped
  have hsaved : saved = n2.save { s with block := b } := by
    change handleKey typed keyCtrlS = _
    rw [htyped']
    exact h2.handleKey_save _
  rw [hsaved, htyped']
  refine ⟨h2.bounded, ⟨h2.cursor.le, h2.length, h2.terminated⟩, i, hfind, h2.text, fun hok => ?_⟩
  obtain ⟨hs', hcontent⟩ := hs.reads hreads
  -- a listed name begins with a slash, so the file was found under its components
  have hat : FileAt s.tables (pathParts p.bytes) i := by
    rcases (diskfsFindFile_eq_some_iff _ p i).mp hfind with hat | ⟨hrel, -⟩
    · exact hat
    · exact absurd (listed_absolute h0 ops hp) hrel
  have hsize : (UInt32.ofNat n2.length).toNat = n2.length := by
    have hlen := h2.length
    unfold notepadSize at hlen
    exact UInt32.toNat_ofNat_of_lt' (by change _ < 4294967296; omega)
  have htext : slice n2.buffer 0 (UInt32.ofNat n2.length).toNat = edited (s.content i) keys := by
    rw [hsize]
    exact h2.text
  have hiff := saves_iff hs' (p := p) (q := n2.path) (i := i) hat hok
  rw [htext, hpath2, hpath1] at hiff
  simp only [hcontent] at hiff
  refine Iff.trans ?_ hiff
  -- only the cache has changed since the file was opened
  have hwrite : (n2.save { s with block := b }).2 = (diskfsWriteFile { s with block := b }
      (some (setPath p)) (some n2.buffer) (UInt32.ofNat n2.length)).2 := by
    rw [← hpath1, ← hpath2]
    rfl
  rw [hwrite]
  refine ⟨fun h => ⟨h.found, h.content, h.entries, fun j hj hf => ?_⟩,
    fun h => ⟨h.found, h.content, h.entries, fun j hj hf => ?_⟩⟩
  · rw [hcontent]
    exact h.others j hj hf
  · rw [← hcontent]
    exact h.others j hj hf

/-- A string is its bytes. -/
theorem cstring_ext {a b : CString} (h : a.bytes = b.bytes) : a = b := by
  cases a
  cases b
  exact (CString.mk.injEq ..).mpr h

/-- A character is added to `/etc/motd`. -/
theorem notepad_saves_motd :
    let opened := (initial ⟨640, 480, 30⟩).openFile motdFs motdPath ⟨640, 480, 30⟩ 1
    let saved := handleKey (typeKeys opened.2 [33]) keyCtrlS
    Saves motdFs saved.2 motdPath 2 [104, 105, 33] := by
  intro opened saved
  have hcontent : motdFs.content 2 = [104, 105] := by decide +kernel
  have hfind : diskfsFindFile motdFs.tables (some motdPath) = some 2 := by decide +kernel
  obtain ⟨-, -, i, hi, -, hsaves⟩ := notepad_saves_iff motd_mounted [] (p := motdPath)
    ⟨0, by decide +kernel, cstring_ext (by decide +kernel)⟩ (initial ⟨640, 480, 30⟩)
    ⟨640, 480, 30⟩ 1 (by decide +kernel) [33] (by decide +kernel)
  obtain rfl := Option.some.inj (hfind.symm.trans hi)
  have hdone := (hsaves (by decide +kernel)).mpr (.inl (by decide))
  change Saves motdFs saved.2 motdPath 2 (edited (motdFs.content 2) [33]) at hdone
  rw [hcontent] at hdone
  exact hdone

/-- `/etc/` and 27 letters, 32 bytes. -/
def longPath : CString := ⟨[47, 101, 116, 99, 47] ++ List.replicate 27 110, by decide⟩

/-- The small image after the file of that name was created. -/
def longFs : Fs := run motdFs [.write (some longPath) (some fun _ => 65) 1]

/-- **A name of 32 bytes is saved under another**: the file that was opened keeps its text, and
there is a new one. -/
theorem notepad_long_path :
    let opened := (initial ⟨640, 480, 30⟩).openFile longFs longPath ⟨640, 480, 30⟩ 1
    let saved := handleKey (typeKeys opened.2 [33]) keyCtrlS
    MountedImage motdFs ∧ Listed longFs longPath ∧ opened.1 = true ∧ saved.1.lastSaveOk = true ∧
      diskfsFindFile longFs.tables (some longPath) = some 3 ∧
      saved.2.content 3 = [65] ∧ diskfsFileCount saved.2 = diskfsFileCount longFs + 1 ∧
      ¬ Saves longFs saved.2 longPath 3 (edited (longFs.content 3) [33]) := by
  intro opened saved
  have hkept : saved.2.content 3 = [65] := by decide +kernel
  have hedited : edited (longFs.content 3) [33] = [65, 33] := by decide +kernel
  refine ⟨motd_mounted, ⟨1, by decide +kernel, cstring_ext (by decide +kernel)⟩, by decide +kernel,
    by decide +kernel, by decide +kernel, hkept, by decide +kernel, fun h => ?_⟩
  have hcontent := h.content
  rw [hkept, hedited] at hcontent
  cases hcontent

end Notepad

end MyOS.Gui
