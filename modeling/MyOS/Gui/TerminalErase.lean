import MyOS.Gui.Terminal

/-!
# Erasing typed text

A typed character goes to the end of the command and to the screen, and Backspace takes the last one
away again. On the screen this works in one row only: a character that fills the row begins a new
row, and Backspace does not go back to the row before. So typed text can be erased again exactly if
it ends before the last column of the row it was begun in (`erase_restores_iff`).
-/

namespace MyOS.Gui

open Function List

namespace TextBuffer

variable {b : TextBuffer} {cols : ℕ} {c : UInt8}

/-- Scrolled to the end, as `write` leaves it. -/
def unscrolled (b : TextBuffer) : TextBuffer := { b with scroll := 0 }

/-- A character as `handle_key` writes it. -/
def echo (cols : ℕ) (b : TextBuffer) (c : UInt8) : TextBuffer := (b.writeChar cols c).unscrolled

theorem write_singleton (hb : b.lineCount ≠ 0) (hc : c ≠ 0) :
    b.write cols [c] = b.echo cols c := by
  simp [write, echo, unscrolled, hb, hc]

@[simp] theorem newline_log_length (b : TextBuffer) : b.newline.log.length = b.log.length + 1 := by
  unfold newline
  split <;> rfl

@[simp] theorem setCell_log_length (b : TextBuffer) (y x : ℕ) (c : UInt8) :
    (b.setCell y x c).log.length = b.log.length := length_modifyHead ..

/-- Backspace does not look at the scroll position. -/
theorem erase_unscrolled (b : TextBuffer) : b.unscrolled.echo cols 8 = b.echo cols 8 := by
  simp only [echo, writeChar, show (8 : UInt8) ≠ 10 by decide, if_false, if_true]
  split_ifs
  · rfl
  · exact absurd ‹0 < b.unscrolled.col› ‹_›
  · exact absurd ‹0 < b.col› ‹_›
  · rfl

/-- A printable character is stored. -/
theorem writeChar_printable (h1 : 32 ≤ c) (h2 : c ≤ 126) : b.writeChar cols c =
      let b := if b.col ≥ cols then b.newline else b
      let b := { b.setCell (b.lineCount - 1) b.col c with col := b.col + 1 }
      if b.col ≥ cols then b.newline else b := by
  have hnl : c ≠ 10 := by rintro rfl; exact absurd h1 (by decide)
  have hbs : c ≠ 8 := by rintro rfl; exact absurd h1 (by decide)
  have hskip : ¬ (c < 32 ∨ c > 126) := by
    rintro (h | h)
    · exact absurd h1 (UInt8.not_le.mpr h)
    · exact absurd h2 (UInt8.not_le.mpr h)
  unfold writeChar
  rw [if_neg hnl, if_neg hbs, if_neg hskip]

/-- Backspace blanks the character before the cursor. -/
theorem writeChar_backspace (hcol : 0 < b.col) : b.writeChar cols 8 =
      { b with col := b.col - 1 }.setCell (b.lineCount - 1) (b.col - 1) space := by
  unfold writeChar
  rw [if_neg (by decide), if_pos rfl, if_pos hcol]

/-- A printable character before the last column stays in the row. -/
theorem writeChar_fits (h1 : 32 ≤ c) (h2 : c ≤ 126) (hfit : b.col + 1 < cols) :
    b.writeChar cols c = { b.setCell (b.lineCount - 1) b.col c with col := b.col + 1 } := by
  have hwrap : ¬ b.col ≥ cols := by omega
  have hend : ¬ b.col + 1 ≥ cols := by omega
  rw [writeChar_printable h1 h2]
  simp only [if_neg hwrap, if_neg hend]

/-- Backspace undoes a character that stayed in the row. -/
theorem Ok.echo_erase (h : b.Ok) (h1 : 32 ≤ c) (h2 : c ≤ 126) (hfit : b.col + 1 < cols) :
    (b.echo cols c).echo cols 8 = b.unscrolled := by
  have hpos := h.pos
  have hblank := h.blank b.col le_rfl h.col_lt
  have hrows := h.rows 0 (by omega) b.col h.col_lt
  obtain ⟨r, rs, hlog⟩ := h.toCore.log_eq_cons
  have hhead : r b.col = space := by
    rw [hlog, getD_cons_zero, Nat.sub_zero] at hrows
    rw [← hrows, hblank]
  have hrow : b.lineCount - 1 < historyRows := by
    have := h.le
    omega
  have hcol : b.col < termCols + 1 := by
    have := h.col_lt
    omega
  -- the cell gets the blank back that it had, on the screen and in the log
  have hcell : update (b.lines (b.lineCount - 1)) b.col space = b.lines (b.lineCount - 1) := by
    rw [← hblank, update_eq_self]
  have hold : update r b.col space = r := by
    rw [← hhead, update_eq_self]
  rw [echo, echo, writeChar_fits h1 h2 hfit, writeChar_backspace (Nat.succ_pos _)]
  simp only [unscrolled, TextBuffer.setCell, hlog, modifyHead_cons, Nat.add_sub_cancel,
    update_idem, update_self, hcell, hold, update_eq_self, hrow, hcol,
    decide_true, Bool.and_self, Bool.not_true, Bool.or_false]

/-- **Run.** Text that ends before the last column is erased by as many backspaces. -/
theorem Ok.echo_erase_all (h : b.Ok) (hcols : cols ≤ termCols) {cs : List UInt8}
    (hcs : ∀ c ∈ cs, 32 ≤ c ∧ c ≤ 126) (hfit : b.col + cs.length < cols) :
    ((echo cols · 8)^[cs.length] (cs.foldl (echo cols) b)).unscrolled = b.unscrolled := by
  induction cs generalizing b with
  | nil => rfl
  | cons c cs ih =>
    rw [length_cons] at hfit
    obtain ⟨h1, h2⟩ := hcs c mem_cons_self
    have hput : (b.echo cols c).col = b.col + 1 := by
      rw [echo, writeChar_fits h1 h2 (by omega)]
      rfl
    have hok : (b.echo cols c).Ok := by
      have hchar := h.writeChar hcols c
      exact hchar.setScroll hchar.pos
    have hrest := ih hok (fun d hd => hcs d (mem_cons_of_mem c hd)) (by omega)
    rw [foldl_cons, length_cons, Function.iterate_succ_apply']
    generalize (echo cols · 8)^[cs.length] (cs.foldl (echo cols) (b.echo cols c)) = e at hrest ⊢
    -- the last backspace takes away the first character
    calc (e.echo cols 8).unscrolled = e.unscrolled.echo cols 8 := (erase_unscrolled e).symm
      _ = (b.echo cols c).unscrolled.echo cols 8 := by rw [hrest]
      _ = (b.echo cols c).echo cols 8 := erase_unscrolled _
      _ = b.unscrolled := h.echo_erase h1 h2 (by omega)

/-- Rows are only added. -/
theorem log_le_echo (b : TextBuffer) (c : UInt8) : b.log.length ≤ (b.echo cols c).log.length := by
  unfold echo writeChar unscrolled
  dsimp only
  split_ifs <;> simp; omega

theorem log_le_echo_all (b : TextBuffer) (cs : List UInt8) :
    b.log.length ≤ (cs.foldl (echo cols) b).log.length := by
  induction cs generalizing b with
  | nil => exact le_rfl
  | cons c cs ih => exact (b.log_le_echo c).trans (ih _)

/-- **Run.** Text that reaches the last column begins a new row. -/
theorem log_lt_echo_all {cs : List UInt8} (hne : cs ≠ []) (hcs : ∀ c ∈ cs, 32 ≤ c ∧ c ≤ 126)
    (hlong : cols ≤ b.col + cs.length) :
    b.log.length < (cs.foldl (echo cols) b).log.length := by
  induction cs generalizing b with
  | nil => exact absurd rfl hne
  | cons c cs ih =>
    rw [length_cons] at hlong
    obtain ⟨h1, h2⟩ := hcs c mem_cons_self
    rw [foldl_cons]
    by_cases hfit : b.col + 1 < cols
    · have hput : (b.echo cols c).col = b.col + 1 := by
        rw [echo, writeChar_fits h1 h2 hfit]
        rfl
      have hrest := ih (b := b.echo cols c) (by rintro rfl; simp at hlong; omega)
        (fun d hd => hcs d (mem_cons_of_mem c hd)) (by omega)
      exact lt_of_le_of_lt (b.log_le_echo c) hrest
    · -- this character begins one, before or after it is stored
      refine lt_of_lt_of_le ?_ (log_le_echo_all _ cs)
      simp only [echo, unscrolled, writeChar_printable h1 h2]
      by_cases hwrap : b.col ≥ cols
      · simp only [if_pos hwrap]
        split_ifs <;> simp only [newline_log_length, setCell_log_length] <;> omega
      · have hend : b.col + 1 ≥ cols := by omega
        simp only [if_neg hwrap, if_pos hend]
        simp

/-- Backspace adds no row. -/
theorem erase_rows (b : TextBuffer) (n : ℕ) : ((echo cols · 8)^[n] b).lineCount = b.lineCount := by
  induction n generalizing b with
  | zero => rfl
  | succ n ih =>
    rw [Function.iterate_succ_apply, ih]
    simp only [echo, writeChar, show (8 : UInt8) ≠ 10 by decide, if_false, if_true]
    split_ifs <;> rfl

end TextBuffer

namespace Terminal

/-- The printable keys, pressed with whatever else `handle_key` is given. -/
def IsTyped : Step → Prop
  | .key c _ _ _ => 32 ≤ c ∧ c ≤ 126
  | _ => False

def IsBackspace : Step → Prop
  | .key c _ _ _ => c = 8
  | _ => False

/-- The character of a key. -/
def keyOf : Step → UInt8
  | .key c _ _ _ => c
  | _ => 0

/-- The window takes keys. -/
def TakesKeys (t : Terminal) : Prop := t.window.isOpen = true ∧ t.window.mode ≠ .minimized

variable {t : Terminal}

theorem TakesKeys.focus (h : t.TakesKeys) (z : ℕ) :
    { t with window := t.window.focus z }.TakesKeys :=
  ⟨(Window.focus_isOpen ..).trans h.1, fun hmode => h.2 ((Window.focus_mode ..).symm.trans hmode)⟩

theorem focus_textCols (t : Terminal) (z : ℕ) :
    { t with window := t.window.focus z }.textCols = t.textCols := by
  simp only [textCols, Window.textCols, Window.focus_rect]

/-- A key of the last part of `handle_key`. -/
theorem step_editKey (h : t.TakesKeys) {c : UInt8} (hc : 32 ≤ c ∨ c = 8) (m : Metrics) (z : ℕ)
    (sv : Services) :
    t.step (.key c m z sv) = { t with window := t.window.focus z }.editKey c sv := by
  have hspecial : c ≠ GuiSystem.keyF1 ∧ c ≠ GuiSystem.keyPageUp ∧ c ≠ GuiSystem.keyPageDown ∧
      c ≠ GuiSystem.keyArrowUp ∧ c ≠ GuiSystem.keyArrowDown := by
    refine ⟨?_, ?_, ?_, ?_, ?_⟩ <;> rintro rfl <;> revert hc <;> decide
  obtain ⟨h1, h2, h3, h4, h5⟩ := hspecial
  change t.handleKey c m z sv = _
  unfold handleKey
  rw [if_neg h1, if_neg h2, if_neg h3, if_neg h4, if_neg h5, if_neg (by simp [h.1, h.2])]

section

variable (hok : t.Ok) (h : t.TakesKeys)
include hok h

/-- **Step.** What a printable key does. -/
theorem step_typed {s : Step} (hs : IsTyped s) (hroom : t.commandLen + 1 < commandSize) :
    (t.step s).text = t.text.echo t.textCols (keyOf s) ∧ (t.step s).commandLen = t.commandLen + 1 ∧
      (t.step s).textCols = t.textCols ∧ (t.step s).TakesKeys := by
  obtain ⟨c, m, z, sv, rfl⟩ : ∃ c m z sv, s = .key c m z sv := by
    cases s with
    | key c m z sv => exact ⟨c, m, z, sv, rfl⟩
    | _ => exact hs.elim
  obtain ⟨h1, h2⟩ := hs
  have hpos := hok.text.pos
  rw [step_editKey h (.inl h1)]
  unfold editKey
  rw [if_neg (by rintro rfl; exact absurd h1 (by decide)),
    if_neg (by rintro rfl; exact absurd h1 (by decide)), if_pos ⟨h1, h2, hroom⟩]
  refine ⟨?_, rfl, focus_textCols t z, h.focus z⟩
  · have hcols : ({ { t with window := t.window.focus z }.setCommand t.commandLen c with
        commandLen := t.commandLen + 1 } : Terminal).textCols = t.textCols := focus_textCols t z
    unfold appendChar write
    rw [hcols]
    exact TextBuffer.write_singleton (by simp only [setCommand]; omega)
      (by rintro rfl; exact absurd h1 (by decide))

/-- **Step.** What Backspace does. -/
theorem step_backspace {s : Step} (hs : IsBackspace s) (hlen : 0 < t.commandLen) :
    (t.step s).text = t.text.echo t.textCols 8 ∧ (t.step s).commandLen = t.commandLen - 1 ∧
      (t.step s).textCols = t.textCols ∧ (t.step s).TakesKeys := by
  obtain ⟨c, m, z, sv, rfl⟩ : ∃ c m z sv, s = .key c m z sv := by
    cases s with
    | key c m z sv => exact ⟨c, m, z, sv, rfl⟩
    | _ => exact hs.elim
  obtain rfl : c = 8 := hs
  have hpos := hok.text.pos
  rw [step_editKey h (.inr rfl)]
  unfold editKey
  rw [if_neg (by decide), if_pos rfl, if_pos hlen]
  refine ⟨?_, rfl, focus_textCols t z, h.focus z⟩
  · have hcols : ({ { t with window := t.window.focus z } with
        commandLen := t.commandLen - 1 } : Terminal).textCols = t.textCols := focus_textCols t z
    unfold eraseChar write
    dsimp only
    rw [hcols]
    exact TextBuffer.write_singleton (by omega) (by decide)

/-- **Run.** -/
theorem run_typed {typed : List Step} (hs : ∀ s ∈ typed, IsTyped s)
    (hroom : t.commandLen + typed.length < commandSize) :
    let u := typed.foldl step t
    u.text = (typed.map keyOf).foldl (TextBuffer.echo t.textCols) t.text ∧
      u.commandLen = t.commandLen + typed.length ∧ u.textCols = t.textCols ∧
      u.TakesKeys ∧ u.Ok := by
  induction typed generalizing t with
  | nil => exact ⟨rfl, rfl, rfl, h, hok⟩
  | cons s typed ih =>
    rw [length_cons] at hroom
    obtain ⟨htext, hlen, hcols, hkeys⟩ := step_typed hok h (hs s mem_cons_self) (by omega)
    obtain ⟨h1, h2, h3, h4, h5⟩ := ih (hok.step s) hkeys
      (fun s' hs' => hs s' (mem_cons_of_mem s hs')) (by omega)
    refine ⟨?_, ?_, h3.trans hcols, h4, h5⟩
    · rw [foldl_cons, h1, htext, hcols]
      rfl
    · rw [foldl_cons, h2, hlen, length_cons]
      omega

/-- **Run.** -/
theorem run_backspaces {erased : List Step}
    (hs : ∀ s ∈ erased, IsBackspace s) (hlen : erased.length ≤ t.commandLen) :
    (erased.foldl step t).text = (TextBuffer.echo t.textCols · 8)^[erased.length] t.text ∧
      (erased.foldl step t).commandLen = t.commandLen - erased.length := by
  induction erased generalizing t with
  | nil => exact ⟨rfl, rfl⟩
  | cons s erased ih =>
    rw [length_cons] at hlen
    obtain ⟨htext, hlen', hcols, hkeys⟩ := step_backspace hok h (hs s mem_cons_self) (by omega)
    obtain ⟨h1, h2⟩ := ih (hok.step s) hkeys
      (fun s' hs' => hs s' (mem_cons_of_mem s hs')) (by omega)
    rw [foldl_cons, length_cons]
    refine ⟨?_, by omega⟩
    rw [h1, htext, hcols, Function.iterate_succ_apply]

end

/-- The command has its length back, and the display its characters and its cursor. -/
def Restored (t u : Terminal) : Prop :=
  u.commandLen = t.commandLen ∧ u.text.lineCount = t.text.lineCount ∧ u.text.col = t.text.col ∧
    ∀ y < t.text.lineCount, ∀ x < termCols, u.text.lines y x = t.text.lines y x

/-- No row has left the buffer: it has grown by the rows that were begun. -/
def NoRowLost (t u : Terminal) : Prop :=
  u.text.lineCount + t.text.log.length = t.text.lineCount + u.text.log.length

end Terminal

open Terminal

/-- **Typed text can be erased exactly if it stays in its row.** In every reachable terminal whose
window takes keys, for every sequence of printable keys that fit into the command buffer and scroll
no row out: as many backspaces restore the command's length, the display and the cursor if and only
if nothing was typed or the text ends before the last column. -/
theorem erase_restores_iff (m : Metrics) (steps typed erased : List Step)
    (hkeys : (Terminal.run m steps).TakesKeys) (htyped : ∀ s ∈ typed, IsTyped s)
    (herased : ∀ s ∈ erased, IsBackspace s) (hsame : erased.length = typed.length)
    (hroom : (Terminal.run m steps).commandLen + typed.length < commandSize)
    (hkeep : (Terminal.run m steps).NoRowLost (typed.foldl step (Terminal.run m steps))) :
    (Terminal.run m steps).Restored (erased.foldl step (typed.foldl step (Terminal.run m steps))) ↔
      typed = [] ∨
        (Terminal.run m steps).text.col + typed.length < (Terminal.run m steps).textCols := by
  have hok := ok_run m steps
  generalize Terminal.run m steps = t at hkeys hroom hkeep hok ⊢
  obtain ⟨htext, hlen, hcols, hkeys', hok'⟩ := run_typed hok hkeys htyped hroom
  obtain ⟨htext', hlen'⟩ := run_backspaces hok' hkeys' herased (by omega)
  have hcs : ∀ c ∈ typed.map keyOf, 32 ≤ c ∧ c ≤ 126 := by
    intro c hc
    obtain ⟨s, hs, rfl⟩ := mem_map.mp hc
    have := htyped s hs
    cases s with
    | key c m z sv => exact this
    | _ => exact this.elim
  constructor
  · intro hrestored
    by_contra hlong
    rw [not_or, not_lt] at hlong
    -- a new row was begun, and the cursor stays in it
    have hlen : t.textCols ≤ t.text.col + (typed.map keyOf).length := by simpa using hlong.2
    have hrow := TextBuffer.log_lt_echo_all (by simpa using hlong.1) hcs hlen
    have hcount := hrestored.2.1
    rw [htext', TextBuffer.erase_rows] at hcount
    unfold NoRowLost at hkeep
    rw [htext] at hkeep hcount
    omega
  · intro hfit
    have hback : (erased.foldl step (typed.foldl step t)).text.unscrolled = t.text.unscrolled := by
      rw [htext', htext, hcols, hsame]
      rcases hfit with rfl | hfit
      · rfl
      · have := hok.text.echo_erase_all t.textCols_le hcs (by simpa using hfit)
        simpa using this
    have hcount := congrArg TextBuffer.lineCount hback
    have hcol := congrArg TextBuffer.col hback
    have hlines := congrArg TextBuffer.lines hback
    refine ⟨by omega, hcount, hcol, fun y _ x _ => ?_⟩
    exact congrFun (congrFun hlines y) x

/-- The terminal just opened on a screen of 640×480 pixels, with the prompt. -/
def openedTerminal : Terminal := Terminal.run ⟨640, 480, 30⟩ [press GuiSystem.keyF1]

theorem openedTerminal_takesKeys : openedTerminal.TakesKeys :=
  ⟨by decide +kernel, by decide +kernel⟩

theorem isTyped_replicate (n : ℕ) : ∀ s ∈ List.replicate n (press 97), IsTyped s := by
  intro s hs
  rw [(mem_replicate.mp hs).2]
  exact ⟨by decide, by decide⟩

theorem isBackspace_replicate (n : ℕ) : ∀ s ∈ List.replicate n (press 8), IsBackspace s := by
  intro s hs
  rw [(mem_replicate.mp hs).2]
  rfl

/-- In the window of 88 columns 81 characters after the prompt can be erased. -/
theorem erase_restores_row : openedTerminal.Restored ((List.replicate 81 (press 8)).foldl step
      ((List.replicate 81 (press 97)).foldl step openedTerminal)) :=
  (erase_restores_iff ⟨640, 480, 30⟩ [press GuiSystem.keyF1] (List.replicate 81 (press 97))
    (List.replicate 81 (press 8)) openedTerminal_takesKeys (isTyped_replicate 81)
    (isBackspace_replicate 81) (by decide) (by decide +kernel)
    (by unfold NoRowLost; decide +kernel)).mpr (.inr (by decide +kernel))

/-- **One character more cannot be erased**: it begins a new row, with no room for a backspace. -/
theorem erase_stays_in_row :
    let u := (List.replicate 82 (press 97)).foldl step openedTerminal
    openedTerminal.TakesKeys ∧ openedTerminal.commandLen + 82 < commandSize ∧
      openedTerminal.NoRowLost u ∧
      ¬ openedTerminal.Restored ((List.replicate 82 (press 8)).foldl step u) := by
  refine ⟨openedTerminal_takesKeys, by decide +kernel, ?_, fun hrestored => ?_⟩
  · unfold NoRowLost
    decide +kernel
  · exact absurd hrestored.2.1 (by decide +kernel)

end MyOS.Gui
