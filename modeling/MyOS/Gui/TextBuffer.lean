import Mathlib.Data.List.Basic
import Mathlib.Data.Int.ModEq
import Mathlib.Logic.Function.Basic
import Mathlib.Tactic.SplitIfs

/-!
# The text of the terminal

`clear_buffer`, `newline`, `write` and `scroll` of `TerminalApp`: up to 96 rows of 160 characters
with a current column in the last row. A character that does not fit into the columns of the window
begins a new row, before or after it is stored, and when the buffer is full all rows move up.

Two fields are not in the source. `fault` is set by an access outside of `lines_`, and `log` has all
rows since the last clear, newest first. `Ok` says that there was no such access and that the buffer
has the newest rows of the log; every operation keeps it, for any number of columns in each call.
-/

namespace MyOS.Gui

open Function List

/-- The bytes of a string of the source. -/
def ascii (s : String) : List UInt8 := s.toList.map fun c => c.toNat.toUInt8

/-- `COLS` and `HISTORY_ROWS`. -/
def termCols : ℕ := 160
def historyRows : ℕ := 96

def space : UInt8 := 32

/-- A row of the terminal. -/
abbrev Row := ℕ → UInt8

def blankRow : Row := fun _ => space

structure TextBuffer where
  lines : ℕ → Row
  lineCount : ℕ
  col : ℕ
  scroll : ℕ
  /-- An access was outside of `lines_`. -/
  fault : Bool
  /-- The rows since the last clear, newest first. -/
  log : List Row

namespace TextBuffer

/-- `lines_[row][col] = c`, in the last row. -/
def setCell (b : TextBuffer) (row col : ℕ) (c : UInt8) : TextBuffer :=
  { b with
    lines := update b.lines row (update (b.lines row) col c)
    fault := b.fault || !(decide (row < historyRows) && decide (col < termCols + 1))
    log := b.log.modifyHead fun r => update r col c }

/-- `TerminalApp::clear_buffer`. -/
def clearBuffer (b : TextBuffer) : TextBuffer :=
  { b with
    lines := fun y x =>
      if y < historyRows ∧ x < termCols then space
      else if y < historyRows ∧ x = termCols then 0 else b.lines y x
    lineCount := 1
    col := 0
    scroll := 0
    log := [blankRow] }

/-- `TerminalApp::newline`. -/
def newline (b : TextBuffer) : TextBuffer :=
  if b.lineCount < historyRows then
    { b with
      col := 0
      lineCount := b.lineCount + 1
      lines := fun y x => if y = b.lineCount ∧ x < termCols then space else b.lines y x
      log := blankRow :: b.log }
  else
    { b with
      col := 0
      lines := fun y x =>
        if x < termCols then
          if y + 1 < historyRows then b.lines (y + 1) x
          else if y + 1 = historyRows then space else b.lines y x
        else b.lines y x
      log := blankRow :: b.log }

/-- One round of the loop of `TerminalApp::write`, in a window of `cols` columns. -/
def writeChar (cols : ℕ) (b : TextBuffer) (c : UInt8) : TextBuffer :=
  if c = 10 then b.newline
  else if c = 8 then
    if 0 < b.col then { b with col := b.col - 1 }.setCell (b.lineCount - 1) (b.col - 1) space else b
  else if c < 32 ∨ c > 126 then b
  else
    let b := if b.col ≥ cols then b.newline else b
    let b := { b.setCell (b.lineCount - 1) b.col c with col := b.col + 1 }
    if b.col ≥ cols then b.newline else b

/-- `TerminalApp::write`; the text ends at its first NUL. -/
def write (cols : ℕ) (b : TextBuffer) (text : List UInt8) : TextBuffer :=
  let b := if b.lineCount = 0 then { b with lineCount := 1 } else b
  { (text.takeWhile (· != 0)).foldl (writeChar cols) b with scroll := 0 }

/-- `TerminalApp::scroll`. -/
def scrollBy (b : TextBuffer) (delta : ℤ) : TextBuffer :=
  if delta > 0 then
    if b.scroll + delta.toNat < b.lineCount then { b with scroll := b.scroll + delta.toNat }
    else { b with scroll := if b.lineCount > 0 then b.lineCount - 1 else 0 }
  else if delta < 0 then
    { b with scroll := if delta.natAbs > b.scroll then 0 else b.scroll - delta.natAbs }
  else b

/-! ### The invariant -/

/-- The rows are the newest ones of the log, and no access was out of bounds. -/
structure Core (b : TextBuffer) : Prop where
  pos : 1 ≤ b.lineCount
  le : b.lineCount ≤ historyRows
  scroll_lt : b.scroll < b.lineCount
  safe : b.fault = false
  kept : b.lineCount = min historyRows b.log.length
  rows : ∀ i < b.lineCount, ∀ x < termCols,
    b.lines (b.lineCount - 1 - i) x = b.log.getD i blankRow x

/-- Between two characters the column is in the row, and the rest of the row is blank. -/
structure Ok (b : TextBuffer) : Prop extends Core b where
  col_lt : b.col < termCols
  blank : ∀ x, b.col ≤ x → x < termCols → b.lines (b.lineCount - 1) x = space

variable {b : TextBuffer} {cols : ℕ}

/-- There is always a row. -/
theorem Core.log_eq_cons (h : b.Core) : ∃ r rs, b.log = r :: rs := by
  have hpos := h.pos
  have hkept := h.kept
  cases hb : b.log with
  | nil =>
    rw [hb, length_nil, Nat.min_zero] at hkept
    omega
  | cons r rs => exact ⟨r, rs, rfl⟩

/-- **Step.** A new row. -/
theorem Core.newline (h : b.Core) : b.newline.Ok := by
  obtain ⟨hpos, hle, hscroll, hsafe, hkept, hrows⟩ := h
  by_cases hroom : b.lineCount < historyRows
  · have hnew : b.newline = { b with
        col := 0
        lineCount := b.lineCount + 1
        lines := fun y x => if y = b.lineCount ∧ x < termCols then space else b.lines y x
        log := blankRow :: b.log } := if_pos hroom
    rw [hnew]
    simp only [historyRows] at hroom hkept
    refine ⟨⟨by simp, hroom, ?_, hsafe, ?_, fun i hi x hx => ?_⟩, by simp [termCols],
      fun x _ hx => ?_⟩
    · dsimp only
      omega
    · simp only [historyRows, length_cons]
      omega
    · dsimp only at hi ⊢
      cases i with
      | zero => simp [blankRow, hx]
      | succ i =>
        rw [if_neg (by omega), getD_cons_succ, ← hrows i (by omega) x hx]
        congr 1
        omega
    · simp [hx]
  · -- the buffer is full and all rows move up
    have hnew : b.newline = { b with
        col := 0
        lines := fun y x =>
          if x < termCols then
            if y + 1 < historyRows then b.lines (y + 1) x
            else if y + 1 = historyRows then space else b.lines y x
          else b.lines y x
        log := blankRow :: b.log } := if_neg hroom
    rw [hnew]
    simp only [historyRows] at hroom hle hkept
    have hfull : b.lineCount = 96 := by omega
    refine ⟨⟨hpos, hle, hscroll, hsafe, ?_, fun i hi x hx => ?_⟩, by simp [termCols],
      fun x _ hx => ?_⟩
    · simp only [historyRows, length_cons]
      omega
    · dsimp only at hi ⊢
      rw [if_pos hx, hfull]
      cases i with
      | zero => simp [blankRow, historyRows]
      | succ i =>
        rw [if_pos (by simp only [historyRows]; omega), getD_cons_succ,
          ← hrows i (by omega) x hx, hfull]
        congr 1
        omega
    · dsimp only
      rw [if_pos hx, hfull]
      simp [historyRows]

/-- **Step.** A character of the last row. -/
theorem Core.setCell (h : b.Core) {x : ℕ} (hx : x < termCols) (c : UInt8) :
    (b.setCell (b.lineCount - 1) x c).Core := by
  obtain ⟨r, rs, hlog⟩ := h.log_eq_cons
  obtain ⟨hpos, hle, hscroll, hsafe, hkept, hrows⟩ := h
  refine ⟨hpos, hle, hscroll, ?_, ?_, ?_⟩
  · have hrow : b.lineCount - 1 < historyRows := by omega
    have hcol : x < termCols + 1 := by omega
    simp [TextBuffer.setCell, hsafe, hrow, hcol]
  · simp only [TextBuffer.setCell, length_modifyHead]
    exact hkept
  · intro i hi y hy
    simp only [TextBuffer.setCell] at hi ⊢
    have hrow := hrows i hi y hy
    rw [hlog] at hrow ⊢
    rw [modifyHead_cons]
    cases i with
    | zero =>
      rw [Nat.sub_zero] at hrow ⊢
      rw [update_self, getD_cons_zero]
      rw [getD_cons_zero] at hrow
      by_cases hyx : y = x
      · rw [hyx, update_self, update_self]
      · rw [update_of_ne hyx, update_of_ne hyx, hrow]
    | succ i =>
      rw [update_of_ne (by omega), getD_cons_succ]
      rwa [getD_cons_succ] at hrow

/-- The column plays no part in `Core`. -/
theorem Core.setCol (h : b.Core) (col : ℕ) : { b with col := col }.Core :=
  ⟨h.pos, h.le, h.scroll_lt, h.safe, h.kept, h.rows⟩

/-- **Step.** Backspace. -/
theorem Ok.backspace (h : b.Ok) (hcol : 0 < b.col) :
    ({ b with col := b.col - 1 }.setCell (b.lineCount - 1) (b.col - 1) space).Ok := by
  have hlt := h.col_lt
  refine { (h.toCore.setCol (b.col - 1)).setCell (x := b.col - 1) (by omega) space with
    col_lt := ?_, blank := ?_ }
  · change b.col - 1 < termCols
    omega
  · intro x hle hx
    simp only [TextBuffer.setCell] at hle ⊢
    rw [update_self]
    by_cases hxc : x = b.col - 1
    · rw [hxc, update_self]
    · rw [update_of_ne hxc]
      exact h.blank x (by omega) hx

/-- **Step.** A printable character. -/
theorem Ok.put (h : b.Ok) (hcols : cols ≤ termCols) (c : UInt8) :
    (let b' := { b.setCell (b.lineCount - 1) b.col c with col := b.col + 1 }
     if b'.col ≥ cols then b'.newline else b').Ok := by
  have hcore := (h.toCore.setCell h.col_lt c).setCol (b.col + 1)
  dsimp only
  split_ifs with hend
  · exact hcore.newline
  · refine { hcore with col_lt := ?_, blank := ?_ }
    · change b.col + 1 < termCols
      omega
    · intro x hle hx
      simp only [TextBuffer.setCell] at hle ⊢
      rw [update_self, update_of_ne (by omega)]
      exact h.blank x (by omega) hx

/-- **Step.** One character of a text. -/
theorem Ok.writeChar (h : b.Ok) (h1 : cols ≤ termCols) (c : UInt8) : (b.writeChar cols c).Ok := by
  unfold TextBuffer.writeChar
  split_ifs with hnl hbs hcol hskip hwrap
  · exact h.toCore.newline
  · exact h.backspace hcol
  · exact h
  · exact h
  · -- the row is full, as the window has become narrower: the character begins a new row
    exact h.toCore.newline.put h1 c
  · exact h.put h1 c

/-- **Run.** `write` keeps the invariant. -/
theorem Ok.write (h : b.Ok) (h1 : cols ≤ termCols) (text : List UInt8) :
    (b.write cols text).Ok := by
  have hloop : ∀ (l : List UInt8) (b : TextBuffer), b.Ok →
      (l.foldl (TextBuffer.writeChar cols) b).Ok := by
    intro l
    induction l with
    | nil => exact fun b hb => hb
    | cons c l ih => exact fun b hb => ih _ (hb.writeChar h1 c)
  unfold TextBuffer.write
  have hpos := h.pos
  rw [if_neg (by omega)]
  have hend := hloop (text.takeWhile (· != 0)) b h
  exact { hend with scroll_lt := hend.pos }

theorem ok_clearBuffer {b : TextBuffer} (h : b.fault = false) : b.clearBuffer.Ok where
  pos := le_refl 1
  le := by simp [clearBuffer, historyRows]
  scroll_lt := Nat.one_pos
  safe := h
  kept := by simp [clearBuffer, historyRows]
  rows i hi x hx := by
    simp only [clearBuffer, Nat.lt_one_iff] at hi
    simp [clearBuffer, hi, hx, historyRows, blankRow]
  col_lt := by simp [clearBuffer, termCols]
  blank x _ hx := by simp [clearBuffer, hx, historyRows]

theorem Ok.setScroll (h : b.Ok) {n : ℕ} (hn : n < b.lineCount) : { b with scroll := n }.Ok :=
  { h with scroll_lt := hn }

theorem Ok.scrollBy (h : b.Ok) (delta : ℤ) : (b.scrollBy delta).Ok := by
  have hpos := h.pos
  have hlt := h.scroll_lt
  unfold TextBuffer.scrollBy
  split
  · split
    · exact h.setScroll (by assumption)
    · exact h.setScroll (by split_ifs <;> omega)
  · split
    · exact h.setScroll (by split_ifs <;> omega)
    · exact h

end TextBuffer

end MyOS.Gui
