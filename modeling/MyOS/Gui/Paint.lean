import MyOS.Gui.Explorer
import MyOS.Gui.Terminal

/-!
# What the windows paint

The `draw` functions of the five applications, as the calls of `graphics.c` that they make. Each
fills the rectangle of its window first (`fill_mem_drawApp`). Texts are not cut off at the window:
a character is put pixel by pixel wherever it lies on the surface, so the last rows of
`draw_monitor`, a long name in `draw_files` or the path of the notepad are painted beside a window
that is too small for them.
-/

namespace MyOS.Gui

def colorAccent : UInt32 := 0x000078D4
def colorWindow : UInt32 := 0x00EEF3F8
def colorWindowBorder : UInt32 := 0x004A5D6E
def colorTerminalBg : UInt32 := 0x00071116
def colorTerminalFg : UInt32 := 0x0058D77A

/-- The point is one of those that a call paints. The characters of a text are cells of 6×8 pixels,
side by side, and the coordinates of their pixels are taken modulo 2³². -/
def GraphicsCall.Paints (s : Surface) (px py : ℤ) : GraphicsCall → Prop
  | .fillRect x y w h _ => (s.fillRegion x y w h).contains px py = true
  | .drawString x y text _ _ =>
    (0 ≤ px ∧ px < s.width ∧ 0 ≤ py ∧ py < s.height) ∧
      u32 (px - x) < 6 * text.length ∧ u32 (py - y) < 8

instance (s : Surface) (px py : ℤ) : DecidablePred (GraphicsCall.Paints s px py)
  | .fillRect .. => inferInstanceAs (Decidable (_ = true))
  | .drawString .. => inferInstanceAs (Decidable (_ ∧ _))

/-- What the applications show in their windows: the names of the files, the numbers of the monitor,
the text of the notepad, and that of the terminal. -/
structure Contents where
  names : List (List Char)
  values : Fin 7 → UInt32
  notes : List Char
  path : List Char
  dirty : Bool
  lastSaveOk : Bool
  text : TextBuffer
  ticks : UInt32

/-! ### Frames -/

/-- `graphics_draw_rect`. -/
def drawRect (r : Rect) (color : UInt32) : List GraphicsCall :=
  if r.w = 0 ∨ r.h = 0 then []
  else
    [.fillRect r.x r.y r.w 1 color, .fillRect r.x (r.y + r.h - 1) r.w 1 color,
      .fillRect r.x r.y 1 r.h color, .fillRect (r.x + r.w - 1) r.y 1 r.h color]

/-- The window, its title and its three buttons, which all applications draw alike. -/
def drawFrame (win : Window) (title : List Char) : List GraphicsCall :=
  let ⟨x, y, w, h⟩ := win.rect
  let titleColor := if win.focused then colorAccent else 0x00505E6A
  .fillRect x y w h colorWindow ::
    drawRect win.rect (if win.focused then colorAccent else colorWindowBorder) ++
    [.fillRect (x + 1) (y + 1) (w - 2) titlebarH titleColor,
      .drawString (x + 7) (y + 6) title 15 titleColor,
      .fillRect (x + w - 48) (y + 4) 13 11 0x006D7781,
      .drawString (x + w - 44) (y + 6) ['_'] 15 0x006D7781,
      .fillRect (x + w - 33) (y + 4) 13 11 0x006D7781,
      .drawString (x + w - 30) (y + 6) ['M'] 15 0x006D7781,
      .fillRect (x + w - 18) (y + 4) 13 11 0x00B84A4A,
      .drawString (x + w - 14) (y + 6) ['X'] 15 0x00B84A4A]

/-! ### The applications -/

namespace UtilityApp

/-- `UtilityApp::draw_chrome`. -/
def drawChrome (win : Window) (title : String) : List GraphicsCall :=
  drawFrame win title.toList ++ [.fillRect (win.rect.x + 6) (win.rect.y + titlebarH + 5)
    (win.rect.w - 12) (win.rect.h - titlebarH - 12) 0x00FFFFFF]

/-- `draw_u32`. -/
def drawU32 (x y : ℤ) (label : String) (value : UInt32) : List GraphicsCall :=
  [.drawString x y label.toList colorTextDark 0x00FFFFFF,
    .drawString (x + 108) y (Nat.toDigits 10 value.toNat) colorAccentDark 0x00FFFFFF]

/-- `UtilityApp::draw_monitor`. -/
def drawMonitor (win : Window) (values : Fin 7 → UInt32) : List GraphicsCall :=
  let x := win.rect.x + 14
  let y := win.rect.y + titlebarH + 16
  drawU32 x y "UPTIME" (values 0) ++ drawU32 x (y + 14) "TICKS" (values 1) ++
    drawU32 x (y + 28) "FREE PAGES" (values 2) ++ drawU32 x (y + 42) "HEAP FREE" (values 3) ++
    drawU32 x (y + 56) "SWITCHES" (values 4) ++ drawU32 x (y + 70) "PROCESSES" (values 5) ++
    drawU32 x (y + 84) "FSCK ERR" (values 6)

/-- `UtilityApp::draw_about`. -/
def drawAbout (win : Window) : List GraphicsCall :=
  let x := win.rect.x + 14
  let y := win.rect.y + titlebarH + 16
  [.drawString x y "MYOS DESKTOP".toList colorAccentDark 0x00FFFFFF,
    .drawString x (y + 16) "FREESTANDING C++ GUI".toList colorTextDark 0x00FFFFFF,
    .drawString x (y + 28) "WINDOW MANAGER + APPS".toList colorTextDark 0x00FFFFFF,
    .drawString x (y + 40) "DISKFS, MONITOR, TERMINAL".toList colorTextDark 0x00FFFFFF]

end UtilityApp

namespace NotepadApp

/-- `NotepadApp::draw_chrome`. -/
def drawChrome (win : Window) : List GraphicsCall :=
  let ⟨x, y, w, h⟩ := win.rect
  drawFrame win "NOTEPAD".toList ++
    [.fillRect (x + 6) (y + titlebarH + 5) (w - 12) (h - titlebarH - 22) 0x00FFFFFF,
      .fillRect (x + 6) (y + h - 15) (w - 12) 10 0x00EEF3F8]

/-- The loop of `draw_text`, at the place of the next character. -/
def drawNotes (win : Window) : List Char → ℤ → ℤ → List GraphicsCall
  | [], _, _ => []
  | c :: cs, x, y =>
    if y < win.rect.y + win.rect.h - 20 then
      if c = '\n' then drawNotes win cs (win.rect.x + 10) (y + 8)
      else
        .drawString x y [c] colorTextDark 0x00FFFFFF ::
          if x + 6 + 6 > win.rect.x + win.rect.w - 12 then
            drawNotes win cs (win.rect.x + 10) (y + 8)
          else drawNotes win cs (x + 6) y
    else []

/-- `NotepadApp::draw_text`. -/
def drawText (win : Window) (c : Contents) : List GraphicsCall :=
  let ⟨x, y, w, h⟩ := win.rect
  let status := if c.dirty then "MODIFIED  CTRL+S SAVE"
    else if c.lastSaveOk then "SAVED" else "CTRL+S SAVE"
  drawNotes win c.notes (x + 10) (y + titlebarH + 10) ++
    [.drawString (x + 10) (y + h - 13) c.path colorAccentDark 0x00EEF3F8,
      .drawString (x + w - 126) (y + h - 13) status.toList colorTextDark 0x00EEF3F8]

end NotepadApp

namespace TerminalApp

/-- `TerminalApp::visible_rows`. -/
def visibleRows (win : Window) : ℕ :=
  if win.rect.h < titlebarH + 18 then 1
  else
    let rows := ((win.rect.h - titlebarH - 12) / 8).toNat
    if rows = 0 then 1 else rows

/-- The loops of `draw` over the rows and columns. The loop over the rows ends behind the last line
of the buffer. -/
def drawLines (win : Window) (t : TextBuffer) : List GraphicsCall :=
  let rows := visibleRows win
  let maxStart := if t.lineCount > rows then t.lineCount - rows else 0
  let start := if maxStart > t.scroll then maxStart - t.scroll else 0
  ((List.range rows).takeWhile fun row => start + row < t.lineCount).flatMap fun row : ℕ =>
    (List.range win.textCols).map fun col : ℕ =>
      .drawString (win.rect.x + 8 + col * 6) (win.rect.y + titlebarH + 6 + row * 8)
        [Char.ofNat (t.lines (start + row) col).toNat] colorTerminalFg colorTerminalBg

/-- The cursor of the terminal, while it is shown. -/
def drawCaret (win : Window) (t : TextBuffer) (ticks : UInt32) : List GraphicsCall :=
  if win.focused ∧ ticks / 40 % 2 = 0 ∧ t.scroll = 0 then
    let rows := visibleRows win
    let row : ℤ := if t.lineCount < rows then t.lineCount - 1 else rows - 1
    let col : ℤ := if t.col < win.textCols then t.col else win.textCols - 1
    [.fillRect (win.rect.x + 8 + col * 6) (win.rect.y + titlebarH + 6 + row * 8 + 7) 5 1
      colorTerminalFg]
  else []

/-- `TerminalApp::draw`, of a visible window. -/
def draw (win : Window) (c : Contents) : List GraphicsCall :=
  let ⟨x, y, w, h⟩ := win.rect
  drawFrame win "MYOS TERMINAL".toList ++
    [.fillRect (x + 4) (y + titlebarH + 3) (w - 8) (h - titlebarH - 8) colorTerminalBg] ++
    drawLines win c.text ++ drawCaret win c.text c.ticks ++
    [.fillRect (x + w - 8) (y + h - 8) 7 7 0x00898F98,
      .drawString (x + w - 8) (y + h - 9) ['/'] colorTextDark 0x00898F98]

end TerminalApp

open UtilityApp

/-- `draw` of the applications, for a visible window. -/
def drawApp (c : Contents) (win : Window) : AppId → List GraphicsCall
  | .terminal => TerminalApp.draw win c
  | .files => drawChrome win "FILE EXPLORER" ++ drawFiles win c.names
  | .monitor => drawChrome win "SYSTEM MONITOR" ++ drawMonitor win c.values
  | .about => drawChrome win "ABOUT MYOS" ++ drawAbout win
  | .notepad => NotepadApp.drawChrome win ++ NotepadApp.drawText win c

/-- Every application fills its window. -/
theorem fill_mem_drawApp (c : Contents) (win : Window) (a : AppId) :
    .fillRect win.rect.x win.rect.y win.rect.w win.rect.h colorWindow ∈ drawApp c win a := by
  cases a <;>
    simp [drawApp, TerminalApp.draw, drawChrome, NotepadApp.drawChrome, NotepadApp.drawText,
      drawFrame]

end MyOS.Gui
