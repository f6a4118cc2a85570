import Mathlib.Data.Int.ModEq
import Mathlib.Tactic.SplitIfs

/-!
# Windows of the desktop

`gui_types.hpp`, `wm/window_manager.cpp` and the window part of the three application classes.
Coordinates are integers: a screen is at most 65535 pixels wide and high (`boot_graphics_info` has
16-bit fields), so the signed arithmetic of the source does not overflow. Where the source computes
with unsigned numbers the residue is written out (`u32`, `i32`).

A window `Fits` a screen if its rectangle and the saved one lie on the desktop and have at least the
minimal size. Every operation on a window keeps this.
-/

namespace MyOS.Gui

/-- The value of an `int32_t` expression as a `uint32_t`. -/
def u32 (v : ℤ) : ℤ := v % 4294967296

/-- The value of a `uint32_t` expression as an `int32_t`. -/
def i32 (v : ℤ) : ℤ := if u32 v < 2147483648 then u32 v else u32 v - 4294967296

theorem u32_eq {v : ℤ} (h0 : 0 ≤ v) (h : v < 4294967296) : u32 v = v := Int.emod_eq_of_lt h0 h

theorem i32_eq {v : ℤ} (h0 : 0 ≤ v) (h : v < 2147483648) : i32 v = v := by
  have hu : u32 v = v := u32_eq h0 (by omega)
  rw [i32, hu, if_pos h]

/-! ### Constants -/

def iconX : ℤ := 10
def iconY : ℤ := 30
def iconW : ℤ := 96
def iconH : ℤ := 46
def titlebarH : ℤ := 18
def windowMinW : ℤ := 168
def windowMinH : ℤ := 82
def startButtonW : ℤ := 58
def taskButtonX : ℤ := 70
def taskButtonW : ℤ := 92
def clickSlop : ℤ := 6
def doubleClickTicks : UInt32 := 80

/-! ### Data types -/

/-- `enum class WindowMode`. -/
inductive WindowMode where
  | normal | minimized | maximized
deriving DecidableEq, Repr

/-- `enum class AppId`, without `None`: a missing application is `none : Option AppId`. -/
inductive AppId where
  | terminal | files | monitor | about | notepad
deriving DecidableEq, Repr

/-- `enum class WindowArea`. -/
inductive WindowArea where
  | none | client | titlebar | minimize | maximize | close | resize
deriving DecidableEq, Repr

/-- `struct Rect`. -/
structure Rect where
  x : ℤ
  y : ℤ
  w : ℤ
  h : ℤ
deriving DecidableEq, Repr

/-- `Rect::contains`. -/
def Rect.contains (r : Rect) (px py : ℤ) : Bool :=
  decide (r.x ≤ px) && decide (px < r.x + r.w) && decide (r.y ≤ py) && decide (py < r.y + r.h)

/-- `struct Metrics`. -/
structure Metrics where
  width : ℕ
  height : ℕ
  taskbarH : ℕ
deriving DecidableEq, Repr

/-- `struct Window`; the four coordinates and the four saved ones are two rectangles. -/
structure Window where
  rect : Rect
  restore : Rect
  isOpen : Bool
  focused : Bool
  mode : WindowMode
  z : ℕ
deriving DecidableEq, Repr

/-- `Window::visible`. -/
def Window.visible (w : Window) : Bool := w.isOpen && w.mode != .minimized

/-! ### Default geometry -/

/-- `TerminalApp::default_geometry`. -/
def TerminalApp.defaultGeometry (m : Metrics) : Rect :=
  let w : ℤ := if m.width > 96 then i32 (m.width - 96) else 244
  let h : ℤ := if m.height > 140 then i32 (m.height - m.taskbarH - 74) else 134
  let w := if w > 640 then 640 else w
  let h := if h > 360 then 360 else h
  let w := if w < windowMinW then windowMinW else w
  let h := if h < 134 then 134 else h
  let w := if u32 w > u32 (m.width - 8) then i32 m.width - 8 else w
  let h := if u32 h > u32 (m.height - m.taskbarH - 8) then i32 (m.height - m.taskbarH - 8) else h
  { x := i32 (u32 (m.width - w) / 2)
    y := if m.height > 260 then 42 else 26
    w := w
    h := h }

/-- The offset by which the windows of `UtilityApp` are spread; only `files`, `monitor` and `about`
are of this class. -/
def UtilityApp.offset : AppId → ℤ
  | .files => -36
  | .monitor => 16
  | _ => 56

/-- `UtilityApp::default_geometry`. -/
def UtilityApp.defaultGeometry (kind : AppId) (m : Metrics) : Rect :=
  let w : ℤ := if m.width ≥ 640 then 360 else 230
  let h : ℤ := if m.height ≥ 480 then 260 else 150
  let w := if w > i32 m.width - 12 then i32 m.width - 12 else w
  let h := if h > i32 m.height - i32 m.taskbarH - 12 then i32 m.height - i32 m.taskbarH - 12 else h
  let w := if w < windowMinW then windowMinW else w
  let h := if h < windowMinH then windowMinH else h
  let x := i32 (u32 (m.width - w) / 2) + offset kind
  let y := if m.height > 260 then 58 + (offset kind).tdiv 4 else 30
  { x := if x < 4 then 4 else x
    y := if y < 4 then 4 else y
    w := w
    h := h }

/-- `NotepadApp::default_geometry`. -/
def NotepadApp.defaultGeometry (m : Metrics) : Rect :=
  let w : ℤ := if m.width ≥ 640 then 430 else 248
  let h : ℤ := if m.height ≥ 480 then 300 else 160
  let w := if w > i32 m.width - 10 then i32 m.width - 10 else w
  let h := if h > i32 m.height - i32 m.taskbarH - 10 then i32 m.height - i32 m.taskbarH - 10 else h
  let w := if w < windowMinW then windowMinW else w
  let h := if h < windowMinH then windowMinH else h
  { x := i32 (u32 (m.width - w) / 2) + 28
    y := if m.height > 260 then 72 else 24
    w := w
    h := h }

/-- `default_geometry` of an application. -/
def defaultGeometry : AppId → Metrics → Rect
  | .terminal => TerminalApp.defaultGeometry
  | .notepad => NotepadApp.defaultGeometry
  | kind => UtilityApp.defaultGeometry kind

/-! ### Operations of the applications

`initialize`, `focus`, `minimize`, `close` and `toggle_maximize` do the same to the window in the
three classes; `open_window` does not. -/

/-- `initialize`: a closed window with the default geometry. -/
def windowInitialize (r : Rect) : Window :=
  { rect := r, restore := r, isOpen := false, focused := false, mode := .normal, z := 0 }

/-- `focus`. -/
def Window.focus (z : ℕ) (w : Window) : Window :=
  if w.isOpen then { w with focused := true, z := z } else w

@[simp] theorem Window.focus_isOpen (z : ℕ) (w : Window) : (w.focus z).isOpen = w.isOpen := by
  unfold Window.focus
  split <;> rfl

@[simp] theorem Window.focus_mode (z : ℕ) (w : Window) : (w.focus z).mode = w.mode := by
  unfold Window.focus
  split <;> rfl

@[simp] theorem Window.focus_rect (z : ℕ) (w : Window) : (w.focus z).rect = w.rect := by
  unfold Window.focus
  split <;> rfl

@[simp] theorem Window.focus_restore (z : ℕ) (w : Window) : (w.focus z).restore = w.restore := by
  unfold Window.focus
  split <;> rfl

/-- `window().focused = false`. -/
def Window.unfocus (w : Window) : Window := { w with focused := false }

/-- `minimize`. -/
def Window.minimize (w : Window) : Window := { w with mode := .minimized, focused := false }

/-- `close`. -/
def Window.close (w : Window) : Window :=
  { w with isOpen := false, focused := false, mode := .normal }

/-- `toggle_maximize`. -/
def Window.toggleMaximize (m : Metrics) (z : ℕ) (w : Window) : Window :=
  if w.mode = .maximized then Window.focus z { w with mode := .normal, rect := w.restore }
  else Window.focus z
    { w with
      restore := w.rect
      mode := .maximized
      rect := ⟨2, 4, i32 (m.width - 4), i32 (m.height - m.taskbarH - 6)⟩ }

/-- `default_geometry`, saved at once. -/
def Window.place (r : Rect) (w : Window) : Window := { w with rect := r, restore := r }

/-- `UtilityApp::open_window`. The mode of a window that is open already stays. -/
def UtilityApp.openWindow (kind : AppId) (m : Metrics) (z : ℕ) (w : Window) : Window :=
  let w := if w.isOpen then w else
    { w.place (defaultGeometry kind m) with isOpen := true, mode := .normal }
  w.focus z

/-- `TerminalApp::open_window`. -/
def TerminalApp.openWindow (m : Metrics) (z : ℕ) (w : Window) : Window :=
  if w.isOpen then
    let w := if w.mode = .minimized then { w with mode := .normal } else w
    w.focus z
  else
    { w.place (defaultGeometry m) with isOpen := true, focused := true, mode := .normal, z := z }

/-- `NotepadApp::open_window`; `open_file` does the same to the window. -/
def NotepadApp.openWindow (m : Metrics) (z : ℕ) (w : Window) : Window :=
  let w := if w.isOpen then w else w.place (defaultGeometry m)
  Window.focus z { w with isOpen := true, mode := .normal }

/-- `open_window` of an application. -/
def openWindow : AppId → Metrics → ℕ → Window → Window
  | .terminal => TerminalApp.openWindow
  | .notepad => NotepadApp.openWindow
  | kind => UtilityApp.openWindow kind

/-- The mode that `open_window` leaves: only the classes of the terminal and of notepad set it if
the window is open. -/
def openedMode (a : AppId) (w : Window) : WindowMode :=
  if w.isOpen = false ∨ a = .notepad ∨ (a = .terminal ∧ w.mode = .minimized) then .normal
  else w.mode

/-- **What `open_window` does**, in each class. -/
theorem openWindow_eq (a : AppId) (m : Metrics) (z : ℕ) (w : Window) : openWindow a m z w =
    { (if w.isOpen then w else w.place (defaultGeometry a m)) with
      isOpen := true, focused := true, mode := openedMode a w, z := z } := by
  obtain ⟨rect, restore, isOpen, focused, mode, z'⟩ := w
  cases isOpen <;> cases a <;> cases mode <;> rfl

/-! ### The window manager -/

/-- `class WindowManager`. -/
structure WindowManager where
  dragging : Bool
  resizing : Bool
  dragOffsetX : ℤ
  dragOffsetY : ℤ
deriving DecidableEq, Repr

/-- `WindowManager::hit_window`. -/
def hitWindow (w : Window) (x y : ℤ) : WindowArea :=
  let r := w.rect
  if !w.visible || !r.contains x y then .none
  else if Rect.contains ⟨r.x + r.w - 18, r.y + 4, 13, 11⟩ x y then .close
  else if Rect.contains ⟨r.x + r.w - 33, r.y + 4, 13, 11⟩ x y then .maximize
  else if Rect.contains ⟨r.x + r.w - 48, r.y + 4, 13, 11⟩ x y then .minimize
  else if Rect.contains ⟨r.x + r.w - 10, r.y + r.h - 10, 10, 10⟩ x y && w.mode != .maximized then
    .resize
  else if Rect.contains ⟨r.x, r.y, r.w, titlebarH + 2⟩ x y && w.mode != .maximized then .titlebar
  else .client

/-- A window is hit exactly where it is seen: it is visible and covers the point. -/
theorem hitWindow_eq_none_iff (w : Window) (x y : ℤ) :
    hitWindow w x y = .none ↔ ¬(w.visible = true ∧ w.rect.contains x y = true) := by
  by_cases h : w.visible = true ∧ w.rect.contains x y = true
  · obtain ⟨hv, hc⟩ := h
    simp only [hitWindow, hv, hc, Bool.not_true, Bool.or_self, Bool.false_eq_true, if_false,
      and_self, not_true, iff_false]
    split_ifs <;> simp
  · refine ⟨fun _ => h, fun _ => ?_⟩
    have hout : (!w.visible || !w.rect.contains x y) = true := by
      rw [← Bool.not_and, Bool.not_eq_true', Bool.eq_false_iff, Ne, Bool.and_eq_true]
      exact h
    unfold hitWindow
    rw [if_pos hout]

/-- `WindowManager::begin_drag`. -/
def WindowManager.beginDrag (w : Window) (x y : ℤ) : WindowManager :=
  { dragging := true, resizing := false, dragOffsetX := x - w.rect.x, dragOffsetY := y - w.rect.y }

/-- `WindowManager::begin_resize`. -/
def WindowManager.beginResize (wm : WindowManager) : WindowManager :=
  { wm with resizing := true, dragging := false }

/-- `WindowManager::end_pointer_action`. -/
def WindowManager.endPointerAction (wm : WindowManager) : WindowManager :=
  { wm with dragging := false, resizing := false }

/-- `WindowManager::update_drag`. -/
def WindowManager.updateDrag (wm : WindowManager) (m : Metrics) (px py : ℤ) (w : Window) : Window :=
  let desktopW := i32 m.width
  let desktopH := i32 (m.height - m.taskbarH)
  let x := px - wm.dragOffsetX
  let y := py - wm.dragOffsetY
  let x := if x < 0 then 0 else x
  let y := if y < 0 then 0 else y
  let x := if x + w.rect.w > desktopW then desktopW - w.rect.w else x
  let y := if y + w.rect.h > desktopH then desktopH - w.rect.h else y
  { w with rect := { w.rect with x := x, y := y } }

/-- `WindowManager::update_resize`. -/
def updateResize (m : Metrics) (px py : ℤ) (win : Window) : Window :=
  let desktopW := i32 m.width
  let desktopH := i32 (m.height - m.taskbarH)
  let w := px - win.rect.x + 1
  let h := py - win.rect.y + 1
  let w := if w < windowMinW then windowMinW else w
  let h := if h < windowMinH then windowMinH else h
  let w := if win.rect.x + w > desktopW then desktopW - win.rect.x else w
  let h := if win.rect.y + h > desktopH then desktopH - win.rect.y else h
  { win with rect := { win.rect with w := w, h := h } }

/-! ### Windows that fit the screen -/

/-- A screen of at least 640×480 pixels, with the taskbar that goes with it. -/
structure Metrics.Large (m : Metrics) : Prop where
  width : 640 ≤ m.width
  width_lt : m.width < 65536
  height : 480 ≤ m.height
  height_lt : m.height < 65536
  taskbar : m.taskbarH = 30

/-- The rectangle lies on the desktop, above the taskbar, and has at least the minimal size. -/
structure Rect.Fits (m : Metrics) (r : Rect) : Prop where
  left : 0 ≤ r.x
  top : 0 ≤ r.y
  right : r.x + r.w ≤ m.width
  bottom : r.y + r.h ≤ m.height - m.taskbarH
  wide : windowMinW ≤ r.w
  high : windowMinH ≤ r.h

/-- Both rectangles of a window fit. -/
structure Window.Fits (m : Metrics) (w : Window) : Prop where
  rect : w.rect.Fits m
  restore : w.restore.Fits m

section Fits

variable {m : Metrics} {w : Window}

theorem terminal_fits (hm : m.Large) : (TerminalApp.defaultGeometry m).Fits m := by
  obtain ⟨hw, hw', hh, hh', ht⟩ := hm
  have h1 : i32 (m.width - 96) = m.width - 96 := i32_eq (by omega) (by omega)
  have h2 : i32 (m.height - m.taskbarH - 74) = m.height - 104 := by
    rw [i32_eq (by omega) (by omega)]
    omega
  have h3 : u32 (m.width - 8) = m.width - 8 := u32_eq (by omega) (by omega)
  have h4 : u32 (m.height - m.taskbarH - 8) = m.height - 38 := by
    rw [u32_eq (by omega) (by omega)]
    omega
  -- on a large screen only the caps at 640 and 360 are taken
  obtain ⟨v, hv, hv0, hv1⟩ : ∃ v : ℤ, (if (m.width : ℤ) - 96 > 640 then 640
      else (m.width : ℤ) - 96) = v ∧ 168 ≤ v ∧ v ≤ m.width - 96 := by
    refine ⟨_, rfl, ?_, ?_⟩ <;> split_ifs <;> omega
  obtain ⟨k, hk, hk0, hk1⟩ : ∃ k : ℤ, (if (m.height : ℤ) - 104 > 360 then 360
      else (m.height : ℤ) - 104) = k ∧ 134 ≤ k ∧ k ≤ m.height - 104 := by
    refine ⟨_, rfl, ?_, ?_⟩ <;> split_ifs <;> omega
  have h5 : u32 v = v := u32_eq (by omega) (by omega)
  have h6 : u32 k = k := u32_eq (by omega) (by omega)
  have h7 : u32 (m.width - v) = m.width - v := u32_eq (by omega) (by omega)
  have h8 : i32 ((m.width - v) / 2) = (m.width - v) / 2 := i32_eq (by omega) (by omega)
  have hshape : TerminalApp.defaultGeometry m = ⟨(m.width - v) / 2, 42, v, k⟩ := by
    simp only [TerminalApp.defaultGeometry, windowMinW, if_pos (show m.width > 96 by omega),
      if_pos (show m.height > 140 by omega), if_pos (show m.height > 260 by omega), h1, h2, h3, h4,
      hv, hk, if_neg (show ¬v < 168 by omega), if_neg (show ¬k < 134 by omega), h5, h6,
      if_neg (show ¬v > m.width - 8 by omega), if_neg (show ¬k > m.height - 38 by omega), h7, h8]
  rw [hshape]
  constructor <;> simp only [windowMinW, windowMinH] <;> omega

/-- The casts of `gui.cpp` keep the sizes of the screen. -/
theorem Metrics.Large.casts (hm : m.Large) :
    i32 m.width = m.width ∧ i32 m.height = m.height ∧ i32 m.taskbarH = 30 ∧
      i32 (m.height - m.taskbarH) = m.height - m.taskbarH := by
  obtain ⟨hw, hw', hh, hh', ht⟩ := hm
  refine ⟨i32_eq (by omega) (by omega), i32_eq (by omega) (by omega), ?_,
    i32_eq (by omega) (by omega)⟩
  rw [ht]
  decide

theorem utility_fits (hm : m.Large) (kind : AppId) :
    (UtilityApp.defaultGeometry kind m).Fits m := by
  obtain ⟨h1, h2, h3, -⟩ := hm.casts
  obtain ⟨hw, hw', hh, hh', ht⟩ := hm
  have h4 : u32 (m.width - 360) = m.width - 360 := u32_eq (by omega) (by omega)
  have h5 : i32 ((m.width - 360) / 2) = (m.width - 360) / 2 := i32_eq (by omega) (by omega)
  have hshape : UtilityApp.defaultGeometry kind m =
      ⟨(m.width - 360) / 2 + UtilityApp.offset kind, 58 + (UtilityApp.offset kind).tdiv 4,
        360, 260⟩ := by
    simp only [UtilityApp.defaultGeometry, windowMinW, windowMinH,
      if_pos (show m.width ≥ 640 by omega), if_pos (show m.height ≥ 480 by omega),
      if_pos (show m.height > 260 by omega), h1, h2, h3,
      if_neg (show ¬(360 : ℤ) > m.width - 12 by omega),
      if_neg (show ¬(260 : ℤ) > m.height - 30 - 12 by omega),
      if_neg (show ¬(360 : ℤ) < 168 by omega), if_neg (show ¬(260 : ℤ) < 82 by omega), h4, h5]
    cases kind <;> simp only [UtilityApp.offset, Rect.mk.injEq, and_true] <;>
      refine ⟨if_neg ?_, by decide⟩ <;> omega
  rw [hshape]
  cases kind <;> constructor <;>
    simp only [windowMinW, windowMinH, UtilityApp.offset, show Int.tdiv (-36) 4 = -9 from rfl,
      show Int.tdiv 16 4 = 4 from rfl, show Int.tdiv 56 4 = 14 from rfl] <;> omega

theorem notepad_fits (hm : m.Large) : (NotepadApp.defaultGeometry m).Fits m := by
  obtain ⟨h1, h2, h3, -⟩ := hm.casts
  obtain ⟨hw, hw', hh, hh', ht⟩ := hm
  have h4 : u32 (m.width - 430) = m.width - 430 := u32_eq (by omega) (by omega)
  have h5 : i32 ((m.width - 430) / 2) = (m.width - 430) / 2 := i32_eq (by omega) (by omega)
  have hshape : NotepadApp.defaultGeometry m = ⟨(m.width - 430) / 2 + 28, 72, 430, 300⟩ := by
    simp only [NotepadApp.defaultGeometry, windowMinW, windowMinH,
      if_pos (show m.width ≥ 640 by omega), if_pos (show m.height ≥ 480 by omega),
      if_pos (show m.height > 260 by omega), h1, h2, h3,
      if_neg (show ¬(430 : ℤ) > m.width - 10 by omega),
      if_neg (show ¬(300 : ℤ) > m.height - 30 - 10 by omega),
      if_neg (show ¬(430 : ℤ) < 168 by omega), if_neg (show ¬(300 : ℤ) < 82 by omega), h4, h5]
  rw [hshape]
  constructor <;> simp only [windowMinW, windowMinH] <;> omega

theorem defaultGeometry_fits (hm : m.Large) (a : AppId) : (defaultGeometry a m).Fits m := by
  cases a with
  | terminal => exact terminal_fits hm
  | notepad => exact notepad_fits hm
  | files => exact utility_fits hm .files
  | monitor => exact utility_fits hm .monitor
  | about => exact utility_fits hm .about

theorem maximized_fits (hm : m.Large) :
    Rect.Fits m ⟨2, 4, i32 (m.width - 4), i32 (m.height - m.taskbarH - 6)⟩ := by
  obtain ⟨hw, hw', hh, hh', ht⟩ := hm
  rw [i32_eq (v := m.width - 4) (by omega) (by omega),
    i32_eq (v := m.height - m.taskbarH - 6) (by omega) (by omega)]
  constructor <;> simp only [windowMinW, windowMinH] <;> omega

theorem Window.Fits.focus (h : w.Fits m) (z : ℕ) : (w.focus z).Fits m := by
  unfold Window.focus
  split
  · exact ⟨h.rect, h.restore⟩
  · exact h

theorem Window.Fits.place {r : Rect} (hr : r.Fits m) (w : Window) : (w.place r).Fits m := ⟨hr, hr⟩

section

variable (hm : m.Large) (h : w.Fits m)
include hm h

theorem Window.Fits.toggleMaximize (z : ℕ) :
    (w.toggleMaximize m z).Fits m := by
  unfold Window.toggleMaximize
  split
  · exact Window.Fits.focus (w := { w with mode := .normal, rect := w.restore })
      ⟨h.restore, h.restore⟩ z
  · exact Window.Fits.focus ⟨maximized_fits hm, h.rect⟩ z

theorem Window.Fits.openWindow (a : AppId) (z : ℕ) :
    (openWindow a m z w).Fits m := by
  rw [openWindow_eq]
  -- a window that is open keeps its place, the others get the default one
  split
  · exact ⟨h.rect, h.restore⟩
  · exact ⟨defaultGeometry_fits hm a, defaultGeometry_fits hm a⟩

/-- The clamps of a drag do not undo each other: a window that fits is not wider than the desktop.
-/
theorem Window.Fits.updateDrag (wm : WindowManager) (px py : ℤ) :
    (wm.updateDrag m px py w).Fits m := by
  obtain ⟨hdw, -, -, hdh⟩ := hm.casts
  obtain ⟨hw, hw', hh, hh', ht⟩ := hm
  obtain ⟨⟨h1, h2, h3, h4, h5, h6⟩, hr⟩ := h
  refine ⟨?_, hr⟩
  constructor <;> simp only [WindowManager.updateDrag, hdw, hdh] <;>
    (try split_ifs) <;> omega

/-- Nor do those of a resize: there is room for the minimal size from the corner that stays. -/
theorem Window.Fits.updateResize (px py : ℤ) :
    (updateResize m px py w).Fits m := by
  obtain ⟨hdw, -, -, hdh⟩ := hm.casts
  obtain ⟨hw, hw', hh, hh', ht⟩ := hm
  obtain ⟨⟨h1, h2, h3, h4, h5, h6⟩, hr⟩ := h
  refine ⟨?_, hr⟩
  constructor <;> simp only [Gui.updateResize, hdw, hdh] <;>
    (try split_ifs) <;> omega

end

end Fits

end MyOS.Gui
