import MyOS.Gui.Surface
import MyOS.Gui.System

/-!
# The rows of the file explorer

`draw_files` paints a band of 11 pixels for every file, one each 12 pixels, until a row would begin
in the last 12 pixels of the window. `file_index_at` goes through the same bands without that stop.
At the lower edge of a window that is too small for its list a band is not painted but inside of the
window, and a click there opens a file that is not shown (`hidden_row_opens`). The two agree inside
of the window exactly if all rows are painted (`rows_agree_iff`).
-/

namespace MyOS.Gui

open List

open GuiSystem (keyF2)

def colorAccentDark : UInt32 := 0x00005296
def colorTextDark : UInt32 := 0x0016212B

/-- The calls of `graphics.c` that `draw_files` makes. -/
inductive GraphicsCall where
  | fillRect (x y w h : ℤ) (color : UInt32)
  | drawString (x y : ℤ) (text : List Char) (fg bg : UInt32)
deriving DecidableEq, Repr

/-- The point is one of those that `graphics_fill_rect` paints. -/
def GraphicsCall.Fills (s : Surface) (px py : ℤ) : GraphicsCall → Prop
  | .fillRect x y w h _ => (s.fillRegion x y w h).contains px py = true
  | .drawString .. => False

namespace UtilityApp

/-- `file_icon_label`. -/
def fileIconLabel (name : List Char) : List Char :=
  if ".elf".toList <:+ name then "ELF".toList
  else if ".mx".toList <:+ name then "MX".toList
  else if ".myimg".toList <:+ name then "MYIMG".toList
  else if ".txt".toList <:+ name ∨ "/motd".toList <:+ name then "TXT".toList
  else "FILE".toList

/-- The background of a row. -/
def rowColor (i : ℕ) : UInt32 := if i % 2 = 0 then 0x00EEF3F8 else 0x00FFFFFF

/-- One round of the loop of `draw_files`. -/
def drawRow (win : Window) (i : ℕ) (y : ℤ) (name : List Char) : List GraphicsCall :=
  let x := win.rect.x + 14
  [.fillRect (x - 4) (y - 2) (win.rect.w - 28) 11 (rowColor i),
    .drawString x y (fileIconLabel name) colorAccentDark (rowColor i),
    .drawString (x + 38) y name colorTextDark (rowColor i)]

/-- The loop of `draw_files`, from file `i` on, with the calls of each round. -/
def drawRows (win : Window) : List (List Char) → ℕ → ℤ → List (List GraphicsCall)
  | [], _, _ => []
  | name :: names, i, y =>
    if y < win.rect.y + win.rect.h - 12 then
      drawRow win i y name :: drawRows win names (i + 1) (y + 12)
    else []

/-- The place of the first row in `draw_files`. -/
def firstRowY (win : Window) : ℤ := win.rect.y + titlebarH + 14 + 14

/-- `UtilityApp::draw_files`. -/
def drawFiles (win : Window) (names : List (List Char)) : List GraphicsCall :=
  .drawString (win.rect.x + 14) (win.rect.y + titlebarH + 14) "DISKFS FILES".toList colorAccentDark
      0x00FFFFFF ::
    (drawRows win names 0 (firstRowY win)).flatten

/-- `draw_files` paints the band of file `i` over the point. -/
def RowPainted (s : Surface) (win : Window) (names : List (List Char)) (i : ℕ) (px py : ℤ) : Prop :=
  ∃ calls, (drawRows win names 0 (firstRowY win))[i]? = some calls ∧
    ∃ call ∈ calls, call.Fills s px py

/-- What `draw_files` paints are the bands of the rows. -/
theorem drawFiles_fills_iff (s : Surface) (win : Window) (names : List (List Char)) (px py : ℤ) :
    (∃ call ∈ drawFiles win names, call.Fills s px py) ↔ ∃ i, RowPainted s win names i px py := by
  constructor
  · rintro ⟨call, hcall, hfills⟩
    rcases mem_cons.mp hcall with rfl | hcall
    · -- the heading is text
      exact hfills.elim
    · obtain ⟨calls, hcalls, hmem⟩ := mem_flatten.mp hcall
      obtain ⟨i, hi⟩ := mem_iff_getElem?.mp hcalls
      exact ⟨i, calls, hi, call, hmem, hfills⟩
  · rintro ⟨i, calls, hi, call, hmem, hfills⟩
    exact ⟨call, mem_cons_of_mem _
      (mem_flatten.mpr ⟨calls, mem_of_getElem? hi, hmem⟩), hfills⟩

/-- The band of row `i`. -/
def rowBand (win : Window) (i : ℕ) : Rect :=
  ⟨win.rect.x + 10, win.rect.y + titlebarH + 26 + i * 12, win.rect.w - 28, 11⟩

/-- The rows that the loop gets to. -/
theorem drawRows_getElem? (win : Window) (names : List (List Char)) (j : ℕ) (y : ℤ) (i : ℕ) :
    (drawRows win names j y)[i]? = if y + 12 * i < win.rect.y + win.rect.h - 12 then
        (names[i]?).map (drawRow win (j + i) (y + 12 * i))
      else none := by
  induction names generalizing j y i with
  | nil => simp [drawRows]
  | cons name names ih =>
    rw [drawRows]
    split_ifs with hstop hrow hrow
    · cases i with
      | zero => simp
      | succ i =>
        rw [getElem?_cons_succ, getElem?_cons_succ, ih,
          if_pos (by push_cast at hrow; omega)]
        have hy : y + 12 + 12 * (i : ℤ) = y + 12 * ((i + 1 : ℕ) : ℤ) := by
          push_cast
          omega
        rw [hy, Nat.add_right_comm, Nat.add_assoc]
    · cases i with
      | zero => exact absurd (by simpa using hstop) hrow
      | succ i =>
        rw [getElem?_cons_succ, ih, if_neg (by push_cast at hrow; omega)]
    · omega
    · rfl

/-- The window lies on the surface and is wide enough to show anything. -/
structure OnSurface (s : Surface) (r : Rect) : Prop where
  left : 0 ≤ r.x
  top : 0 ≤ r.y
  right : r.x + r.w ≤ s.width
  bottom : r.y + r.h ≤ s.height
  wide : windowMinW ≤ r.w
  high : windowMinH ≤ r.h

/-- A row is painted if it begins above the last 12 pixels, and then its whole band is. -/
theorem rowPainted_iff {s : Surface} {win : Window} (h : OnSurface s win.rect)
    (names : List (List Char)) (i : ℕ) (px py : ℤ) :
    RowPainted s win names i px py ↔ i < names.length ∧ 12 * (i : ℤ) + 58 < win.rect.h ∧
        (rowBand win i).contains px py = true := by
  obtain ⟨hl, ht, hr, hb, hw, hh⟩ := h
  have hlt := s.width_lt
  have hlt' := s.height_lt
  unfold RowPainted
  simp only [drawRows_getElem?, firstRowY, titlebarH, windowMinW, windowMinH] at hw hh ⊢
  split_ifs with hstop
  · -- the band of a painted row is on the surface
    have hfill : ∀ name, (∃ call ∈ drawRow win (0 + i) (win.rect.y + 18 + 14 + 14 + 12 * ↑i) name,
        call.Fills s px py) ↔ (rowBand win i).contains px py = true := by
      intro name
      simp only [drawRow, mem_cons, not_mem_nil, or_false, exists_eq_or_imp,
        exists_eq_left, GraphicsCall.Fills, or_self]
      rw [Surface.fillRegion_contains (by constructor <;> dsimp only <;> omega)]
      simp only [Rect.contains_iff, rowBand, titlebarH, Surface.Has]
      omega
    constructor
    · rintro ⟨calls, hcalls, hcall⟩
      obtain ⟨name, hname, rfl⟩ := Option.map_eq_some_iff.mp hcalls
      exact ⟨(List.getElem?_eq_some_iff.mp hname).1, by omega, (hfill name).mp hcall⟩
    · rintro ⟨hi, -, hband⟩
      exact ⟨_, Option.map_eq_some_iff.mpr ⟨_, getElem?_eq_getElem hi, rfl⟩,
        (hfill _).mpr hband⟩
  · constructor
    · rintro ⟨calls, hcalls, -⟩
      cases hcalls
    · rintro ⟨-, hi, -⟩
      omega

end UtilityApp

open UtilityApp

/-- `file_index_at` finds the row whose band the point is in. -/
theorem fileIndexAt_eq_some_iff {s : GuiSystem} (hv : (s.windows .files).visible = true) (w : World)
    (x y : ℤ) (i : ℕ) :
    s.fileIndexAt w x y = some i ↔
      i < w.files.length ∧ (rowBand (s.windows .files) i).contains x y = true := by
  unfold GuiSystem.fileIndexAt
  simp only [hv, Bool.not_true, Bool.false_eq_true, if_false]
  rw [find?_range_eq_some]
  constructor
  · rintro ⟨hband, hi, -⟩
    exact ⟨mem_range.mp hi, hband⟩
  · rintro ⟨hi, hband⟩
    refine ⟨hband, mem_range.mpr hi, fun j hj => ?_⟩
    -- the bands are apart
    rw [Bool.not_eq_true', Bool.eq_false_iff, Ne, Rect.contains_iff]
    simp only [Rect.contains_iff, rowBand] at hband
    dsimp only
    omega

/-- **The explorer opens the rows that it shows exactly if it shows all files.** For a visible Files
window on the surface: `file_index_at` agrees with what `draw_files` painted at all points of the
window if and only if the rows of all files begin above the last 12 pixels of the window. The rows
are all that `draw_files` fills. -/
theorem rows_agree_iff (s : GuiSystem) (w : World) (surface : Surface)
    (hv : (s.windows .files).visible = true) (hon : OnSurface surface (s.windows .files).rect) :
    ((∀ x y, (s.windows .files).rect.contains x y = true → ∀ i, (s.fileIndexAt w x y = some i ↔
        RowPainted surface (s.windows .files) (w.files.map ListedFile.name) i x y)) ↔
      ∀ i < w.files.length, 12 * (i : ℤ) + 58 < (s.windows .files).rect.h) ∧
    ∀ win names x y, (∃ call ∈ drawFiles win names, call.Fills surface x y) ↔
      ∃ i, RowPainted surface win names i x y := by
  refine ⟨?_, drawFiles_fills_iff surface⟩
  simp only [fileIndexAt_eq_some_iff hv, rowPainted_iff hon, length_map]
  obtain ⟨-, -, -, -, hwide, hhigh⟩ := hon
  simp only [windowMinW, windowMinH] at hwide hhigh
  generalize (s.windows .files) = win at *
  constructor
  · intro hagree i hi
    by_contra hlow
    -- the first row that is not painted begins inside of the window
    obtain ⟨j, hj, hj0, hj1⟩ : ∃ j : ℕ, j ≤ i ∧ win.rect.h ≤ 12 * (j : ℤ) + 58 ∧
        12 * (j : ℤ) + 44 < win.rect.h := by
      refine ⟨((win.rect.h - 58 + 11) / 12).toNat, ?_, ?_, ?_⟩ <;> omega
    have hpoint := hagree (win.rect.x + 10) (win.rect.y + 44 + 12 * j)
      (Rect.contains_iff.mpr (by omega)) j
    have hband : (rowBand win j).contains (win.rect.x + 10) (win.rect.y + 44 + 12 * j) = true := by
      rw [Rect.contains_iff, rowBand]
      simp only [titlebarH]
      omega
    have := hpoint.mp ⟨by omega, hband⟩
    omega
  · intro hall x y _ i
    exact ⟨fun h => ⟨h.1, hall i h.1, h.2⟩, fun h => ⟨h.1, h.2.2⟩⟩

/-- The desktop with the file explorer just opened by F2. -/
def explorerOpened : GuiSystem := GuiSystem.run ⟨640, 480⟩ [GuiSystem.launch keyF2 2]

/-- A file system that lists `n` files. -/
def listing (n : ℕ) : World :=
  { (GuiSystem.launch keyF2 2).1 with files := List.replicate n ⟨"/a".toList, some 0⟩ }

/-- The window of the explorer after F2. -/
theorem explorerOpened_window : (explorerOpened.windows .files).visible = true ∧
    (explorerOpened.windows .files).rect = ⟨104, 49, 360, 260⟩ := by decide +kernel

/-- The window that F2 opens on this screen has room for 17 files. -/
theorem rows_agree_seventeen : (listing 17).files.length = 17 ∧
      ∀ x y, (explorerOpened.windows .files).rect.contains x y = true → ∀ i,
        (explorerOpened.fileIndexAt (listing 17) x y = some i ↔
          RowPainted vgaScreen (explorerOpened.windows .files)
            ((listing 17).files.map ListedFile.name) i x y) :=
  ⟨by decide +kernel, (rows_agree_iff explorerOpened (listing 17) vgaScreen explorerOpened_window.1
    (by rw [explorerOpened_window.2]; constructor <;> decide)).1.mpr
    (by rw [explorerOpened_window.2]; decide +kernel)⟩

/-- **A click opens a file that is not shown.** With 18 files the last one has no row, but a click
below the others finds it. -/
theorem hidden_row_opens : (explorerOpened.windows .files).rect.contains 120 300 = true ∧
      explorerOpened.fileIndexAt (listing 18) 120 300 = some 17 ∧
      ∀ i, ¬ RowPainted vgaScreen (explorerOpened.windows .files)
        ((listing 18).files.map ListedFile.name) i 120 300 := by
  refine ⟨by decide +kernel, by decide +kernel, fun i hi => ?_⟩
  have hrow := (rowPainted_iff (by rw [explorerOpened_window.2]; constructor <;> decide)
    _ i 120 300).mp hi
  simp only [explorerOpened_window.2, rowBand, Rect.contains_iff, titlebarH] at hrow
  omega

end MyOS.Gui
