import MyOS.Gui.Window

/-!
# Surfaces

The part of `graphics.c` that the desktop draws with, one level above `MyOS.Graphics.Surface`: a
surface is a map from coordinates to pixel values. It is a valid one (`graphics_surface_is_valid`),
so its rows are apart in memory, and a copy of the bytes of a part of a row is a copy of its pixels.
Coordinates and sizes are `uint32_t` in the source, where the callers convert signed numbers.

What a function paints is the requested rectangle cut off at the edges of the surface
(`fillRegion_contains`, `blitRegion_contains`).
-/

namespace MyOS.Gui

/-- `enum graphics_pixel_format`, with which the number of bits per pixel goes. -/
inductive PixelFormat where
  | indexed8 | rgb565 | rgb888 | xrgb8888
deriving DecidableEq, Repr

/-- `struct graphics_surface`, if it is valid. -/
@[ext]
structure Surface where
  width : ℕ
  height : ℕ
  format : PixelFormat
  /-- The value stored for the pixel at column `x` of row `y`. -/
  pixel : ℤ → ℤ → UInt32
  width_pos : 0 < width
  height_pos : 0 < height
  width_lt : width < 65536
  height_lt : height < 65536

/-- A screen of 640×480 pixels. -/
def vgaScreen : Surface where
  width := 640
  height := 480
  format := .xrgb8888
  pixel _ _ := 0
  width_pos := by decide
  height_pos := by decide
  width_lt := by decide
  height_lt := by decide

/-- The point is one of the surface. -/
def Surface.Has (s : Surface) (x y : ℤ) : Prop := 0 ≤ x ∧ x < s.width ∧ 0 ≤ y ∧ y < s.height

/-! ### Pixels -/

/-- `palette_color`. -/
def paletteColor (color : UInt32) : UInt32 :=
  [0x000000, 0x0000AA, 0x00AA00, 0x00AAAA, 0xAA0000, 0xAA00AA, 0xAA5500, 0xAAAAAA,
    0x555555, 0x5555FF, 0x55FF55, 0x55FFFF, 0xFF5555, 0xFF55FF, 0xFFFF55, 0xFFFFFF].getD
    color.toNat color

/-- `color_to_rgb565`. -/
def colorToRgb565 (color : UInt32) : UInt32 :=
  let color := paletteColor color
  let r := (color >>> 16) &&& 0xFF
  let g := (color >>> 8) &&& 0xFF
  let b := color &&& 0xFF
  ((r >>> 3) <<< 11) ||| ((g >>> 2) <<< 5) ||| (b >>> 3)

/-- The value that `graphics_put_pixel` stores for a colour. -/
def PixelFormat.encode : PixelFormat → UInt32 → UInt32
  | .xrgb8888, color => paletteColor color
  | .rgb888, color => paletteColor color &&& 0xFFFFFF
  | .rgb565, color => colorToRgb565 color
  | .indexed8, color => color &&& 0xFF

namespace Surface

variable {s t u : Surface} {x y w h px py : ℤ}

/-- `graphics_put_pixel`. -/
def putPixel (s : Surface) (x y : ℤ) (color : UInt32) : Surface :=
  if u32 x ≥ s.width ∨ u32 y ≥ s.height then s
  else { s with
    pixel := fun px py => if px = u32 x ∧ py = u32 y then s.format.encode color else s.pixel px py }

/-- `graphics_get_pixel`. -/
def getPixel (s : Surface) (x y : ℤ) : UInt32 :=
  if u32 x ≥ s.width ∨ u32 y ≥ s.height then 0 else s.pixel (u32 x) (u32 y)

/-- A surface of the same size and format whose pixels outside of the region are the same. -/
structure ChangesOnly (P : ℤ → ℤ → Prop) (s t : Surface) : Prop where
  width : t.width = s.width
  height : t.height = s.height
  format : t.format = s.format
  pixel : ∀ px py, ¬ P px py → t.pixel px py = s.pixel px py

namespace ChangesOnly

variable {P Q : ℤ → ℤ → Prop}

theorem refl (P : ℤ → ℤ → Prop) (s : Surface) : ChangesOnly P s s :=
  ⟨rfl, rfl, rfl, fun _ _ _ => rfl⟩

theorem trans (h1 : ChangesOnly P s t) (h2 : ChangesOnly P t u) : ChangesOnly P s u where
  width := h2.width.trans h1.width
  height := h2.height.trans h1.height
  format := h2.format.trans h1.format
  pixel px py hp := (h2.pixel px py hp).trans (h1.pixel px py hp)

theorem mono (h : ChangesOnly P s t) (hPQ : ∀ px py, P px py → Q px py) : ChangesOnly Q s t :=
  { h with pixel := fun px py hq => h.pixel px py fun hp => hq (hPQ px py hp) }

end ChangesOnly

/-- A loop changes what its rounds change. -/
theorem foldl_changesOnly {α : Type*} {P : ℤ → ℤ → Prop} {f : Surface → α → Surface} {l : List α}
    (hf : ∀ a ∈ l, ∀ t : Surface, t.width = s.width → t.height = s.height →
      ChangesOnly P t (f t a)) :
    ChangesOnly P s (l.foldl f s) := by
  induction l generalizing s with
  | nil => exact .refl P s
  | cons a l ih =>
    have hstep := hf a List.mem_cons_self s rfl rfl
    refine hstep.trans (ih fun b hb t hw hh => ?_)
    exact hf b (List.mem_cons_of_mem a hb) t (hw.trans hstep.width) (hh.trans hstep.height)

theorem putPixel_changesOnly (s : Surface) (x y : ℤ) (color : UInt32) :
    ChangesOnly (fun px py => px = u32 x ∧ py = u32 y) s (s.putPixel x y color) := by
  unfold putPixel
  split_ifs
  · exact .refl _ s
  · exact ⟨rfl, rfl, rfl, fun px py hp => if_neg hp⟩

/-! ### Rectangles -/

/-- The rectangle that `graphics_fill_rect` paints. -/
def fillRegion (s : Surface) (x y w h : ℤ) : Rect :=
  if u32 x ≥ s.width ∨ u32 y ≥ s.height then ⟨0, 0, 0, 0⟩
  else
    { x := u32 x
      y := u32 y
      w := if u32 (x + w) > s.width then s.width - u32 x else u32 w
      h := if u32 (y + h) > s.height then s.height - u32 y else u32 h }

/-- The rectangle that `graphics_blit_rect` copies. -/
def blitRegion (dst src : Surface) (x y w h : ℤ) : Rect :=
  if u32 x ≥ dst.width ∨ u32 y ≥ dst.height ∨ u32 x ≥ src.width ∨ u32 y ≥ src.height then
    ⟨0, 0, 0, 0⟩
  else
    let maxWidth := min dst.width src.width
    let maxHeight := min dst.height src.height
    { x := u32 x
      y := u32 y
      w := if u32 (x + w) > maxWidth then maxWidth - u32 x else u32 w
      h := if u32 (y + h) > maxHeight then maxHeight - u32 y else u32 h }

/-- What a pixel of the target gets: the bytes of the source, or its value as a colour. -/
def transfer (dst src : Surface) (px py : ℤ) : UInt32 :=
  if dst.format = src.format then src.pixel px py
  else dst.format.encode (src.getPixel px py)

/-- `graphics_blit_rect`. -/
def blitRect (dst src : Surface) (x y w h : ℤ) : Surface :=
  { dst with
    pixel := fun px py =>
      if (blitRegion dst src x y w h).contains px py then transfer dst src px py
      else dst.pixel px py }

/-- `graphics_blit`. -/
def blit (dst src : Surface) : Surface :=
  { dst with
    pixel := fun px py =>
      if Rect.contains ⟨0, 0, (min dst.width src.width : ℕ), (min dst.height src.height : ℕ)⟩ px py
      then transfer dst src px py
      else dst.pixel px py }

end Surface

theorem Rect.contains_iff {r : Rect} {px py : ℤ} :
    r.contains px py = true ↔ r.x ≤ px ∧ px < r.x + r.w ∧ r.y ≤ py ∧ py < r.y + r.h := by
  simp only [Rect.contains, Bool.and_eq_true, decide_eq_true_eq, and_assoc]

/-- A rectangle whose numbers the conversion to `uint32_t` keeps, sums included. -/
structure Rect.Small (r : Rect) : Prop where
  x : 0 ≤ r.x
  y : 0 ≤ r.y
  w : 0 ≤ r.w
  h : 0 ≤ r.h
  right : r.x + r.w < 4294967296
  bottom : r.y + r.h < 4294967296

namespace Surface

variable {s : Surface} {x y w h px py : ℤ}

theorem fillRegion_contains (hr : Rect.Small ⟨x, y, w, h⟩) :
    (s.fillRegion x y w h).contains px py = true ↔
      Rect.contains ⟨x, y, w, h⟩ px py = true ∧ s.Has px py := by
  obtain ⟨hx, hy, hw, hh, hright, hbottom⟩ := hr
  dsimp only at hx hy hw hh hright hbottom
  simp only [fillRegion, Rect.contains_iff, Has, u32_eq hx (by omega), u32_eq hy (by omega),
    u32_eq hw (by omega), u32_eq hh (by omega), u32_eq (v := x + w) (by omega) hright,
    u32_eq (v := y + h) (by omega) hbottom]
  split_ifs <;> dsimp only <;> omega

theorem blitRegion_contains {dst src : Surface} (hr : Rect.Small ⟨x, y, w, h⟩) :
    (blitRegion dst src x y w h).contains px py = true ↔
      Rect.contains ⟨x, y, w, h⟩ px py = true ∧ dst.Has px py ∧ src.Has px py := by
  obtain ⟨hx, hy, hw, hh, hright, hbottom⟩ := hr
  dsimp only at hx hy hw hh hright hbottom
  simp only [blitRegion, Rect.contains_iff, Has, u32_eq hx (by omega), u32_eq hy (by omega),
    u32_eq hw (by omega), u32_eq hh (by omega), u32_eq (v := x + w) (by omega) hright,
    u32_eq (v := y + h) (by omega) hbottom]
  split_ifs <;> dsimp only <;> omega

end Surface

end MyOS.Gui
