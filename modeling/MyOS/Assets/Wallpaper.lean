import MyOS.Graphics.Surface
import Mathlib.Algebra.Order.Floor.Div

/-!
# The wallpaper

`assets_draw_wallpaper` of `assets.c`, down to the bytes of the surface. The image is enlarged by
the smallest whole factor with which it covers the surface, and cut off on both sides; as long as
the enlarged sides fit in 32 bits, the clamp of the source coordinates is never taken
(`sourceOf_toNat`).

The pixels are drawn with `graphics_put_pixel`, for which a colour below 16 is an index into the
palette. The darkest blue of an RGB565 image is such a colour and comes out grey
(`dark_blue_drawn_grey`); every other value is shown as it is (`assetsDrawWallpaper_faithful_iff`).
-/

namespace MyOS.Assets

open Graphics Stores
open Gui (rgb565ToRgb888 paletteColor colorToRgb565)

/-- `MYIMG_RGB565` -/
def myimgRgb565 : UInt16 := 1
/-- `MYIMG_ARGB32` -/
def myimgArgb32 : UInt16 := 2

/-- `struct asset_bitmap` with an image in it; one whose `pixels` is null is `none`. Only
`load_myimg` fills the structure, and it refuses an image without rows or columns. -/
structure AssetBitmap where
  width : UInt16
  height : UInt16
  format : UInt16
  hotspotX : UInt16
  hotspotY : UInt16
  payloadSize : UInt32
  /-- The memory from the pointer on. The buffer is its first `payloadSize` bytes. -/
  pixels : ℕ → UInt8
  width_pos : 0 < width.toNat
  height_pos : 0 < height.toNat

/-! ### Enlarging and cropping -/

/-- The smallest factor with which an image of `w` by `h` covers a surface of `W` by `H`. -/
def coveringScale (W H w h : ℕ) : ℕ := max (W ⌈/⌉ w) (H ⌈/⌉ h)

/-- The place on an axis of the image that is seen at `p`, when the image is enlarged and its middle
is shown. -/
def croppedPlace (screen size scale p : ℕ) : ℕ := (p + (size * scale - screen) / 2) / scale

theorem le_mul_ceilDiv (n : ℕ) {k : ℕ} (hk : 0 < k) : n ≤ k * (n ⌈/⌉ k) :=
  (ceilDiv_le_iff_le_mul hk).mp le_rfl

theorem covers_left (W H : ℕ) {w : ℕ} (h : ℕ) (hw : 0 < w) : W ≤ w * coveringScale W H w h :=
  (le_mul_ceilDiv W hw).trans (Nat.mul_le_mul_left w (le_max_left _ _))

theorem covers_right (W H : ℕ) (w : ℕ) {h : ℕ} (hh : 0 < h) : H ≤ h * coveringScale W H w h :=
  (le_mul_ceilDiv H hh).trans (Nat.mul_le_mul_left h (le_max_right _ _))

/-- A place of the surface shows a place of the image, if the image covers the surface. -/
theorem croppedPlace_lt {screen size scale p : ℕ} (hcover : screen ≤ size * scale)
    (hp : p < screen) : croppedPlace screen size scale p < size := by
  unfold croppedPlace
  rw [Nat.div_lt_iff_lt_mul (Nat.pos_of_mul_pos_left (show 0 < size * scale by omega))]
  omega

/-! ### The functions -/

/-- `scale_x` and `scale_y`. -/
def scaleOf (screen size : UInt32) : UInt32 := (screen + size - 1) / size

/-- `crop_x` and `crop_y`. -/
def cropOf (screen size scale : UInt32) : UInt32 :=
  let drawn := size * scale
  if drawn > screen then (drawn - screen) / 2 else 0

/-- `sx` and `sy`. -/
def sourceOf (screen size scale p : UInt32) : UInt32 :=
  let source := (p + cropOf screen size scale) / scale
  if source ≥ size then size - 1 else source

namespace AssetBitmap

/-- `scale` -/
def scale (b : AssetBitmap) (s : Surface) : UInt32 :=
  let scaleX := scaleOf s.width b.width.toUInt32
  let scaleY := scaleOf s.height b.height.toUInt32
  if scaleX > scaleY then scaleX else scaleY

/-- `sy * wallpaper.width + sx` for a pixel of the surface. -/
def wallpaperIndex (b : AssetBitmap) (s : Surface) (x y : UInt32) : UInt32 :=
  sourceOf s.height b.height.toUInt32 (b.scale s) y * b.width.toUInt32
    + sourceOf s.width b.width.toUInt32 (b.scale s) x

/-- `src[index]` in an image of 16-bit pixels. -/
def pixel16 (b : AssetBitmap) (index : ℕ) : UInt32 := (le16 b.pixels (2 * index)).toUInt32

end AssetBitmap

/-- `assets_draw_wallpaper`: the result and the stores. -/
def assetsDrawWallpaper (wallpaper : Option AssetBitmap) (s : Surface) :
    Bool × List (UInt32 × UInt8) :=
  match wallpaper with
  | none => (false, [])
  | some b =>
    if ¬ s.IsValid ∨ b.format ≠ myimgRgb565 then (false, [])
    else
      (true, (List.range s.height.toNat).flatMap fun y =>
        (List.range s.width.toNat).flatMap fun x =>
          s.putPixel (UInt32.ofNat x) (UInt32.ofNat y) (rgb565ToRgb888
              (b.pixel16 (b.wallpaperIndex s (UInt32.ofNat x) (UInt32.ofNat y)).toNat)))

/-! ### The words are exact -/

variable {screen size scale p : UInt32}

theorem toNat_sub_one {v : UInt32} (hv : 0 < v.toNat) : (v - 1).toNat = v.toNat - 1 :=
  UInt32.toNat_sub_of_le v 1 (UInt32.le_iff_toNat_le.mpr hv)

theorem scaleOf_toNat (hsize : 0 < size.toNat) (h : screen.toNat + size.toNat < 2 ^ 32) :
    (scaleOf screen size).toNat = screen.toNat ⌈/⌉ size.toNat := by
  have hadd : (screen + size).toNat = screen.toNat + size.toNat := by
    rw [UInt32.toNat_add, Nat.mod_eq_of_lt h]
  have hsub : (screen + size - 1).toNat = screen.toNat + size.toNat - 1 := by
    rw [toNat_sub_one (by omega), hadd]
  unfold scaleOf
  rw [UInt32.toNat_div, hsub, Nat.ceilDiv_eq_add_pred_div]

theorem cropOf_toNat (hfit : size.toNat * scale.toNat < 2 ^ 32) :
    (cropOf screen size scale).toNat = (size.toNat * scale.toNat - screen.toNat) / 2 := by
  have hdrawn : (size * scale).toNat = size.toNat * scale.toNat := by
    rw [UInt32.toNat_mul, Nat.mod_eq_of_lt hfit]
  unfold cropOf
  by_cases hgt : size * scale > screen
  · have hlt := UInt32.lt_iff_toNat_lt.mp hgt
    rw [if_pos hgt, UInt32.toNat_div,
      UInt32.toNat_sub_of_le _ _ (UInt32.le_iff_toNat_le.mpr hlt.le), hdrawn]
    rfl
  · have hle := UInt32.le_iff_toNat_le.mp (UInt32.not_lt.mp hgt)
    rw [if_neg hgt, ← hdrawn, Nat.sub_eq_zero_of_le hle]
    rfl

/-- **The clamp is never taken**: the source coordinate is the exact one, inside the image. -/
theorem sourceOf_toNat (hfit : size.toNat * scale.toNat < 2 ^ 32)
    (hcover : screen.toNat ≤ size.toNat * scale.toNat) (hp : p.toNat < screen.toNat) :
    (sourceOf screen size scale p).toNat
      = croppedPlace screen.toNat size.toNat scale.toNat p.toNat := by
  have hlt := croppedPlace_lt hcover hp
  have hcrop : (cropOf screen size scale).toNat = _ := cropOf_toNat hfit
  have hquot : ((p + cropOf screen size scale) / scale).toNat
      = croppedPlace screen.toNat size.toNat scale.toNat p.toNat := by
    rw [UInt32.toNat_div, UInt32.toNat_add, hcrop, Nat.mod_eq_of_lt (by omega)]
    rfl
  unfold sourceOf
  rw [if_neg, hquot]
  rw [ge_iff_le, UInt32.le_iff_toNat_le, hquot]
  omega

/-- With or without the clamp, the source coordinate is inside the image. -/
theorem sourceOf_lt (hsize : 0 < size.toNat) :
    (sourceOf screen size scale p).toNat < size.toNat := by
  unfold sourceOf
  dsimp only
  split
  · rw [toNat_sub_one hsize]
    exact Nat.sub_lt hsize Nat.one_pos
  · exact UInt32.lt_iff_toNat_lt.mp (UInt32.not_le.mp ‹_›)

namespace AssetBitmap

variable {b : AssetBitmap} {s : Surface} {x y : UInt32}

/-- The exact factor for the image and the surface. -/
def exactScale (b : AssetBitmap) (s : Surface) : ℕ :=
  coveringScale s.width.toNat s.height.toNat b.width.toNat b.height.toNat

/-- The exact source column of a column of the surface. -/
def sourceColumn (b : AssetBitmap) (s : Surface) (x : UInt32) : ℕ :=
  croppedPlace s.width.toNat b.width.toNat (b.exactScale s) x.toNat

/-- The exact source row of a row of the surface. -/
def sourceRow (b : AssetBitmap) (s : Surface) (y : UInt32) : ℕ :=
  croppedPlace s.height.toNat b.height.toNat (b.exactScale s) y.toNat

theorem scale_toNat (hw : s.width.toNat + b.width.toNat < 2 ^ 32)
    (hh : s.height.toNat + b.height.toNat < 2 ^ 32) : (b.scale s).toNat = b.exactScale s := by
  have hx : (scaleOf s.width b.width.toUInt32).toNat = s.width.toNat ⌈/⌉ b.width.toNat :=
    scaleOf_toNat b.width_pos hw
  have hy : (scaleOf s.height b.height.toUInt32).toNat = s.height.toNat ⌈/⌉ b.height.toNat :=
    scaleOf_toNat b.height_pos hh
  unfold scale exactScale coveringScale
  by_cases hgt : scaleOf s.width b.width.toUInt32 > scaleOf s.height b.height.toUInt32
  · have hlt := UInt32.lt_iff_toNat_lt.mp hgt
    rw [if_pos hgt, hx, max_eq_left (by omega)]
  · have hle := UInt32.le_iff_toNat_le.mp (UInt32.not_lt.mp hgt)
    rw [if_neg hgt, hy, max_eq_right (by omega)]

/-- A pixel of the image is one of its rows and columns, so its index is exact. -/
theorem index_toNat {row col : UInt32} (hrow : row.toNat < b.height.toNat)
    (hcol : col.toNat < b.width.toNat) :
    (row * b.width.toUInt32 + col).toNat = row.toNat * b.width.toNat + col.toNat ∧
      row.toNat * b.width.toNat + col.toNat < b.width.toNat * b.height.toNat := by
  have hwlt := b.width.toNat_lt
  have hhlt := b.height.toNat_lt
  have hrows : (row.toNat + 1) * b.width.toNat ≤ b.height.toNat * b.width.toNat :=
    Nat.mul_le_mul_right _ hrow
  have hall : b.height.toNat * b.width.toNat ≤ 65535 * 65535 :=
    Nat.mul_le_mul (by omega) (by omega)
  rw [Nat.add_mul, Nat.one_mul] at hrows
  constructor
  · rw [UInt32.toNat_add, UInt32.toNat_mul, UInt16.toNat_toUInt32, Nat.mod_add_mod,
      Nat.mod_eq_of_lt (by omega)]
  · rw [Nat.mul_comm b.width.toNat]
    omega

/-- The source pixel is one of the image, whatever the size of the surface. -/
theorem wallpaperIndex_lt (b : AssetBitmap) (s : Surface) (x y : UInt32) :
    (b.wallpaperIndex s x y).toNat < b.width.toNat * b.height.toNat := by
  obtain ⟨heq, hlt⟩ := index_toNat (b := b)
    (show (sourceOf s.height b.height.toUInt32 (b.scale s) y).toNat < _ from
      sourceOf_lt b.height_pos)
    (show (sourceOf s.width b.width.toUInt32 (b.scale s) x).toNat < _ from sourceOf_lt b.width_pos)
  exact heq.trans_lt hlt

/-- The enlarged image fits in 32 bits. -/
structure Fits (b : AssetBitmap) (s : Surface) : Prop where
  width : b.width.toNat * b.exactScale s < 2 ^ 32
  height : b.height.toNat * b.exactScale s < 2 ^ 32

end AssetBitmap

variable {s : Surface}

/-- A surface of two or more bytes for a pixel, whose bytes do not wrap, has sides of 31 bits. -/
theorem side_lt (hv : s.IsValid) (he : s.Exact) (hdeep : s.bitsPerPixel ≠ 8) :
    s.width.toNat < 2 ^ 31 ∧ s.height.toNat < 2 ^ 31 := by
  have hbytes : 2 ≤ s.bytesPerPixel.toNat := by
    rcases Surface.bytesPerPixel_cases hv with ⟨h, -⟩ | ⟨-, h⟩ | ⟨-, h⟩ | ⟨-, h⟩
    · exact absurd h hdeep
    all_goals rw [h]; decide
  have hrow := he.row
  have htotal := he.total
  have hpitch := s.pitch.toNat_lt
  have hwide : 0 < s.width.toNat := Nat.pos_of_ne_zero fun h0 => hv.2.1 (UInt32.toNat_inj.mp h0)
  have hwidth : s.width.toNat * 2 ≤ s.width.toNat * s.bytesPerPixel.toNat :=
    Nat.mul_le_mul_left _ hbytes
  have hheight : 2 * s.height.toNat ≤ s.pitch.toNat * s.height.toNat :=
    Nat.mul_le_mul_right _ (by omega)
  omega

/-- The words of the source are the exact coordinates. -/
theorem AssetBitmap.wallpaperIndex_toNat {b : AssetBitmap} {x y : UInt32}
    (hw : s.width.toNat < 2 ^ 31) (hh : s.height.toNat < 2 ^ 31) (hfit : b.Fits s) (h : s.Has x y) :
    b.sourceColumn s x < b.width.toNat ∧ b.sourceRow s y < b.height.toNat ∧
      (b.wallpaperIndex s x y).toNat = b.sourceRow s y * b.width.toNat + b.sourceColumn s x := by
  have hwlt := b.width.toNat_lt
  have hhlt := b.height.toNat_lt
  have hscale := b.scale_toNat (s := s) (by omega) (by omega)
  have hcol : (sourceOf s.width b.width.toUInt32 (b.scale s) x).toNat = b.sourceColumn s x := by
    rw [sourceOf_toNat (hscale ▸ hfit.width) (hscale ▸ covers_left _ _ _ b.width_pos) h.1, hscale]
    rfl
  have hrow : (sourceOf s.height b.height.toUInt32 (b.scale s) y).toNat = b.sourceRow s y := by
    rw [sourceOf_toNat (hscale ▸ hfit.height) (hscale ▸ covers_right _ _ _ b.height_pos) h.2,
      hscale]
    rfl
  have hcolumn : b.sourceColumn s x < b.width.toNat :=
    croppedPlace_lt (covers_left _ _ _ b.width_pos) h.1
  have hrows : b.sourceRow s y < b.height.toNat :=
    croppedPlace_lt (covers_right _ _ _ b.height_pos) h.2
  refine ⟨hcolumn, hrows, ?_⟩
  rw [← hrow, ← hcol]
  exact (index_toNat (hrow ▸ hrows) (hcol ▸ hcolumn)).1

/-! ### The colours -/

/-- The value of a 24-bit colour in the format of the surface. -/
def plain (s : Surface) (color : UInt32) : UInt32 :=
  if s.bitsPerPixel = 16 then toRgb565 color else color

/-- The pixel holds the colour of an RGB565 value, and with 16 bits the value itself. -/
def HoldsRgb565 (s : Surface) (m : Memory) (x y v : UInt32) : Prop :=
  s.getPixel m x y = plain s (rgb565ToRgb888 v) ∧ (s.bitsPerPixel = 16 → s.getPixel m x y = v)

/-- What is stored for a colour from RGB565 is its plain value, the darkest blue apart. -/
theorem encode_eq_plain_iff (hv : s.IsValid) (hdeep : s.bitsPerPixel ≠ 8)
    {v : UInt32} (hlt : v.toNat < 65536) :
    s.format.encode (rgb565ToRgb888 v) = plain s (rgb565ToRgb888 v) ↔ v ≠ 1 := by
  have hpalette := paletteColor_rgb565_eq_iff hlt
  have hsmall : rgb565ToRgb888 v &&& 0xFFFFFF = rgb565ToRgb888 v := by
    apply UInt32.toNat_inj.mp
    rw [Word.toNat_and_mask _ (k := 24) rfl, Nat.mod_eq_of_lt (rgb565ToRgb888_lt v)]
  unfold plain Surface.format
  constructor
  · rintro heq rfl
    revert heq
    rcases Surface.bytesPerPixel_cases hv with ⟨h, -⟩ | ⟨h, -⟩ | ⟨h, -⟩ | ⟨h, -⟩
    · exact absurd h hdeep
    all_goals rw [h]; decide
  · intro hne
    have hsame := hpalette.mpr hne
    rcases Surface.bytesPerPixel_cases hv with ⟨h, -⟩ | ⟨h, -⟩ | ⟨h, -⟩ | ⟨h, -⟩
    · exact absurd h hdeep
    · rw [h]
      exact congrArg toRgb565 hsame
    · rw [h]
      change paletteColor (rgb565ToRgb888 v) &&& 0xFFFFFF = rgb565ToRgb888 v
      rw [hsame, hsmall]
    · rw [h]
      exact hsame

theorem AssetBitmap.pixel16_lt (b : AssetBitmap) (index : ℕ) : (b.pixel16 index).toNat < 65536 :=
  (le16 b.pixels (2 * index)).toNat_lt

/-! ### The drawing -/

/-- The pixels of a surface, row by row. -/
def points (s : Surface) : List (UInt32 × UInt32) :=
  (List.range s.height.toNat).flatMap fun y =>
    (List.range s.width.toNat).map fun x => (UInt32.ofNat x, UInt32.ofNat y)

theorem mem_points {x y : UInt32} (h : s.Has x y) : (x, y) ∈ points s :=
  List.mem_flatMap.mpr ⟨y.toNat, List.mem_range.mpr h.2,
    List.mem_map.mpr ⟨x.toNat, List.mem_range.mpr h.1, by simp only [UInt32.ofNat_toNat]⟩⟩

theorem assetsDrawWallpaper_eq {b : AssetBitmap} (hf : b.format = myimgRgb565) (hv : s.IsValid) :
    assetsDrawWallpaper (some b) s = (true, s.drawEach (points s) fun x y =>
      rgb565ToRgb888 (b.pixel16 (b.wallpaperIndex s x y).toNat)) := by
  unfold assetsDrawWallpaper Surface.drawEach points
  dsimp only
  rw [if_neg (not_or.mpr ⟨not_not.mpr hv, not_not.mpr hf⟩), List.flatMap_assoc]
  simp only [List.flatMap_map]

/-- **The wallpaper is shown as it is, the darkest blue apart.** For every image and every valid
surface of 16, 24 or 32 bits whose products fit in 32 bits: the source coordinates of every pixel
are inside the image in exact arithmetic, and the pixel holds the colour found there just when the
value there is not 1. -/
theorem assetsDrawWallpaper_faithful_iff (b : AssetBitmap) (s : Surface)
    (hf : b.format = myimgRgb565) (hv : s.IsValid) (hdeep : s.bitsPerPixel ≠ 8) (he : s.Exact)
    (hfit : b.Fits s) :
    (assetsDrawWallpaper (some b) s).1 = true ∧
    ∀ (m : Memory) (x y : UInt32), s.Has x y →
      b.sourceColumn s x < b.width.toNat ∧ b.sourceRow s y < b.height.toNat ∧
      let v := b.pixel16 (b.sourceRow s y * b.width.toNat + b.sourceColumn s x)
      (HoldsRgb565 s (write m (assetsDrawWallpaper (some b) s).2) x y v ↔ v ≠ 1) := by
  obtain ⟨hw, hh⟩ := side_lt hv he hdeep
  rw [assetsDrawWallpaper_eq hf hv]
  refine ⟨rfl, fun m x y h => ?_⟩
  obtain ⟨hcol, hrow, hindex⟩ := AssetBitmap.wallpaperIndex_toNat hw hh hfit h
  refine ⟨hcol, hrow, ?_⟩
  have hlt := b.pixel16_lt (b.sourceRow s y * b.width.toNat + b.sourceColumn s x)
  intro v
  unfold HoldsRgb565
  rw [Surface.getPixel_write_drawEach hv he h, if_pos (mem_points h), hindex,
    encode_eq_plain_iff hv hdeep hlt, and_iff_left_iff_imp]
  -- on 16 bits the plain value is the source value itself
  intro hne h16
  rw [(encode_eq_plain_iff hv hdeep hlt).mpr hne]
  unfold plain
  rw [if_pos h16, toRgb565_rgb565ToRgb888 hlt]

/-- An image of the size of the wallpaper in `manifest.json`, in one colour. -/
def uniform (v : UInt16) : AssetBitmap where
  width := 800
  height := 450
  format := myimgRgb565
  hotspotX := 0
  hotspotY := 0
  payloadSize := 720000
  pixels := fun k => if k % 2 = 0 then UInt8.ofNat v.toNat else UInt8.ofNat (v.toNat / 256)
  width_pos := by decide
  height_pos := by decide

theorem pixel16_uniform (v : UInt16) (index : ℕ) : (uniform v).pixel16 index = v.toUInt32 := by
  refine congrArg UInt16.toUInt32 (le16_of_leByte ?_ ?_)
  · exact if_pos (by omega)
  · exact if_neg (by omega)

/-- A screen of 1024 by 768 pixels with 16 bits. -/
def highColor : Surface := ⟨0xFD000000, 1024, 768, 2048, 16⟩

theorem highColor_exact : highColor.Exact := ⟨by decide, by decide⟩

/-- A red image turns the whole screen red. -/
theorem assetsDrawWallpaper_faithful_red : HoldsRgb565 highColor
      (write (fun _ => 0) (assetsDrawWallpaper (some (uniform 0xF800)) highColor).2) 1023 767
      0xF800 := by
  have h := (assetsDrawWallpaper_faithful_iff (uniform 0xF800) highColor rfl (by decide) (by decide)
    highColor_exact ⟨by decide, by decide⟩).2 (fun _ => 0) 1023 767 (by decide)
  have hiff := h.2.2
  rw [pixel16_uniform] at hiff
  exact hiff.mpr (by decide)

/-- **The darkest blue comes out grey**: the image holds the value 1 everywhere, and the screen
shows the ninth colour of the palette. -/
theorem dark_blue_drawn_grey : (assetsDrawWallpaper (some (uniform 1)) highColor).1 = true ∧
      highColor.getPixel
        (write (fun _ => 0) (assetsDrawWallpaper (some (uniform 1)) highColor).2) 0 0 = 0x52AA ∧
      plain highColor (rgb565ToRgb888 1) = 1 := by
  have hon : highColor.Has 0 0 := by decide
  rw [assetsDrawWallpaper_eq rfl (by decide)]
  refine ⟨rfl, ?_, by decide⟩
  rw [Surface.getPixel_write_drawEach (by decide) highColor_exact hon, if_pos (mem_points hon),
    pixel16_uniform]
  decide

end MyOS.Assets
