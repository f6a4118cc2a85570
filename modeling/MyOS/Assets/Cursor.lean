import MyOS.Assets.Wallpaper

/-!
# The cursor

`assets_draw_cursor` of `assets.c`, down to the bytes of the surface: the state of its loops is the
memory, which a translucent pixel of the cursor reads before it is drawn. Coordinates are signed
32-bit numbers.
-/

namespace MyOS.Assets

open Graphics Stores
open Gui (blendRgb surfaceColorToRgb888)

/-- The coordinate of a column or row of the cursor: first `left` or `top`, then `px` or `py`. -/
def cursorAt (p : Int32) (hotspot : UInt16) (k : ℕ) : Int32 :=
  p - hotspot.toUInt32.toInt32 + (UInt32.ofNat k).toInt32

namespace AssetBitmap

/-- `px` -/
def cursorX (b : AssetBitmap) (x : Int32) (col : ℕ) : Int32 := cursorAt x b.hotspotX col

/-- `py` -/
def cursorY (b : AssetBitmap) (y : Int32) (row : ℕ) : Int32 := cursorAt y b.hotspotY row

/-- The pixel of the cursor is not skipped as one beside the surface. -/
def Visible (b : AssetBitmap) (s : Surface) (x y : Int32) (row col : ℕ) : Prop :=
  ¬ (b.cursorX x col < 0 ∨ b.cursorY y row < 0 ∨ b.cursorX x col ≥ s.width.toInt32 ∨
    b.cursorY y row ≥ s.height.toInt32)

instance (b : AssetBitmap) (s : Surface) (x y : Int32) (row col : ℕ) :
    Decidable (b.Visible s x y row col) := by unfold Visible; infer_instance

/-- `row * active->width + col` -/
def cursorIndex (b : AssetBitmap) (row col : ℕ) : UInt32 :=
  UInt32.ofNat row * b.width.toUInt32 + UInt32.ofNat col

/-- `src[index]` in an image of 32-bit pixels. -/
def pixel32 (b : AssetBitmap) (index : ℕ) : UInt32 := le32 b.pixels (4 * index)

end AssetBitmap

/-- One round of the loops of `assets_draw_cursor`. -/
def drawCursorPixel (b : AssetBitmap) (s : Surface) (x y : Int32) (row : ℕ) (m : Memory)
    (col : ℕ) : Memory :=
  if ¬ b.Visible s x y row col then m
  else
    let px := (b.cursorX x col).toUInt32
    let py := (b.cursorY y row).toUInt32
    let argb := b.pixel32 (b.cursorIndex row col).toNat
    let alpha := argb >>> 24
    if alpha = 0 then m
    else
      let color := argb &&& 0x00FFFFFF
      let color :=
        if alpha < 255 then
          blendRgb (surfaceColorToRgb888 s.format (s.getPixel m px py)) color alpha
        else color
      write m (s.putPixel px py color)

/-- `active`, the bitmap that is drawn. -/
def activeBitmap (cursor textCursor : Option AssetBitmap) (textMode : Bool) : Option AssetBitmap :=
  if textMode && textCursor.isSome then textCursor else cursor

/-- `assets_draw_cursor`: the result and the memory. -/
def assetsDrawCursor (cursor textCursor : Option AssetBitmap) (s : Surface) (x y : Int32)
    (textMode : Bool) (m : Memory) : Bool × Memory :=
  match activeBitmap cursor textCursor textMode with
  | none => (false, m)
  | some b =>
    if ¬ s.IsValid ∨ b.format ≠ myimgArgb32 then (false, m)
    else
      (true, (List.range b.height.toNat).foldl
        (fun m row => (List.range b.width.toNat).foldl (drawCursorPixel b s x y row) m) m)

theorem toNat_ofNat_of_lt_side {side : UInt16} {k : ℕ} (hk : k < side.toNat) :
    (UInt32.ofNat k).toNat = k := by
  have := side.toNat_lt
  exact UInt32.toNat_ofNat_of_lt' (by unfold UInt32.size; omega)

/-! ### The source pixels -/

namespace AssetBitmap

theorem cursorIndex_toNat {b : AssetBitmap} {row col : ℕ} (hrow : row < b.height.toNat)
    (hcol : col < b.width.toNat) :
    (b.cursorIndex row col).toNat = row * b.width.toNat + col ∧
      row * b.width.toNat + col < b.width.toNat * b.height.toNat := by
  have hr := toNat_ofNat_of_lt_side hrow
  have hc := toNat_ofNat_of_lt_side hcol
  have hindex := index_toNat (hr.trans_lt hrow) (hc.trans_lt hcol)
  rwa [hr, hc] at hindex

/-- The source pixel is one of the image. -/
theorem cursorIndex_lt (b : AssetBitmap) {row col : ℕ} (hrow : row < b.height.toNat)
    (hcol : col < b.width.toNat) :
    (b.cursorIndex row col).toNat < b.width.toNat * b.height.toNat :=
  (cursorIndex_toNat hrow hcol).1.trans_lt (cursorIndex_toNat hrow hcol).2

end AssetBitmap

end MyOS.Assets
