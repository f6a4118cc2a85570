import MyOS.Gui.Cursor
import MyOS.Lib.Word
import Mathlib.Data.List.GetD

/-!
# Colours

The conversions of `graphics.c` and `assets.c` between 24-bit colours and RGB565, as arithmetic on
the channels. Going from RGB565 to 24 bits repeats the high bits of a channel in the low ones, and
going back drops them, so the two are inverse (`toRgb565_rgb565ToRgb888`).

`graphics_put_pixel` does not store a colour as it is: a value below 16 is an index into the
palette. Of the colours that come from RGB565 two are that small, black, which is also the first
entry, and the darkest blue, which is not the ninth (`paletteColor_rgb565_eq_iff`).
-/

namespace MyOS.Graphics

open Gui (paletteColor colorToRgb565 rgb565ToRgb888)

/-- The RGB565 value of a 24-bit colour: `color_to_rgb565` without the palette. -/
def toRgb565 (color : UInt32) : UInt32 :=
  let r := (color >>> 16) &&& 0xFF
  let g := (color >>> 8) &&& 0xFF
  let b := color &&& 0xFF
  ((r >>> 3) <<< 11) ||| ((g >>> 2) <<< 5) ||| (b >>> 3)

/-! ### Channels -/

theorem toNat_shiftLeft {v n : UInt32} {k : ℕ} (hn : n.toNat = k) (hk : k < 32)
    (hv : v.toNat * 2 ^ k < 2 ^ 32) : (v <<< n).toNat = v.toNat * 2 ^ k := by
  rw [UInt32.toNat_shiftLeft, hn, Nat.mod_eq_of_lt hk, Nat.shiftLeft_eq, Nat.mod_eq_of_lt hv]

theorem toNat_shiftRight (v : UInt32) {n : UInt32} {k : ℕ} (hn : n.toNat = k) (hk : k < 32) :
    (v >>> n).toNat = v.toNat / 2 ^ k := by
  rw [UInt32.toNat_shiftRight, hn, Nat.mod_eq_of_lt hk, Nat.shiftRight_eq_div_pow]

/-- Three channels at their places are joined by addition. -/
theorem toNat_channels {a b c : UInt32} {j k : ℕ} (ha : a.toNat % 2 ^ k = 0)
    (hb : b.toNat < 2 ^ k) (hb' : b.toNat % 2 ^ j = 0) (hjk : j ≤ k) (hc : c.toNat < 2 ^ j) :
    (a ||| b ||| c).toNat = a.toNat + b.toNat + c.toNat := by
  have hab := Word.toNat_or_of_aligned ha hb
  have ha' : a.toNat % 2 ^ j = 0 :=
    Nat.mod_eq_zero_of_dvd ((Nat.pow_dvd_pow 2 hjk).trans (Nat.dvd_of_mod_eq_zero ha))
  rw [Word.toNat_or_of_aligned (k := j) ?_ hc, hab]
  rw [hab, Nat.add_mod, ha', hb', Nat.zero_add, Nat.zero_mod]

theorem toRgb565_toNat (c : UInt32) : (toRgb565 c).toNat =
    c.toNat / 65536 % 256 / 8 * 2048 + c.toNat / 256 % 256 / 4 * 32 + c.toNat % 256 / 8 := by
  have hr : ((c >>> 16 &&& 0xFF) >>> 3).toNat = c.toNat / 65536 % 256 / 8 := by
    rw [toNat_shiftRight _ (k := 3) rfl (by decide), Word.toNat_and_mask _ (k := 8) rfl,
      toNat_shiftRight _ (k := 16) rfl (by decide)]
    rfl
  have hg : ((c >>> 8 &&& 0xFF) >>> 2).toNat = c.toNat / 256 % 256 / 4 := by
    rw [toNat_shiftRight _ (k := 2) rfl (by decide), Word.toNat_and_mask _ (k := 8) rfl,
      toNat_shiftRight _ (k := 8) rfl (by decide)]
    rfl
  have hb : ((c &&& 0xFF) >>> 3).toNat = c.toNat % 256 / 8 := by
    rw [toNat_shiftRight _ (k := 3) rfl (by decide), Word.toNat_and_mask _ (k := 8) rfl]
    rfl
  have hr' := toNat_shiftLeft (n := 11) (k := 11) rfl (by decide)
    (show ((c >>> 16 &&& 0xFF) >>> 3).toNat * 2 ^ 11 < 2 ^ 32 by omega)
  have hg' := toNat_shiftLeft (n := 5) (k := 5) rfl (by decide)
    (show ((c >>> 8 &&& 0xFF) >>> 2).toNat * 2 ^ 5 < 2 ^ 32 by omega)
  unfold toRgb565
  rw [toNat_channels (j := 5) (k := 11) (by omega) (by omega) (by omega) (by decide) (by omega),
    hr', hg', hr, hg, hb]
  rfl

/-- A channel that is widened by repeating its high bits. -/
theorem toNat_widen {v u d : UInt32} {i j : ℕ} (hu : u.toNat = i) (hd : d.toNat = j)
    (hi : i < 32) (hj : j < 32) (hfit : v.toNat * 2 ^ i < 2 ^ 32) (hlow : v.toNat / 2 ^ j < 2 ^ i) :
    (v <<< u ||| v >>> d).toNat = v.toNat * 2 ^ i + v.toNat / 2 ^ j := by
  have hl := toNat_shiftLeft hu hi hfit
  have hr := toNat_shiftRight v hd hj
  rw [Word.toNat_or_of_aligned (k := i) ?_ (by omega), hl, hr]
  rw [hl, Nat.mul_mod_left]

theorem rgb565ToRgb888_toNat (v : UInt32) : (rgb565ToRgb888 v).toNat =
    (v.toNat / 2048 % 32 * 8 + v.toNat / 2048 % 32 / 4) * 65536
      + (v.toNat / 32 % 64 * 4 + v.toNat / 32 % 64 / 16) * 256
      + (v.toNat % 32 * 8 + v.toNat % 32 / 4) := by
  have hr : (v >>> 11 &&& 0x1F).toNat = v.toNat / 2048 % 32 := by
    rw [Word.toNat_and_mask _ (k := 5) rfl, toNat_shiftRight _ (k := 11) rfl (by decide)]
    rfl
  have hg : (v >>> 5 &&& 0x3F).toNat = v.toNat / 32 % 64 := by
    rw [Word.toNat_and_mask _ (k := 6) rfl, toNat_shiftRight _ (k := 5) rfl (by decide)]
    rfl
  have hb : (v &&& 0x1F).toNat = v.toNat % 32 := Word.toNat_and_mask _ (k := 5) rfl
  unfold rgb565ToRgb888
  dsimp only
  generalize v >>> 11 &&& 0x1F = r at hr
  generalize v >>> 5 &&& 0x3F = g at hg
  generalize v &&& 0x1F = b at hb
  have hr' := toNat_widen (v := r) (u := 3) (d := 2) (i := 3) (j := 2) rfl rfl (by decide)
    (by decide) (by omega) (by omega)
  have hg' := toNat_widen (v := g) (u := 2) (d := 4) (i := 2) (j := 4) rfl rfl (by decide)
    (by decide) (by omega) (by omega)
  have hb' := toNat_widen (v := b) (u := 3) (d := 2) (i := 3) (j := 2) rfl rfl (by decide)
    (by decide) (by omega) (by omega)
  generalize r <<< 3 ||| r >>> 2 = r8 at hr'
  generalize g <<< 2 ||| g >>> 4 = g8 at hg'
  generalize b <<< 3 ||| b >>> 2 = b8 at hb'
  have hr8 := toNat_shiftLeft (v := r8) (n := 16) (k := 16) rfl (by decide) (by omega)
  have hg8 := toNat_shiftLeft (v := g8) (n := 8) (k := 8) rfl (by decide) (by omega)
  rw [toNat_channels (j := 8) (k := 16) (by omega) (by omega) (by omega) (by decide) (by omega),
    hr8, hg8]
  omega

/-- **RGB565 survives the way over 24 bits.** -/
theorem toRgb565_rgb565ToRgb888 {v : UInt32} (hv : v.toNat < 65536) :
    toRgb565 (rgb565ToRgb888 v) = v := by
  -- the channels of a sum of channels, each less than 256
  have hsplit : ∀ r g b : ℕ, r < 256 → g < 256 → b < 256 →
      (r * 65536 + g * 256 + b) / 65536 % 256 = r ∧ (r * 65536 + g * 256 + b) / 256 % 256 = g ∧
        (r * 65536 + g * 256 + b) % 256 = b := by omega
  obtain ⟨hr, hg, hb⟩ := hsplit (v.toNat / 2048 % 32 * 8 + v.toNat / 2048 % 32 / 4)
    (v.toNat / 32 % 64 * 4 + v.toNat / 32 % 64 / 16) (v.toNat % 32 * 8 + v.toNat % 32 / 4)
    (by omega) (by omega) (by omega)
  have hfive : ∀ c < 32, (c * 8 + c / 4) / 8 = c := by omega
  have hsix : ∀ c < 64, (c * 4 + c / 16) / 4 = c := by omega
  apply UInt32.toNat_inj.mp
  rw [toRgb565_toNat, rgb565ToRgb888_toNat, hr, hg, hb, hfive _ (Nat.mod_lt _ (by decide)),
    hsix _ (Nat.mod_lt _ (by decide)), hfive _ (Nat.mod_lt _ (by decide))]
  clear hsplit hr hg hb
  omega

theorem toRgb565_lt (c : UInt32) : (toRgb565 c).toNat < 65536 := by
  rw [toRgb565_toNat]
  omega

theorem rgb565ToRgb888_lt (v : UInt32) : (rgb565ToRgb888 v).toNat < 2 ^ 24 := by
  rw [rgb565ToRgb888_toNat]
  omega

/-! ### The palette -/

theorem paletteColor_of_le {c : UInt32} (h : 16 ≤ c.toNat) : paletteColor c = c :=
  List.getD_eq_default _ _ h

/-- **The one colour that the palette changes** among those from RGB565. -/
theorem paletteColor_rgb565_eq_iff {v : UInt32} (hv : v.toNat < 65536) :
    paletteColor (rgb565ToRgb888 v) = rgb565ToRgb888 v ↔ v ≠ 1 := by
  have hval := rgb565ToRgb888_toNat v
  by_cases h1 : v = 1
  · rw [h1]
    decide
  · refine iff_of_true ?_ h1
    by_cases h0 : v = 0
    · rw [h0]
      decide
    · -- from 2 on the value is at least 16
      have hge : 2 ≤ v.toNat := by
        rw [← UInt32.toNat_inj] at h0 h1
        change v.toNat ≠ 0 at h0
        change v.toNat ≠ 1 at h1
        omega
      refine paletteColor_of_le ?_
      rw [hval]
      by_cases hr : v.toNat / 2048 % 32 = 0
      · by_cases hg : v.toNat / 32 % 64 = 0
        · have hb : 2 ≤ v.toNat % 32 := by omega
          omega
        · omega
      · omega

end MyOS.Graphics
