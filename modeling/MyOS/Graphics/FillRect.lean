import MyOS.Graphics.Surface

/-!
# Filling a rectangle

`graphics_fill_rect` against `graphics_put_pixel` on every pixel of the rectangle. As lists of
stores the two are the same, byte for byte and in the same order, as soon as the rectangle is cut
off correctly at the edges (`fillRect_eq_drawPixels`).

The cut compares `x + width` with the width of the surface, and that sum wraps. A wrapped sum is
less than `x`, so nothing is cut off, and the loop runs through `width` columns. This is the only
way to go wrong (`fillRect_exact_iff`): it is enough that the sums do not wrap, or that they do not
matter, and on surfaces whose rows do not wrap it is necessary. A loop over too many columns passes
the last byte of the address space, one over too many rows draws the row below the surface.
-/

namespace MyOS.Graphics

open Stores List

namespace Surface

/-! ### The rectangle -/

/-- `graphics_put_pixel` on every pixel of a rectangle that lies on the surface, row by row; the
sides of the rectangle are numbers without a bound. -/
def drawPixels (s : Surface) (x y width height color : UInt32) : List (UInt32 × UInt8) :=
  ((List.range' y.toNat height.toNat).filter (· < s.height.toNat)).flatMap fun j =>
    ((List.range' x.toNat width.toNat).filter (· < s.width.toNat)).flatMap fun i =>
      s.putPixel (UInt32.ofNat i) (UInt32.ofNat j) color

/-- The address is one of a byte of a pixel of the surface. -/
def PixelByte (s : Surface) (a : UInt32) : Prop :=
  ∃ x y, s.Has x y ∧ ∃ k < s.bytesPerPixel.toNat, a = s.pixelAddress x y + UInt32.ofNat k

/-- The sums in `graphics_fill_rect` do not wrap where they matter. -/
def Unwrapped (s : Surface) (x y width height : UInt32) : Prop :=
  s.width.toNat ≤ x.toNat ∨ s.height.toNat ≤ y.toNat ∨
    ((x.toNat + width.toNat < 2 ^ 32 ∨ height = 0) ∧ (y.toNat + height.toNat < 2 ^ 32 ∨ width = 0))

instance (s : Surface) (x y width height : UInt32) : Decidable (s.Unwrapped x y width height) := by
  unfold Unwrapped; infer_instance

variable {s : Surface} {x y width height color : UInt32}

theorem filter_range' (start n bound : ℕ) :
    (List.range' start n).filter (· < bound) = List.range' start (min n (bound - start)) := by
  induction n generalizing start with
  | zero => simp
  | succ n ih =>
    rw [range'_succ, filter_cons, ih]
    by_cases h : start < bound
    · rw [if_pos (by simpa using h), show min (n + 1) (bound - start)
        = min n (bound - (start + 1)) + 1 by omega, range'_succ]
    · rw [if_neg (by simpa using h), show min (n + 1) (bound - start) = 0 by omega,
        show min n (bound - (start + 1)) = 0 by omega]
      rfl

variable {start length bound a : UInt32}

/-- A side that is cut off correctly. -/
theorem clipSide_toNat (h : start.toNat < bound.toNat) (hsum : start.toNat + length.toNat < 2 ^ 32)
    :
    (clipSide start length bound).toNat = min length.toNat (bound.toNat - start.toNat) := by
  have hadd : (start + length).toNat = start.toNat + length.toNat := by
    rw [UInt32.toNat_add, Nat.mod_eq_of_lt hsum]
  have hcut : start + length > bound ↔ bound.toNat < start.toNat + length.toNat := by
    rw [gt_iff_lt, UInt32.lt_iff_toNat_lt, hadd]
  unfold clipSide
  split
  · rename_i hgt
    have := hcut.mp hgt
    rw [UInt32.toNat_sub_of_le _ _ (UInt32.le_iff_toNat_le.mpr (by omega))]
    omega
  · rename_i hgt
    have := mt hcut.mpr hgt
    omega

/-- A side whose sum wraps is not cut off. -/
theorem clipSide_of_wrap (h : start.toNat < bound.toNat)
    (hsum : 2 ^ 32 ≤ start.toNat + length.toNat) : clipSide start length bound = length := by
  have hlen := length.toNat_lt
  have hstart := start.toNat_lt
  have hadd : (start + length).toNat = start.toNat + length.toNat - 2 ^ 32 := by
    rw [UInt32.toNat_add]
    omega
  refine if_neg ?_
  rw [gt_iff_lt, UInt32.lt_iff_toNat_lt, hadd]
  omega

theorem clipSide_zero (start bound : UInt32) (h : start.toNat < bound.toNat) :
    clipSide start 0 bound = 0 := by
  apply UInt32.toNat_inj.mp
  have hlt := start.toNat_lt
  rw [clipSide_toNat h (by rw [UInt32.toNat_zero]; omega), UInt32.toNat_zero, Nat.zero_min]

/-! ### The same stores -/

/-- The columns of a row, in one formula for all depths. -/
theorem fillRow_eq (hv : s.IsValid) (pixel : UInt32) :
    s.fillRow pixel width color = (List.range width.toNat).flatMap fun col =>
      storeLe (pixel + UInt32.ofNat col * s.bytesPerPixel) (s.encode color)
        s.bytesPerPixel.toNat := by
  unfold fillRow encode
  rcases bytesPerPixel_cases hv with ⟨hb, hn⟩ | ⟨hb, hn⟩ | ⟨hb, hn⟩ | ⟨hb, hn⟩
  · rw [hb, hn]
    simp only [UInt32.mul_one]
    rfl
  · rw [hb, hn]; rfl
  · rw [hb, hn]; rfl
  · rw [hb, hn]; rfl

theorem ofNat_toNat_add (x : UInt32) (n : ℕ) : UInt32.ofNat (x.toNat + n) = x + UInt32.ofNat n := by
  rw [UInt32.ofNat_add, UInt32.ofNat_toNat]

/-- A pixel of the loops is the pixel with its coordinates. -/
theorem fill_address (s : Surface) (x y : UInt32) (row col : ℕ) :
    s.pixels + (y + UInt32.ofNat row) * s.pitch + x * s.bytesPerPixel
        + UInt32.ofNat col * s.bytesPerPixel
      = s.pixelAddress (UInt32.ofNat (x.toNat + col)) (UInt32.ofNat (y.toNat + row)) := by
  unfold pixelAddress
  rw [ofNat_toNat_add, ofNat_toNat_add]
  grind

theorem has_ofNat {i j : ℕ} (hi : i < s.width.toNat) (hj : j < s.height.toNat) :
    s.Has (UInt32.ofNat i) (UInt32.ofNat j) := by
  have := s.width.toNat_lt
  have := s.height.toNat_lt
  unfold Has
  rw [UInt32.toNat_ofNat', UInt32.toNat_ofNat', Nat.mod_eq_of_lt (by omega),
    Nat.mod_eq_of_lt (by omega)]
  exact ⟨hi, hj⟩

/-- **The same stores in the same order**, for a rectangle that is cut off correctly. -/
theorem fillRect_eq_of_clip (hv : s.IsValid) (hx : x.toNat < s.width.toNat)
    (hy : y.toNat < s.height.toNat)
    (hw : (clipSide x width s.width).toNat = min width.toNat (s.width.toNat - x.toNat))
    (hh : (clipSide y height s.height).toNat = min height.toNat (s.height.toNat - y.toNat)) :
    s.fillRect x y width height color = s.drawPixels x y width height color := by
  unfold fillRect drawPixels
  rw [if_neg (not_skipped hv ⟨hx, hy⟩), filter_range', filter_range', range'_eq_map_range,
    range'_eq_map_range, flatMap_map]
  dsimp only
  rw [hh]
  refine flatMap_congr fun row hrow => ?_
  rw [fillRow_eq hv, hw, flatMap_map]
  refine flatMap_congr fun col hcol => ?_
  have hrow' := mem_range.mp hrow
  have hcol' := mem_range.mp hcol
  rw [fill_address, putPixel_eq hv (has_ofNat (by omega) (by omega))]

/-- Nothing is drawn of a rectangle without rows or columns on the surface. -/
theorem drawPixels_eq_nil (h : min height.toNat (s.height.toNat - y.toNat) = 0 ∨
      min width.toNat (s.width.toNat - x.toNat) = 0) :
    s.drawPixels x y width height color = [] := by
  unfold drawPixels
  rw [filter_range', filter_range']
  rcases h with h | h
  · rw [h]; rfl
  · rw [h]
    exact flatMap_eq_nil_iff.mpr fun j _ => rfl

/-- **The fast function draws the pixels of the rectangle** when the sums do not wrap. -/
theorem fillRect_eq_drawPixels (hv : s.IsValid) (h : s.Unwrapped x y width height) :
    s.fillRect x y width height color = s.drawPixels x y width height color := by
  by_cases hon : s.Has x y
  · obtain ⟨hx, hy⟩ := hon
    obtain ⟨hwidth, hheight⟩ := (h.resolve_left (by omega)).resolve_left (by omega)
    by_cases hw0 : width = 0
    · -- no columns: every row is empty, however many there are
      rw [drawPixels_eq_nil (.inr (by rw [hw0, UInt32.toNat_zero, Nat.zero_min])), fillRect,
        if_neg (not_skipped hv ⟨hx, hy⟩), hw0, clipSide_zero x s.width hx]
      exact flatMap_eq_nil_iff.mpr fun row _ => rfl
    · by_cases hh0 : height = 0
      · rw [drawPixels_eq_nil (.inl (by rw [hh0, UInt32.toNat_zero, Nat.zero_min])), fillRect,
          if_neg (not_skipped hv ⟨hx, hy⟩), hh0, clipSide_zero y s.height hy]
        rfl
      · exact fillRect_eq_of_clip hv hx hy (clipSide_toNat hx (hwidth.resolve_right hh0))
          (clipSide_toNat hy (hheight.resolve_right hw0))
  · rw [drawPixels_eq_nil (by unfold Has at hon; omega), fillRect, if_pos (skipped hon)]

/-- What drawing writes are bytes of pixels of the rectangle. -/
theorem pixelByte_of_mem_drawPixels (hv : s.IsValid)
    (h : a ∈ targets (s.drawPixels x y width height color)) :
    ∃ i j k, i < s.width.toNat ∧ j < s.height.toNat ∧ k < s.bytesPerPixel.toNat ∧
      x.toNat ≤ i ∧ y.toNat ≤ j ∧
      a = s.pixelAddress (UInt32.ofNat i) (UInt32.ofNat j) + UInt32.ofNat k := by
  obtain ⟨v, hmem⟩ := mem_targets.mp h
  obtain ⟨j, hj, hmem⟩ := mem_flatMap.mp hmem
  obtain ⟨i, hi, hmem⟩ := mem_flatMap.mp hmem
  obtain ⟨hj, hjs⟩ := mem_filter.mp hj
  obtain ⟨hi, his⟩ := mem_filter.mp hi
  rw [decide_eq_true_eq] at hjs his
  rw [putPixel_eq hv (has_ofNat his hjs)] at hmem
  obtain ⟨k, hk, rfl, -⟩ := mem_storeLe.mp hmem
  rw [mem_range'_1] at hi hj
  exact ⟨i, j, k, his, hjs, hk, hi.1, hj.1, rfl⟩

theorem pixelByte_of_mem (hv : s.IsValid) (h : a ∈ targets (s.drawPixels x y width height color)) :
    s.PixelByte a := by
  obtain ⟨i, j, k, hi, hj, hk, -, -, rfl⟩ := pixelByte_of_mem_drawPixels hv h
  exact ⟨_, _, has_ofNat hi hj, k, hk, rfl⟩

/-! ### Sums that wrap -/

/-- A byte of the loops of `graphics_fill_rect`. -/
theorem mem_fillRect (hv : s.IsValid) (h : s.Has x y) {i j k : ℕ}
    (hrow : i < (clipSide y height s.height).toNat)
    (hcol : j < (clipSide x width s.width).toNat) (hk : k < s.bytesPerPixel.toNat) :
    s.pixels + UInt32.ofNat ((y.toNat + i) * s.pitch.toNat
        + (x.toNat + j) * s.bytesPerPixel.toNat + k)
      ∈ targets (s.fillRect x y width height color) := by
  unfold fillRect
  rw [if_neg (not_skipped hv h), mem_targets]
  refine ⟨leByte (s.encode color) k, mem_flatMap.mpr ⟨i, mem_range.mpr hrow, ?_⟩⟩
  rw [fillRow_eq hv]
  refine mem_flatMap.mpr ⟨j, mem_range.mpr hcol, mem_storeLe.mpr ⟨k, hk, ?_, rfl⟩⟩
  rw [fill_address]
  unfold pixelAddress
  simp only [UInt32.ofNat_add, UInt32.ofNat_mul, UInt32.ofNat_toNat]
  grind

theorem clipSide_pos (h : start.toNat < bound.toNat) (hlen : length ≠ 0) :
    0 < (clipSide start length bound).toNat := by
  have hpos : 0 < length.toNat :=
    Nat.pos_of_ne_zero fun h0 => hlen (UInt32.toNat_inj.mp (h0.trans UInt32.toNat_zero.symm))
  by_cases hsum : start.toNat + length.toNat < 2 ^ 32
  · rw [clipSide_toNat h hsum]
    omega
  · rw [clipSide_of_wrap h (by omega)]
    exact hpos

/-- The places that drawing writes, counted from the first byte of the surface. -/
theorem offset_of_mem_drawPixels (hv : s.IsValid) (he : s.Exact) {n : ℕ}
    (h : s.pixels + UInt32.ofNat n ∈ targets (s.drawPixels x y width height color)) :
    x.toNat * s.bytesPerPixel.toNat ≤ n % 2 ^ 32 ∧ n % 2 ^ 32 < s.pitch.toNat * s.height.toNat := by
  obtain ⟨i, j, k, hi, hj, hk, hxi, -, heq⟩ := pixelByte_of_mem_drawPixels hv h
  have hlt := offset_lt he (has_ofNat hi hj) hk
  have htotal := he.total
  rw [pixelAddress_add] at heq
  have hsame : UInt32.ofNat n
      = UInt32.ofNat (s.offset (UInt32.ofNat i) (UInt32.ofNat j) k) := by grind
  have hn : n % 2 ^ 32 = s.offset (UInt32.ofNat i) (UInt32.ofNat j) k := by
    have := congrArg UInt32.toNat hsame
    rwa [UInt32.toNat_ofNat', UInt32.toNat_ofNat_of_lt' (by unfold UInt32.size; omega)] at this
  rw [hn]
  refine ⟨?_, hlt⟩
  have hi' : (UInt32.ofNat i).toNat = i := by
    have := s.width.toNat_lt
    exact UInt32.toNat_ofNat_of_lt' (by unfold UInt32.size; omega)
  have hcol := Nat.mul_le_mul_right s.bytesPerPixel.toNat hxi
  unfold offset
  rw [hi']
  omega

/-- **Columns without an end.** When `x + width` wraps, the first row goes on to the last byte of
the address space, counted from the surface. -/
theorem exists_written_of_wrapped_columns (hv : s.IsValid) (he : s.Exact) (hon : s.Has x y)
    (hwrap : 2 ^ 32 ≤ x.toNat + width.toNat) (hheight : height ≠ 0) :
    ∃ a ∈ targets (s.fillRect x y width height color),
      a ∉ targets (s.drawPixels x y width height color) := by
  have hb := bytesPerPixel_pos hv
  have htotal := he.total
  have hstart := offset_lt he hon hb
  have hclip := clipSide_of_wrap hon.1 hwrap
  have hpass : 2 ^ 32 ≤ (x.toNat + width.toNat) * s.bytesPerPixel.toNat :=
    hwrap.trans (Nat.le_mul_of_pos_right _ hb)
  unfold offset at hstart
  rw [Nat.add_mul] at hpass
  -- the byte, as a column and a place in it
  obtain ⟨d, hd⟩ : ∃ d, d + (y.toNat * s.pitch.toNat + x.toNat * s.bytesPerPixel.toNat)
      = 2 ^ 32 - 1 := ⟨2 ^ 32 - 1 - _, Nat.sub_add_cancel (by omega)⟩
  have hdiv := Nat.div_add_mod d s.bytesPerPixel.toNat
  have hcol : d / s.bytesPerPixel.toNat < (clipSide x width s.width).toNat := by
    rw [hclip, Nat.div_lt_iff_lt_mul hb]
    omega
  have hmem : _ ∈ targets (s.fillRect x y width height color) :=
    mem_fillRect hv hon (clipSide_pos hon.2 hheight) hcol (Nat.mod_lt d hb)
  have hlast : (y.toNat + 0) * s.pitch.toNat
      + (x.toNat + d / s.bytesPerPixel.toNat) * s.bytesPerPixel.toNat + d % s.bytesPerPixel.toNat
      = 2 ^ 32 - 1 := by
    rw [Nat.add_zero, Nat.add_mul x.toNat, Nat.mul_comm (d / _)]
    omega
  rw [hlast] at hmem
  refine ⟨_, hmem, fun hdraw => ?_⟩
  have := (offset_of_mem_drawPixels hv he hdraw).2
  omega

/-- **Rows below the surface.** When `y + height` wraps, the row below the last one is drawn. -/
theorem exists_written_of_wrapped_rows (hv : s.IsValid) (he : s.Exact) (hon : s.Has x y)
    (hwrap : 2 ^ 32 ≤ y.toNat + height.toNat) (hwidth : width ≠ 0) :
    ∃ a ∈ targets (s.fillRect x y width height color),
      a ∉ targets (s.drawPixels x y width height color) := by
  have hb := bytesPerPixel_pos hv
  have htotal := he.total
  have hcol := column_lt he hon hb
  have hlt := s.height.toNat_lt
  have hplt := s.pitch.toNat_lt
  have hon2 := hon.2
  have hrow : s.height.toNat - y.toNat < (clipSide y height s.height).toNat := by
    rw [clipSide_of_wrap hon.2 hwrap]
    omega
  have hmem : _ ∈ targets (s.fillRect x y width height color) :=
    mem_fillRect hv hon hrow (clipSide_pos hon.1 hwidth) hb
  rw [show y.toNat + (s.height.toNat - y.toNat) = s.height.toNat by omega, Nat.add_zero,
    Nat.add_zero, Nat.mul_comm s.height.toNat] at hmem
  refine ⟨_, hmem, fun hdraw => ?_⟩
  -- it is behind the surface, or it has wrapped to a place left of the rectangle in the first row
  have hplace := offset_of_mem_drawPixels hv he hdraw
  omega

/-! ### The characterisation -/

/-- The fast function leaves every memory as drawing pixel by pixel does, and writes nothing but
bytes of pixels. -/
def FillsExactly (s : Surface) (x y width height color : UInt32) : Prop :=
  ∀ m : Memory, write m (s.fillRect x y width height color)
      = write m (s.drawPixels x y width height color) ∧
    ∀ a, ¬ s.PixelByte a → write m (s.fillRect x y width height color) a = m a

/-- **Fast fill equals per-pixel drawing** when the sums of `graphics_fill_rect` do not wrap where
they matter, for every valid surface; and on every valid surface whose rows fit in the pitch, only
then. -/
theorem fillRect_exact_iff (s : Surface) (hv : s.IsValid)
    (hsize : s.pitch.toNat * s.height.toNat < 2 ^ 32) (x y width height color : UInt32) :
    (s.Unwrapped x y width height → s.FillsExactly x y width height color) ∧
    (s.width.toNat * s.bytesPerPixel.toNat ≤ s.pitch.toNat →
      (s.FillsExactly x y width height color ↔ s.Unwrapped x y width height)) := by
  have hsuff : s.Unwrapped x y width height → s.FillsExactly x y width height color := by
    intro h m
    rw [fillRect_eq_drawPixels hv h]
    exact ⟨rfl, fun a ha => write_of_notMem m fun hmem => ha (pixelByte_of_mem hv hmem)⟩
  refine ⟨hsuff, fun hrow => ⟨fun hfill => ?_, hsuff⟩⟩
  have he : s.Exact := ⟨hrow, hsize⟩
  -- a place that only the fast function writes makes a difference in some memory
  have hnone : ¬ ∃ a ∈ targets (s.fillRect x y width height color),
      a ∉ targets (s.drawPixels x y width height color) := by
    rintro ⟨a, hmem, hnot⟩
    have : Nontrivial UInt8 := ⟨0, 1, by decide⟩
    obtain ⟨m, hm⟩ := exists_write_ne hmem hnot fun _ => 0
    exact hm (congrFun (hfill m).1 a)
  by_contra hwrapped
  unfold Unwrapped at hwrapped
  simp only [not_or, not_and_or, Nat.not_le, Nat.not_lt] at hwrapped
  obtain ⟨hx, hy, ⟨hwrap, hheight⟩ | ⟨hwrap, hwidth⟩⟩ := hwrapped
  · exact hnone (exists_written_of_wrapped_columns hv he ⟨hx, hy⟩ hwrap hheight)
  · exact hnone (exists_written_of_wrapped_rows hv he ⟨hx, hy⟩ hwrap hwidth)

/-- The surface of the VGA mode with 256 colours. -/
def vga : Surface := ⟨0xA0000, 320, 200, 320, 8⟩

theorem fillRect_exact_vga : vga.IsValid ∧ vga.FillsExactly 300 190 50 50 15 :=
  ⟨by decide, (fillRect_exact_iff vga (by decide) (by decide) 300 190 50 50 15).1 (by decide)⟩

/-- The values that a fill stores. -/
theorem value_of_mem_fillRect (hv : s.IsValid) {w : UInt8}
    (h : (a, w) ∈ s.fillRect x y width height color) :
    ∃ k < s.bytesPerPixel.toNat, w = leByte (s.encode color) k := by
  unfold fillRect at h
  split at h
  · cases h
  · obtain ⟨row, -, h⟩ := mem_flatMap.mp h
    rw [fillRow_eq hv] at h
    obtain ⟨col, -, h⟩ := mem_flatMap.mp h
    obtain ⟨k, hk, -, rfl⟩ := mem_storeLe.mp h
    exact ⟨k, hk, rfl⟩

/-- **A fill past the end of the surface.** With `x = 1` and the greatest width the sum is 0, so
nothing is cut off; the byte at `0xB1171`, behind the 64000 bytes of the surface, is written. -/
theorem fill_past_surface : write (fun _ => 0) (vga.fillRect 1 0 0xFFFFFFFF 1 15) 0xB1171 = 15 ∧
    write (fun _ => 0) (vga.drawPixels 1 0 0xFFFFFFFF 1 15) 0xB1171 = 0 ∧
    ¬ vga.PixelByte 0xB1171 := by
  have hv : vga.IsValid := by decide
  have he : vga.Exact := ⟨by decide, by decide⟩
  have hclip : clipSide 1 0xFFFFFFFF vga.width = 0xFFFFFFFF := by decide
  have hmem : (0xB1171 : UInt32) ∈ targets (vga.fillRect 1 0 0xFFFFFFFF 1 15) :=
    mem_fillRect (i := 0) (j := 70000) (k := 0) hv (by decide) (by decide)
      (by rw [hclip]; decide) (by decide)
  have hbehind : ¬ vga.PixelByte 0xB1171 := by
    rintro ⟨x, y, hon, k, hk, heq⟩
    have hlt := offset_lt he hon hk
    have htotal := he.total
    rw [pixelAddress_add] at heq
    have hsame : UInt32.ofNat (vga.offset x y k) = 70001 := by
      have hbase : vga.pixels + 70001 = 0xB1171 := by decide
      grind
    have hoff := congrArg UInt32.toNat hsame
    rw [UInt32.toNat_ofNat', Nat.mod_eq_of_lt (by omega)] at hoff
    have hsize : vga.pitch.toNat * vga.height.toNat = 64000 := by decide
    change vga.offset x y k = 70001 at hoff
    omega
  refine ⟨write_eq_of_forall _ hmem fun w hw => ?_,
    write_of_notMem _ fun hdraw => hbehind (pixelByte_of_mem hv hdraw), hbehind⟩
  obtain ⟨k, hk, rfl⟩ := value_of_mem_fillRect hv hw
  obtain rfl : k = 0 := Nat.lt_one_iff.mp hk
  decide

end Surface

end MyOS.Graphics
