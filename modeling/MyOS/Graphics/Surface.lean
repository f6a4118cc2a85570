import MyOS.Graphics.Color
import MyOS.Lib.Bytes
import MyOS.Lib.Stores

/-!
# Surfaces in memory

`graphics_put_pixel`, `graphics_get_pixel` and `graphics_fill_rect` of `graphics.c` down to the
bytes. Addresses are 32-bit words and every sum and product wraps as in the source; a function that
draws is the list of its stores, in order.

A surface is `Exact` when the bytes of its rows do not wrap: a row fits in the pitch and all of them
in 32 bits. Then the bytes of different pixels are apart (`pixelByte_inj`), and a drawn pixel holds
its colour while the others keep theirs (`getPixel_write_drawEach`).
-/

namespace MyOS.Graphics

open Gui (paletteColor colorToRgb565 PixelFormat)
open Stores

/-- The memory of a 32-bit address space. -/
abbrev Memory := UInt32 → UInt8

/-! ### Words of some bytes -/

/-- The stores of the low `n` bytes of a value, the lowest one first. -/
def storeLe (a v : UInt32) (n : ℕ) : List (UInt32 × UInt8) :=
  (List.range n).map fun k => (a + UInt32.ofNat k, leByte v k)

/-- The value of the `n` bytes at an address. -/
def loadLe (m : Memory) (a : UInt32) : ℕ → ℕ
  | 0 => 0
  | n + 1 => loadLe m a n + (m (a + UInt32.ofNat n)).toNat * 256 ^ n

theorem mem_storeLe {a v b : UInt32} {n : ℕ} {w : UInt8} :
    (b, w) ∈ storeLe a v n ↔ ∃ k < n, b = a + UInt32.ofNat k ∧ w = leByte v k := by
  unfold storeLe
  rw [List.mem_map]
  constructor
  · rintro ⟨k, hk, heq⟩
    cases heq
    exact ⟨k, List.mem_range.mp hk, rfl, rfl⟩
  · rintro ⟨k, hk, rfl, rfl⟩
    exact ⟨k, List.mem_range.mpr hk, rfl⟩

/-- Bytes that are those of a value read back as its low bytes. -/
theorem loadLe_eq {m : Memory} {a v : UInt32} {n : ℕ}
    (h : ∀ k < n, m (a + UInt32.ofNat k) = leByte v k) : loadLe m a n = v.toNat % 256 ^ n := by
  induction n with
  | zero => rw [pow_zero, Nat.mod_one]; rfl
  | succ n ih =>
    have hbyte : (leByte v n).toNat = v.toNat / 256 ^ n % 256 := by
      unfold leByte
      rw [UInt8.toNat_ofNat']
    unfold loadLe
    rw [ih fun k hk => h k (by omega), h n (by omega), hbyte, pow_succ, Nat.mod_mul, Nat.mul_comm]

theorem loadLe_congr {m m' : Memory} {a : UInt32} {n : ℕ}
    (h : ∀ k < n, m (a + UInt32.ofNat k) = m' (a + UInt32.ofNat k)) :
    loadLe m a n = loadLe m' a n := by
  induction n with
  | zero => rfl
  | succ n ih =>
    unfold loadLe
    rw [ih fun k hk => h k (by omega), h n (by omega)]

/-! ### The functions -/

/-- `struct graphics_surface`, without the field `format` that none of the functions here reads. -/
structure Surface where
  pixels : UInt32
  width : UInt32
  height : UInt32
  pitch : UInt32
  bitsPerPixel : UInt32
deriving DecidableEq, Repr

namespace Surface

/-- `(surface->bits_per_pixel + 7) / 8`. -/
def bytesPerPixel (s : Surface) : UInt32 := (s.bitsPerPixel + 7) / 8

/-- `graphics_surface_is_valid`. -/
def IsValid (s : Surface) : Prop :=
  s.pixels ≠ 0 ∧ s.width ≠ 0 ∧ s.height ≠ 0 ∧ s.width * s.bytesPerPixel ≤ s.pitch ∧
    (s.bitsPerPixel = 8 ∨ s.bitsPerPixel = 16 ∨ s.bitsPerPixel = 24 ∨ s.bitsPerPixel = 32)

instance (s : Surface) : Decidable s.IsValid := by unfold IsValid; infer_instance

/-- The address of a pixel. -/
def pixelAddress (s : Surface) (x y : UInt32) : UInt32 :=
  s.pixels + y * s.pitch + x * s.bytesPerPixel

/-- `graphics_put_pixel`. -/
def putPixel (s : Surface) (x y color : UInt32) : List (UInt32 × UInt8) :=
  if ¬ s.IsValid ∨ x ≥ s.width ∨ y ≥ s.height then []
  else if s.bitsPerPixel = 32 then storeLe (s.pixelAddress x y) (paletteColor color) 4
  else if s.bitsPerPixel = 24 then storeLe (s.pixelAddress x y) (paletteColor color) 3
  else if s.bitsPerPixel = 16 then storeLe (s.pixelAddress x y) (colorToRgb565 color) 2
  else storeLe (s.pixelAddress x y) color 1

/-- `graphics_get_pixel`. -/
def getPixel (s : Surface) (m : Memory) (x y : UInt32) : UInt32 :=
  if ¬ s.IsValid ∨ x ≥ s.width ∨ y ≥ s.height then 0
  else if s.bitsPerPixel = 32 then UInt32.ofNat (loadLe m (s.pixelAddress x y) 4)
  else if s.bitsPerPixel = 24 then UInt32.ofNat (loadLe m (s.pixelAddress x y) 3)
  else if s.bitsPerPixel = 16 then UInt32.ofNat (loadLe m (s.pixelAddress x y) 2)
  else UInt32.ofNat (loadLe m (s.pixelAddress x y) 1)

/-- The loop over the columns in `graphics_fill_rect`, with one branch for each depth. -/
def fillRow (s : Surface) (pixel width color : UInt32) : List (UInt32 × UInt8) :=
  (List.range width.toNat).flatMap fun col =>
    if s.bitsPerPixel = 32 then storeLe (pixel + UInt32.ofNat col * 4) (paletteColor color) 4
    else if s.bitsPerPixel = 16 then
      storeLe (pixel + UInt32.ofNat col * 2) (colorToRgb565 color) 2
    else if s.bitsPerPixel = 8 then storeLe (pixel + UInt32.ofNat col) color 1
    else storeLe (pixel + UInt32.ofNat col * 3) (paletteColor color) 3

/-- A side of the rectangle of `graphics_fill_rect`, cut off at the edge of the surface. -/
def clipSide (start length bound : UInt32) : UInt32 :=
  if start + length > bound then bound - start else length

/-- `graphics_fill_rect`. -/
def fillRect (s : Surface) (x y width height color : UInt32) : List (UInt32 × UInt8) :=
  if ¬ s.IsValid ∨ x ≥ s.width ∨ y ≥ s.height then []
  else
    let width := clipSide x width s.width
    let height := clipSide y height s.height
    (List.range height.toNat).flatMap fun row =>
      s.fillRow (s.pixels + (y + UInt32.ofNat row) * s.pitch + x * s.bytesPerPixel) width color

/-! ### One pixel -/

/-- The value whose low bytes stand for a colour. -/
def encode (s : Surface) (color : UInt32) : UInt32 :=
  if s.bitsPerPixel = 32 ∨ s.bitsPerPixel = 24 then paletteColor color
  else if s.bitsPerPixel = 16 then colorToRgb565 color
  else color

/-- The pixel is one of the surface. -/
def Has (s : Surface) (x y : UInt32) : Prop := x.toNat < s.width.toNat ∧ y.toNat < s.height.toNat

instance (s : Surface) (x y : UInt32) : Decidable (s.Has x y) := by unfold Has; infer_instance

variable {s : Surface} {x y x' y' color : UInt32}

theorem not_skipped (hv : s.IsValid) (h : s.Has x y) :
    ¬ (¬ s.IsValid ∨ x ≥ s.width ∨ y ≥ s.height) := by
  rw [ge_iff_le, ge_iff_le, UInt32.le_iff_toNat_le, UInt32.le_iff_toNat_le]
  have := h.1
  have := h.2
  rintro (hn | hx | hy)
  · exact hn hv
  · omega
  · omega

theorem skipped (h : ¬ s.Has x y) : ¬ s.IsValid ∨ x ≥ s.width ∨ y ≥ s.height := by
  rw [ge_iff_le, ge_iff_le, UInt32.le_iff_toNat_le, UInt32.le_iff_toNat_le]
  unfold Has at h
  exact .inr (by omega)

/-- The four depths. -/
theorem bytesPerPixel_cases (hv : s.IsValid) :
    (s.bitsPerPixel = 8 ∧ s.bytesPerPixel = 1) ∨ (s.bitsPerPixel = 16 ∧ s.bytesPerPixel = 2) ∨
    (s.bitsPerPixel = 24 ∧ s.bytesPerPixel = 3) ∨ (s.bitsPerPixel = 32 ∧ s.bytesPerPixel = 4) := by
  unfold bytesPerPixel
  rcases hv.2.2.2.2 with h | h | h | h <;> rw [h] <;> decide

theorem bytesPerPixel_pos (hv : s.IsValid) : 0 < s.bytesPerPixel.toNat := by
  rcases bytesPerPixel_cases hv with ⟨-, h⟩ | ⟨-, h⟩ | ⟨-, h⟩ | ⟨-, h⟩ <;> rw [h] <;> decide

/-- **What `graphics_put_pixel` stores**, in one formula for all depths. -/
theorem putPixel_eq (hv : s.IsValid) (h : s.Has x y) : s.putPixel x y color
      = storeLe (s.pixelAddress x y) (s.encode color) s.bytesPerPixel.toNat := by
  unfold putPixel encode
  rw [if_neg (not_skipped hv h)]
  rcases bytesPerPixel_cases hv with ⟨hb, hn⟩ | ⟨hb, hn⟩ | ⟨hb, hn⟩ | ⟨hb, hn⟩ <;>
    rw [hb, hn] <;> rfl

theorem putPixel_of_not_has (h : ¬ s.Has x y) : s.putPixel x y color = [] := if_pos (skipped h)

/-- What `graphics_get_pixel` loads. -/
theorem getPixel_eq (hv : s.IsValid) (h : s.Has x y) (m : Memory) : s.getPixel m x y
      = UInt32.ofNat (loadLe m (s.pixelAddress x y) s.bytesPerPixel.toNat) := by
  unfold getPixel
  rw [if_neg (not_skipped hv h)]
  rcases bytesPerPixel_cases hv with ⟨hb, hn⟩ | ⟨hb, hn⟩ | ⟨hb, hn⟩ | ⟨hb, hn⟩ <;>
    rw [hb, hn] <;> rfl

/-! ### The bytes of a surface -/

/-- The rows of the surface do not wrap: a row fits in the pitch, and all rows in 32 bits. -/
structure Exact (s : Surface) : Prop where
  row : s.width.toNat * s.bytesPerPixel.toNat ≤ s.pitch.toNat
  total : s.pitch.toNat * s.height.toNat < 2 ^ 32

/-- The place of a byte of a pixel, counted from the first one of the surface. -/
def offset (s : Surface) (x y : UInt32) (k : ℕ) : ℕ :=
  y.toNat * s.pitch.toNat + x.toNat * s.bytesPerPixel.toNat + k

theorem pixelAddress_add (s : Surface) (x y : UInt32) (k : ℕ) :
    s.pixelAddress x y + UInt32.ofNat k = s.pixels + UInt32.ofNat (s.offset x y k) := by
  unfold pixelAddress offset
  rw [UInt32.ofNat_add, UInt32.ofNat_add, UInt32.ofNat_mul, UInt32.ofNat_mul]
  simp only [UInt32.ofNat_toNat]
  grind

section Exact

variable {k k' : ℕ}

/-- A byte of a row. -/
theorem column_lt (he : s.Exact) (h : s.Has x y) (hk : k < s.bytesPerPixel.toNat) :
    x.toNat * s.bytesPerPixel.toNat + k < s.pitch.toNat := by
  have hrow := he.row
  have hx : (x.toNat + 1) * s.bytesPerPixel.toNat ≤ s.width.toNat * s.bytesPerPixel.toNat :=
    Nat.mul_le_mul_right _ h.1
  rw [Nat.add_mul, Nat.one_mul] at hx
  omega

theorem offset_lt (he : s.Exact) (h : s.Has x y) (hk : k < s.bytesPerPixel.toNat) :
    s.offset x y k < s.pitch.toNat * s.height.toNat := by
  have hcol := column_lt he h hk
  have hy : (y.toNat + 1) * s.pitch.toNat ≤ s.height.toNat * s.pitch.toNat :=
    Nat.mul_le_mul_right _ h.2
  rw [Nat.add_mul, Nat.one_mul, Nat.mul_comm s.height.toNat] at hy
  unfold offset
  omega

theorem mul_add_inj {p a a' r r' : ℕ} (hr : r < p) (hr' : r' < p)
    (h : a * p + r = a' * p + r') : a = a' ∧ r = r' := by
  have hdiv : (a * p + r) / p = (a' * p + r') / p := by rw [h]
  rw [Nat.add_comm, Nat.add_mul_div_right _ _ (by omega), Nat.div_eq_of_lt hr,
    Nat.add_comm (a' * p), Nat.add_mul_div_right _ _ (by omega), Nat.div_eq_of_lt hr', Nat.zero_add,
    Nat.zero_add] at hdiv
  subst hdiv
  exact ⟨rfl, Nat.add_left_cancel h⟩

/-- **The bytes of the pixels are all different.** -/
theorem pixelByte_inj (he : s.Exact) (h : s.Has x y) (h' : s.Has x' y')
    (hk : k < s.bytesPerPixel.toNat) (hk' : k' < s.bytesPerPixel.toNat)
    (heq : s.pixelAddress x y + UInt32.ofNat k = s.pixelAddress x' y' + UInt32.ofNat k') :
    x = x' ∧ y = y' ∧ k = k' := by
  have htotal := he.total
  have hlt := offset_lt he h hk
  have hlt' := offset_lt he h' hk'
  rw [pixelAddress_add, pixelAddress_add] at heq
  have hoff : s.offset x y k = s.offset x' y' k' := by
    have hsame : UInt32.ofNat (s.offset x y k) = UInt32.ofNat (s.offset x' y' k') := by grind
    have := congrArg UInt32.toNat hsame
    rwa [UInt32.toNat_ofNat', UInt32.toNat_ofNat', Nat.mod_eq_of_lt (by omega),
      Nat.mod_eq_of_lt (by omega)] at this
  -- the row is the quotient by the pitch, and the column the quotient by the size of a pixel
  unfold offset at hoff
  rw [Nat.add_assoc, Nat.add_assoc] at hoff
  obtain ⟨hrow, hrest⟩ := mul_add_inj (column_lt he h hk) (column_lt he h' hk') hoff
  obtain ⟨hcol, hbyte⟩ := mul_add_inj hk hk' hrest
  exact ⟨UInt32.toNat_inj.mp hcol, UInt32.toNat_inj.mp hrow, hbyte⟩

end Exact

/-! ### Drawing pixels -/

/-- The pixel format that goes with the depth. -/
def format (s : Surface) : PixelFormat :=
  if s.bitsPerPixel = 32 then .xrgb8888
  else if s.bitsPerPixel = 24 then .rgb888
  else if s.bitsPerPixel = 16 then .rgb565
  else .indexed8

/-- The low bytes that are stored for a colour are its value in the format. -/
theorem encode_toNat_mod (hv : s.IsValid) (color : UInt32) :
    (s.encode color).toNat % 256 ^ s.bytesPerPixel.toNat = (s.format.encode color).toNat := by
  unfold encode format
  rcases bytesPerPixel_cases hv with ⟨hb, hn⟩ | ⟨hb, hn⟩ | ⟨hb, hn⟩ | ⟨hb, hn⟩ <;> rw [hb, hn]
  · exact (Word.toNat_and_mask color (k := 8) rfl).symm
  · exact Nat.mod_eq_of_lt (toRgb565_lt (paletteColor color))
  · exact (Word.toNat_and_mask (paletteColor color) (k := 24) rfl).symm
  · exact Nat.mod_eq_of_lt (paletteColor color).toNat_lt

/-- A list of pixels is drawn, each in its colour. -/
def drawEach (s : Surface) (points : List (UInt32 × UInt32)) (color : UInt32 → UInt32 → UInt32) :
    List (UInt32 × UInt8) :=
  points.flatMap fun p => s.putPixel p.1 p.2 (color p.1 p.2)

/-- **A drawn pixel holds its colour, and every other pixel what it held before.** -/
theorem getPixel_write_drawEach (hv : s.IsValid) (he : s.Exact) (h : s.Has x y) (m : Memory)
    (points : List (UInt32 × UInt32)) (color : UInt32 → UInt32 → UInt32) :
    s.getPixel (write m (s.drawEach points color)) x y =
      if (x, y) ∈ points then s.format.encode (color x y) else s.getPixel m x y := by
  -- a store to a byte of the pixel is one for the pixel itself
  have hstores : ∀ k < s.bytesPerPixel.toNat, ∀ w,
      (s.pixelAddress x y + UInt32.ofNat k, w) ∈ s.drawEach points color →
      (x, y) ∈ points ∧ w = leByte (s.encode (color x y)) k := by
    intro k hk w hmem
    obtain ⟨⟨x', y'⟩, hp, hmem⟩ := List.mem_flatMap.mp hmem
    by_cases hon : s.Has x' y'
    · rw [putPixel_eq hv hon] at hmem
      obtain ⟨k', hk', heq, rfl⟩ := mem_storeLe.mp hmem
      obtain ⟨rfl, rfl, rfl⟩ := pixelByte_inj he h hon hk hk' heq
      exact ⟨hp, rfl⟩
    · rw [putPixel_of_not_has hon] at hmem
      cases hmem
  by_cases hp : (x, y) ∈ points
  · rw [if_pos hp]
    have hbytes : ∀ k < s.bytesPerPixel.toNat,
        write m (s.drawEach points color) (s.pixelAddress x y + UInt32.ofNat k)
          = leByte (s.encode (color x y)) k := by
      intro k hk
      have hmem : (s.pixelAddress x y + UInt32.ofNat k, leByte (s.encode (color x y)) k)
          ∈ s.drawEach points color := by
        refine List.mem_flatMap.mpr ⟨(x, y), hp, ?_⟩
        rw [putPixel_eq hv h]
        exact mem_storeLe.mpr ⟨k, hk, rfl, rfl⟩
      exact write_eq_of_forall m (mem_targets.mpr ⟨_, hmem⟩) fun w hw => (hstores k hk w hw).2
    have hlt := (s.encode (color x y)).toNat_lt
    have hle := Nat.mod_le (s.encode (color x y)).toNat (256 ^ s.bytesPerPixel.toNat)
    apply UInt32.toNat_inj.mp
    rw [getPixel_eq hv h, loadLe_eq hbytes,
      UInt32.toNat_ofNat_of_lt' (by unfold UInt32.size; omega), encode_toNat_mod hv]
  · rw [if_neg hp, getPixel_eq hv h, getPixel_eq hv h]
    refine congrArg UInt32.ofNat (loadLe_congr fun k hk => write_of_notMem m fun hmem => hp ?_)
    obtain ⟨w, hw⟩ := mem_targets.mp hmem
    exact (hstores k hk w hw).1

end Surface

end MyOS.Graphics
