import Mathlib.Data.Fintype.Pi
import Mathlib.Data.List.Basic
import Mathlib.Data.Nat.Notation

/-!
# Fixed-size byte buffers and little-endian words

`Bytes n` is a buffer of `n` bytes, read at a natural index by `Bytes.get` (zero past the end), and
`Bytes.splice` is `memcpy` into it at an offset. `le32` and `leByte` read and write a little-endian
word, and `le32_of_leByte` is their round trip. `slice f off len` is the byte list `f off, …, f (off
+ len - 1)`, the shape in which file contents are read and compared.
-/

/-- A buffer of `n` bytes. -/
abbrev Bytes (n : ℕ) := Fin n → UInt8

namespace Bytes

variable {n : ℕ}

/-- The byte at index `i`, zero past the end of the buffer. -/
def get (b : Bytes n) (i : ℕ) : UInt8 := if h : i < n then b ⟨i, h⟩ else 0

/-- The buffer holding `f 0, …, f (n - 1)`. -/
def ofFun (f : ℕ → UInt8) : Bytes n := fun i => f i

/-- The zeroed buffer (`mem_zero`). -/
def zero : Bytes n := fun _ => 0

/-- `memcpy(b + off, src, len)`: the bytes of `[off, off + len)` come from `src`. -/
def splice (b : Bytes n) (off : ℕ) (src : ℕ → UInt8) (len : ℕ) : Bytes n :=
  fun i => if off ≤ i.val ∧ i.val < off + len then src (i.val - off) else b i

variable {i : ℕ}

theorem get_of_lt (b : Bytes n) (h : i < n) : get b i = b ⟨i, h⟩ := dif_pos h

@[simp] theorem get_ofFun {f : ℕ → UInt8} (h : i < n) : get (ofFun f : Bytes n) i = f i := dif_pos h

@[simp] theorem get_zero (i : ℕ) : get (zero : Bytes n) i = 0 := by
  unfold get zero; split <;> rfl

theorem get_splice (b : Bytes n) (off : ℕ) (src : ℕ → UInt8) (len : ℕ) (h : i < n) :
    get (splice b off src len) i = if off ≤ i ∧ i < off + len then src (i - off) else get b i := by
  rw [get_of_lt _ h, get_of_lt _ h]; rfl

/-- Bytes outside the copied range keep their value. -/
theorem get_splice_of_not_mem (b : Bytes n) {off : ℕ} (src : ℕ → UInt8) {len : ℕ}
    (h : ¬ (off ≤ i ∧ i < off + len)) : get (splice b off src len) i = get b i := by
  by_cases hi : i < n
  · rw [get_splice b off src len hi, if_neg h]
  · unfold get; rw [dif_neg hi, dif_neg hi]

/-- Bytes inside the copied range come from the source. -/
theorem get_splice_of_mem (b : Bytes n) {off : ℕ} (src : ℕ → UInt8) {len : ℕ} (hn : off + len ≤ n)
    (h₁ : off ≤ i) (h₂ : i < off + len) :
    get (splice b off src len) i = src (i - off) := by
  rw [get_splice b off src len (by omega), if_pos ⟨h₁, h₂⟩]

/-- Two buffers with the same bytes are equal. -/
theorem ext_get {a b : Bytes n} (h : ∀ i < n, get a i = get b i) : a = b := by
  funext i
  have hi := h i.val i.isLt
  rwa [get_of_lt _ i.isLt, get_of_lt _ i.isLt] at hi

end Bytes

/-! ### Little-endian words -/

/-- The `k`-th byte of a 32-bit word in little-endian order. -/
def leByte (v : UInt32) (k : ℕ) : UInt8 := UInt8.ofNat (v.toNat / 256 ^ k)

/-- The 32-bit little-endian word at offset `off`. -/
def le32 (f : ℕ → UInt8) (off : ℕ) : UInt32 :=
  UInt32.ofNat ((f off).toNat + 256 * (f (off + 1)).toNat + 65536 * (f (off + 2)).toNat
    + 16777216 * (f (off + 3)).toNat)

/-- The 16-bit little-endian word at offset `off`. -/
def le16 (f : ℕ → UInt8) (off : ℕ) : UInt16 :=
  UInt16.ofNat ((f off).toNat + 256 * (f (off + 1)).toNat)

variable {f g : ℕ → UInt8} {off off' len : ℕ}

/-- **Word round trip.** Four bytes that are those of `v` read back as `v`. -/
theorem le32_of_leByte {v : UInt32} (h : ∀ k < 4, f (off + k) = leByte v k) : le32 f off = v := by
  have h0 : f off = leByte v 0 := h 0 (by omega)
  have h1 := h 1 (by omega)
  have h2 := h 2 (by omega)
  have h3 := h 3 (by omega)
  have hv : v.toNat < 4294967296 := v.toNat_lt
  -- the digits of `v` in base 256 sum up to `v`
  apply UInt32.toNat_inj.mp
  simp only [le32, h0, h1, h2, h3, leByte, UInt32.toNat_ofNat', UInt8.toNat_ofNat', pow_zero,
    Nat.div_one, pow_one]
  omega

/-- The same round trip for a 16-bit word, given by the two low bytes of a 32-bit one. -/
theorem le16_of_leByte {v : UInt16} (h₀ : f off = UInt8.ofNat v.toNat)
    (h₁ : f (off + 1) = UInt8.ofNat (v.toNat / 256)) :
    le16 f off = v := by
  have hv : v.toNat < 65536 := v.toNat_lt
  apply UInt16.toNat_inj.mp
  simp only [le16, h₀, h₁, UInt16.toNat_ofNat', UInt8.toNat_ofNat']
  omega

/-- A word depends on its four bytes only. -/
theorem le32_congr (h : ∀ k < 4, f (off + k) = g (off' + k)) : le32 f off = le32 g off' := by
  have h0 : f off = g off' := h 0 (by omega)
  unfold le32
  rw [h0, h 1 (by omega), h 2 (by omega), h 3 (by omega)]

theorem le16_congr (h : ∀ k < 2, f (off + k) = g (off' + k)) : le16 f off = le16 g off' := by
  have h0 : f off = g off' := h 0 (by omega)
  unfold le16
  rw [h0, h 1 (by omega)]

/-! ### Byte lists -/

/-- The bytes `f off, …, f (off + len - 1)`. -/
def slice (f : ℕ → UInt8) (off len : ℕ) : List UInt8 := (List.range len).map (fun k => f (off + k))

@[simp] theorem length_slice (f : ℕ → UInt8) (off len : ℕ) : (slice f off len).length = len := by
  simp [slice]

/-- Slices concatenate. -/
theorem slice_append (f : ℕ → UInt8) (off a b : ℕ) :
    slice f off a ++ slice f (off + a) b = slice f off (a + b) := by
  unfold slice
  rw [List.range_add, List.map_append, List.map_map]
  congr 1
  refine List.map_congr_left (fun k _ => ?_)
  rw [Function.comp_apply, Nat.add_assoc]

theorem slice_congr (h : ∀ k < len, f (off + k) = g (off' + k)) :
    slice f off len = slice g off' len :=
  List.map_congr_left (fun k hk => h k (List.mem_range.mp hk))

/-- A slice of a list, read through `getD`, is the list's own sublist. -/
theorem slice_getD (l : List UInt8) (h : off + len ≤ l.length) :
    slice (fun k => l.getD k 0) off len = (l.drop off).take len := by
  apply List.ext_getElem
  · simp; omega
  · intro i h₁ h₂
    have hi : i < len := by simpa using h₁
    have hlt : off + i < l.length := by omega
    simp [slice, List.getD_eq_getElem?_getD, hlt]

theorem slice_getD_self (l : List UInt8) : slice (fun k => l.getD k 0) 0 l.length = l := by
  rw [slice_getD l (by omega)]; simp

/-- A slice within another one that begins at zero. -/
theorem slice_eq_take_drop (f : ℕ → UInt8) {n : ℕ} (h : off + len ≤ n) :
    slice f off len = ((slice f 0 n).drop off).take len := by
  obtain ⟨rest, rfl⟩ := Nat.exists_eq_add_of_le h
  rw [← slice_append, ← slice_append, Nat.zero_add, List.append_assoc,
    List.drop_left' (length_slice f 0 off), List.take_left' (length_slice f off len)]
