import MyOS.Lib.Bytes
import MyOS.Lib.Word

/-!
# Bitmaps packed in bytes

A byte buffer read as a set of natural numbers, bit `k` being bit `k % 8` of byte `k / 8`: the
usual allocation bitmap of a block or page allocator.

`testBit`, `setBit` and `clearBit` are the three C idioms on it, and `testBit_setBit` /
`testBit_clearBit` say that they are membership, insertion and removal. `putBits` folds an update
over a list of bits, which is what the allocation and release loops do.
-/

namespace Bitmap

/-- `(uint8_t) (1 << (k % 8))`. -/
def mask (k : ℕ) : UInt8 := 1 <<< UInt8.ofNat (k % 8)

variable {n : ℕ}

/-- `(bits[k / 8] & mask) != 0`. -/
def testBit (b : Bytes n) (k : ℕ) : Bool := b.get (k / 8) &&& mask k != 0

/-- `bits[k / 8] |= mask`. -/
def setBit (b : Bytes n) (k : ℕ) : Bytes n :=
  b.splice (k / 8) (fun _ => b.get (k / 8) ||| mask k) 1

/-- `bits[k / 8] &= ~mask`. -/
def clearBit (b : Bytes n) (k : ℕ) : Bytes n :=
  b.splice (k / 8) (fun _ => b.get (k / 8) &&& ~~~ mask k) 1

/-- Set or clear one bit. -/
def putBit (b : Bytes n) (k : ℕ) (used : Bool) : Bytes n :=
  if used then setBit b k else clearBit b k

/-- Set or clear every bit of a list. -/
def putBits (b : Bytes n) (ks : List ℕ) (used : Bool) : Bytes n :=
  ks.foldl (fun b k => putBit b k used) b

/-! ### Single bits of a byte -/

theorem mask_getLsbD (i : ℕ) {j : ℕ} (hj : j < 8) :
    (mask i).toBitVec.getLsbD j = decide (i % 8 = j) := by
  -- a mask depends on `i % 8` only, which leaves 64 cases
  have key : ∀ i < 8, ∀ j < 8,
      ((1 : UInt8) <<< UInt8.ofNat i).toBitVec.getLsbD j = decide (i = j) := by decide
  exact key (i % 8) (Nat.mod_lt _ (by decide)) j hj

theorem testBit_eq (b : Bytes n) (k : ℕ) :
    testBit b k = (b.get (k / 8)).toBitVec.getLsbD (k % 8) := by
  apply Bool.eq_iff_iff.mpr
  rw [testBit, bne_iff_ne, ne_eq, ← UInt8.toBitVec_inj, UInt8.toBitVec_and]
  exact Word.and_mask_ne_zero (Nat.mod_lt _ (by decide)) (fun j => mask_getLsbD k) _

/-! ### Membership, insertion, removal -/

@[simp] theorem testBit_zero (k : ℕ) : testBit (Bytes.zero : Bytes n) k = false := by
  simp [testBit]

private theorem get_splice_one (b : Bytes n) (i j : ℕ) (v : UInt8) (hi : i < n) :
    (b.splice i (fun _ => v) 1).get j = if j = i then v else b.get j := by
  by_cases hj : j = i
  · subst hj
    rw [if_pos rfl, Bytes.get_splice_of_mem b _ (by omega) (le_refl _) (by omega)]
  · rw [if_neg hj, Bytes.get_splice_of_not_mem b _ (by omega)]

theorem testBit_setBit (b : Bytes n) {i : ℕ} (hi : i < 8 * n) (j : ℕ) :
    testBit (setBit b i) j = (testBit b j || decide (i = j)) := by
  rw [testBit_eq, testBit_eq, setBit, get_splice_one b _ _ _ (by omega)]
  -- the update is in the byte of `i`, where bits differ by their position in the byte
  by_cases h : j / 8 = i / 8
  · rw [if_pos h, UInt8.toBitVec_or, BitVec.getLsbD_or, mask_getLsbD i (Nat.mod_lt _ (by decide)),
      h]
    congr 1
    exact decide_eq_decide.mpr ⟨fun h' => by omega, fun h' => by omega⟩
  · rw [if_neg h, show decide (i = j) = false from decide_eq_false (fun h' => h (by rw [h'])),
      Bool.or_false]

theorem testBit_clearBit (b : Bytes n) {i : ℕ} (hi : i < 8 * n) (j : ℕ) :
    testBit (clearBit b i) j = (testBit b j && !decide (i = j)) := by
  have hj : j % 8 < 8 := Nat.mod_lt _ (by decide)
  rw [testBit_eq, testBit_eq, clearBit, get_splice_one b _ _ _ (by omega)]
  by_cases h : j / 8 = i / 8
  · rw [if_pos h, UInt8.toBitVec_and, UInt8.toBitVec_not, BitVec.getLsbD_and, BitVec.getLsbD_not,
      mask_getLsbD i hj, decide_eq_true hj, Bool.true_and, h]
    congr 2
    exact decide_eq_decide.mpr ⟨fun h' => by omega, fun h' => by omega⟩
  · rw [if_neg h, show decide (i = j) = false from decide_eq_false (fun h' => h (by rw [h']))]
    simp

/-- Setting the bits of a list. -/
theorem testBit_putBits_true {ks : List ℕ} (b : Bytes n) (hks : ∀ k ∈ ks, k < 8 * n) (j : ℕ) :
    testBit (putBits b ks true) j = true ↔ testBit b j = true ∨ j ∈ ks := by
  induction ks generalizing b with
  | nil => simp [putBits]
  | cons k ks ih =>
    have hk : k < 8 * n := hks k List.mem_cons_self
    change testBit (putBits (putBit b k true) ks true) j = true ↔ _
    rw [ih _ (fun k' hk' => hks k' (List.mem_cons_of_mem _ hk')), putBit, if_pos rfl,
      testBit_setBit b hk, List.mem_cons, Bool.or_eq_true, decide_eq_true_eq, or_assoc,
      eq_comm (a := k)]

/-- Clearing the bits of a list. -/
theorem testBit_putBits_false {ks : List ℕ} (b : Bytes n) (hks : ∀ k ∈ ks, k < 8 * n) (j : ℕ) :
    testBit (putBits b ks false) j = true ↔ testBit b j = true ∧ j ∉ ks := by
  induction ks generalizing b with
  | nil => simp [putBits]
  | cons k ks ih =>
    have hk : k < 8 * n := hks k List.mem_cons_self
    change testBit (putBits (putBit b k false) ks false) j = true ↔ _
    rw [ih _ (fun k' hk' => hks k' (List.mem_cons_of_mem _ hk')), putBit,
      if_neg Bool.false_ne_true, testBit_clearBit b hk, List.mem_cons, Bool.and_eq_true,
      Bool.not_eq_true', decide_eq_false_iff_not, not_or, and_assoc, eq_comm (a := k)]

end Bitmap
