import MyOS.Lib.Word
import Mathlib.Logic.Function.Basic
import Mathlib.Data.Nat.Bitwise

/-!
# Bitmaps packed in 32-bit words

An array of 32-bit words read as a set of natural numbers, bit `k` being bit `k % 32` of word
`k / 32`. `test`, `set` and `clear` are the three C idioms on it; `test_set` and `test_clear` say
that they are membership, insertion and removal. `setRun` is the loop that sets the bits of a run.
-/

namespace WordBitmap

open Function

/-- `1u << (k % 32)`. -/
def mask (k : ℕ) : UInt32 := 1 <<< UInt32.ofNat (k % 32)

/-- `(words[k / 32] & mask) != 0`. -/
def test (words : ℕ → UInt32) (k : ℕ) : Bool := words (k / 32) &&& mask k != 0

/-- `words[k / 32] |= mask`. -/
def set (words : ℕ → UInt32) (k : ℕ) : ℕ → UInt32 :=
  update words (k / 32) (words (k / 32) ||| mask k)

/-- `words[k / 32] &= ~mask`. -/
def clear (words : ℕ → UInt32) (k : ℕ) : ℕ → UInt32 :=
  update words (k / 32) (words (k / 32) &&& ~~~ mask k)

/-- The loop that sets the bits `first, …, first + n - 1`. -/
def setRun (words : ℕ → UInt32) (first n : ℕ) : ℕ → UInt32 :=
  (List.range n).foldl (fun words i => set words (first + i)) words

/-! ### Single bits of a word -/

theorem mask_testBit (i : ℕ) {j : ℕ} (hj : j < 32) :
    (mask i).toNat.testBit j = decide (i % 32 = j) := by
  have key : ∀ i < 32, ∀ j < 32,
      ((1 : UInt32) <<< UInt32.ofNat i).toNat.testBit j = decide (i = j) := by decide
  exact key (i % 32) (Nat.mod_lt _ (by decide)) j hj

/-- Testing a word against a one-bit mask reads that bit. -/
theorem and_mask_bne_zero (w : UInt32) (k : ℕ) :
    (w &&& mask k != 0) = w.toNat.testBit (k % 32) := by
  apply Bool.eq_iff_iff.mpr
  rw [bne_iff_ne, ne_eq, ← UInt32.toBitVec_inj, UInt32.toBitVec_and]
  exact Word.and_mask_ne_zero (Nat.mod_lt _ (by decide)) (fun j => mask_testBit k) _

/-! ### Membership, insertion, removal -/

/-- A word of ones has every bit. -/
theorem test_ones {words : ℕ → UInt32} {k : ℕ} (h : words (k / 32) = 0xFFFFFFFF) :
    test words k = true := by
  have hk : k % 32 < 32 := Nat.mod_lt _ (by decide)
  unfold test
  rw [and_mask_bne_zero, h]
  change (2 ^ 32 - 1).testBit (k % 32) = true
  rw [Nat.testBit_two_pow_sub_one]
  exact decide_eq_true hk

theorem test_set (words : ℕ → UInt32) (i j : ℕ) :
    test (set words i) j = (test words j || decide (i = j)) := by
  unfold test set
  rw [and_mask_bne_zero, and_mask_bne_zero]
  -- the update is in the word of `i`, where bits differ by their position in the word
  by_cases h : j / 32 = i / 32
  · rw [h, update_self, UInt32.toNat_or, Nat.testBit_or, mask_testBit i (Nat.mod_lt _ (by decide))]
    congr 1
    exact decide_eq_decide.mpr ⟨fun h' => by omega, fun h' => by omega⟩
  · rw [update_of_ne h,
      show decide (i = j) = false from decide_eq_false (fun h' => h (by rw [h'])), Bool.or_false]

theorem test_clear (words : ℕ → UInt32) (i j : ℕ) :
    test (clear words i) j = (test words j && !decide (i = j)) := by
  have hj : j % 32 < 32 := Nat.mod_lt _ (by decide)
  unfold test clear
  rw [and_mask_bne_zero, and_mask_bne_zero]
  by_cases h : j / 32 = i / 32
  · have hnot : (~~~ mask i).toNat.testBit (j % 32) = !(mask i).toNat.testBit (j % 32) := by
      change (~~~ (mask i).toBitVec).getLsbD (j % 32) = !(mask i).toBitVec.getLsbD (j % 32)
      rw [BitVec.getLsbD_not, decide_eq_true hj, Bool.true_and]
    rw [h, update_self, UInt32.toNat_and, Nat.testBit_and, hnot, mask_testBit i hj]
    congr 2
    exact decide_eq_decide.mpr ⟨fun h' => by omega, fun h' => by omega⟩
  · rw [update_of_ne h,
      show decide (i = j) = false from decide_eq_false (fun h' => h (by rw [h']))]
    simp

/-- Setting a run adds its bits. -/
theorem test_setRun (words : ℕ → UInt32) (first n j : ℕ) :
    test (setRun words first n) j = (test words j || decide (first ≤ j ∧ j < first + n)) := by
  unfold setRun
  induction n with
  | zero => simp
  | succ n ih =>
    rw [List.range_succ, List.foldl_append, List.foldl_cons, List.foldl_nil, test_set, ih,
      Bool.or_assoc, ← Bool.decide_or]
    congr 1
    exact decide_eq_decide.mpr ⟨fun h => by omega, fun h => by omega⟩

end WordBitmap
