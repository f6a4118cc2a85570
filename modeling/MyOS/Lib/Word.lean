import Mathlib.Data.Nat.Notation
import Mathlib.Algebra.Order.Group.Nat
import Mathlib.Tactic.Ring

/-!
# Masks on words

The C idioms `x & ~(2^k - 1)`, `(x + 2^k - 1) & ~(2^k - 1)` and `address | flags` on 32-bit words,
as arithmetic on the natural numbers the words stand for, and the test of a word of any width
against a one-bit mask (`and_mask_ne_zero`).
-/

namespace Word

variable {x a f m : UInt32} {k : ℕ}

theorem toNat_add_ofNat {n : ℕ} (h : a.toNat + n < 2 ^ 32) :
    (a + UInt32.ofNat n).toNat = a.toNat + n := by
  rw [UInt32.toNat_add, UInt32.toNat_ofNat_of_lt' (by unfold UInt32.size; omega),
    Nat.mod_eq_of_lt h]

theorem toNat_ofNat_mul {n : ℕ} (h : n * a.toNat < 2 ^ 32) :
    (UInt32.ofNat n * a).toNat = n * a.toNat := by
  rw [UInt32.toNat_mul, UInt32.toNat_ofNat', Nat.mod_mul_mod, Nat.mod_eq_of_lt h]

/-- Testing a word against a mask whose only bit is `i` reads that bit. -/
theorem and_mask_ne_zero {w i : ℕ} {m : BitVec w} (hi : i < w)
    (hm : ∀ j < w, m.getLsbD j = decide (i = j)) (b : BitVec w) :
    b &&& m ≠ 0 ↔ b.getLsbD i = true := by
  constructor
  · intro h
    by_contra hb
    -- with bit `i` clear the conjunction is zero bit by bit
    refine h (BitVec.eq_of_getLsbD_eq fun j hj => ?_)
    rw [BitVec.getLsbD_and, hm j hj]
    by_cases hij : i = j
    · subst hij; simpa using hb
    · simp [hij]
  · intro h h0
    have h' := congrArg (fun v => BitVec.getLsbD v i) h0
    simp only [BitVec.getLsbD_and, hm i hi, h] at h'
    simp at h'

/-- A word whose bits are those of `x` from position `k` on. -/
theorem toNat_and_not_mask (x : UInt32) (hm : m.toNat = 2 ^ k - 1) :
    (x &&& ~~~ m).toNat = x.toNat / 2 ^ k * 2 ^ k := by
  have hx : x.toNat < 2 ^ 32 := x.toNat_lt
  apply Nat.eq_of_testBit_eq
  intro i
  rw [UInt32.toNat_and, Nat.testBit_and, Nat.testBit_mul_two_pow, Nat.testBit_div_two_pow]
  by_cases hi : i < 32
  · -- inside the word, the complement of the mask has the bits from `k` on
    have hnot : (~~~ m).toNat.testBit i = !m.toNat.testBit i := by
      change (~~~ m.toBitVec).getLsbD i = !m.toBitVec.getLsbD i
      rw [BitVec.getLsbD_not]
      simp [hi]
    rw [hnot, hm, Nat.testBit_two_pow_sub_one]
    by_cases hki : k ≤ i
    · simp [hki, Nat.not_lt.mpr hki, Nat.sub_add_cancel hki]
    · simp [hki, Nat.lt_of_not_le hki]
  · have hfalse : x.toNat.testBit i = false :=
      Nat.testBit_lt_two_pow (lt_of_lt_of_le hx (Nat.pow_le_pow_right (by decide) (by omega)))
    by_cases hki : k ≤ i
    · simp [hfalse, Nat.sub_add_cancel hki]
    · simp [hfalse, hki]

/-- Keeping the low bits is the remainder. -/
theorem toNat_and_mask (x : UInt32) (hm : m.toNat = 2 ^ k - 1) :
    (x &&& m).toNat = x.toNat % 2 ^ k := by
  rw [UInt32.toNat_and, hm, Nat.and_two_pow_sub_one_eq_mod]

/-- `(value + alignment - 1) & ~(alignment - 1)`. -/
def alignUp (value alignment : UInt32) : UInt32 :=
  (value + alignment - 1) &&& ~~~ (alignment - 1)

/-- Rounding up, when the intermediate sum fits. -/
theorem alignUp_toNat (x : UInt32) (ha : a.toNat = 2 ^ k) (hfit : x.toNat + 2 ^ k ≤ 2 ^ 32) :
    (alignUp x a).toNat = (x.toNat + (2 ^ k - 1)) / 2 ^ k * 2 ^ k := by
  have hpos : 0 < 2 ^ k := Nat.two_pow_pos k
  have hone : (1 : UInt32).toNat = 1 := rfl
  have hk : 2 ^ k < 2 ^ 32 := ha ▸ a.toNat_lt
  have hmask : (a - 1).toNat = 2 ^ k - 1 := by
    rw [UInt32.toNat_sub, ha, hone]
    generalize 2 ^ k = M at *
    omega
  have hsum : (x + a - 1).toNat = x.toNat + (2 ^ k - 1) := by
    rw [UInt32.toNat_sub, UInt32.toNat_add, ha, hone]
    generalize 2 ^ k = M at *
    omega
  rw [alignUp, toNat_and_not_mask _ hmask, hsum]

/-- Rounding up gives a multiple of the alignment, also when the sum wraps. -/
theorem alignUp_mod (x : UInt32) (hm : (a - 1).toNat = 2 ^ k - 1) :
    (alignUp x a).toNat % 2 ^ k = 0 := by
  unfold alignUp
  rw [toNat_and_not_mask _ hm]
  exact Nat.mul_mod_left _ _

/-- The low bits of a multiple are free for a smaller word. -/
theorem toNat_or_of_aligned (ha : a.toNat % 2 ^ k = 0) (hf : f.toNat < 2 ^ k) :
    (a ||| f).toNat = a.toNat + f.toNat := by
  have hdiv : a.toNat = 2 ^ k * (a.toNat / 2 ^ k) := by
    have := Nat.div_add_mod a.toNat (2 ^ k)
    omega
  rw [UInt32.toNat_or, hdiv, ← Nat.two_pow_add_eq_or_of_lt hf]

end Word
