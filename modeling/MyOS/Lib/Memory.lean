import MyOS.Lib.Bytes
import Mathlib.Logic.Function.Basic
import Mathlib.Data.Set.Function

/-!
# Byte-addressed memory

A memory holds a byte at every address. `load32` and `store32` access a little-endian word: it reads
back what was stored there (`load32_store32_self`), and an access elsewhere does not see the store
(`load32_store32_of_disjoint`, `store32_of_not_mem`). Anything read inside a set of addresses
survives a change outside of it (`load32_congr`). Loops that fill an array are `storeWords` and
`storeBytes`.
-/

/-- A memory. -/
@[ext] structure Mem where
  /-- The byte at an address. -/
  byte : ℕ → UInt8

namespace Mem

instance : CoeFun Mem fun _ => ℕ → UInt8 := ⟨byte⟩

variable {m m' : Mem} {a b k : ℕ} {v : UInt32}

/-- The word at address `a`. -/
def load32 (m : Mem) (a : ℕ) : UInt32 := le32 m.byte a

/-- The word at address `a` becomes `v`. -/
def store32 (m : Mem) (a : ℕ) (v : UInt32) : Mem :=
  ⟨fun k => if a ≤ k ∧ k < a + 4 then leByte v (k - a) else m k⟩

/-- The byte at address `a` becomes `v`. -/
def store8 (m : Mem) (a : ℕ) (v : UInt8) : Mem := ⟨Function.update m.byte a v⟩

theorem store32_of_not_mem (m : Mem) (v : UInt32) (h : k < a ∨ a + 4 ≤ k) :
    store32 m a v k = m k := if_neg (by omega)

theorem store8_self (m : Mem) (a : ℕ) (v : UInt8) : store8 m a v a = v := Function.update_self ..

theorem store8_of_ne (m : Mem) (v : UInt8) (h : k ≠ a) : store8 m a v k = m k :=
  Function.update_of_ne h ..

theorem load32_congr (h : ∀ k < 4, m (a + k) = m' (b + k)) : load32 m a = load32 m' b :=
  le32_congr h

@[simp] theorem load32_store32_self (m : Mem) (a : ℕ) (v : UInt32) :
    load32 (store32 m a v) a = v := by
  refine le32_of_leByte fun k hk => ?_
  refine (if_pos (by omega)).trans ?_
  rw [Nat.add_sub_cancel_left]

theorem load32_store32_of_disjoint (m : Mem) (v : UInt32) (h : a + 4 ≤ b ∨ b + 4 ≤ a) :
    load32 (store32 m a v) b = load32 m b :=
  load32_congr fun k hk => store32_of_not_mem m v (by omega)

theorem load32_store8_of_disjoint (m : Mem) (v : UInt8) (h : a < b ∨ b + 4 ≤ a) :
    load32 (store8 m a v) b = load32 m b :=
  load32_congr fun k hk => store8_of_ne m v (by omega)

/-- Aligned words at different addresses do not overlap. -/
theorem load32_store32_of_ne (m : Mem) (v : UInt32) (ha : a % 4 = 0) (hb : b % 4 = 0)
    (h : a ≠ b) : load32 (store32 m a v) b = load32 m b :=
  load32_store32_of_disjoint m v (by omega)

/-! ### Arrays -/

section Arrays

variable {n i : ℕ} {f : ℕ → UInt32} {g : ℕ → UInt8}

/-- The loop `for (i = 0; i < n; i++) a[i] = f(i)` over words. -/
def storeWords (m : Mem) (a n : ℕ) (f : ℕ → UInt32) : Mem :=
  ⟨fun k => if a ≤ k ∧ k < a + 4 * n then leByte (f ((k - a) / 4)) ((k - a) % 4) else m k⟩

/-- The loop `for (i = 0; i < n; i++) a[i] = g(i)` over bytes. -/
def storeBytes (m : Mem) (a n : ℕ) (g : ℕ → UInt8) : Mem :=
  ⟨fun k => if a ≤ k ∧ k < a + n then g (k - a) else m k⟩

theorem storeWords_zero (m : Mem) (a : ℕ) (f : ℕ → UInt32) : storeWords m a 0 f = m := by
  apply Mem.ext
  funext k
  exact if_neg (by omega)

/-- One round of the loop. -/
theorem storeWords_succ (m : Mem) (a n : ℕ) (f : ℕ → UInt32) :
    storeWords m a (n + 1) f = store32 (storeWords m a n f) (a + 4 * n) (f n) := by
  apply Mem.ext
  funext k
  simp only [storeWords, store32]
  by_cases hlast : a + 4 * n ≤ k ∧ k < a + 4 * n + 4
  · rw [if_pos hlast, if_pos (by omega), show (k - a) / 4 = n by omega,
      show (k - a) % 4 = k - (a + 4 * n) by omega]
  · rw [if_neg hlast]
    by_cases hin : a ≤ k ∧ k < a + 4 * n
    · rw [if_pos hin, if_pos (by omega)]
    · rw [if_neg hin, if_neg (by omega)]

theorem storeWords_of_not_mem (m : Mem) (f : ℕ → UInt32) (h : k < a ∨ a + 4 * n ≤ k) :
    storeWords m a n f k = m k := if_neg (by omega)

theorem load32_storeWords (m : Mem) (f : ℕ → UInt32) (hi : i < n) :
    load32 (storeWords m a n f) (a + 4 * i) = f i := by
  refine le32_of_leByte fun k hk => ?_
  refine (if_pos (by omega)).trans ?_
  rw [show (a + 4 * i + k - a) / 4 = i by omega, show (a + 4 * i + k - a) % 4 = k by omega]

theorem load32_storeWords_of_disjoint (m : Mem) (f : ℕ → UInt32) (h : b + 4 ≤ a ∨ a + 4 * n ≤ b) :
    load32 (storeWords m a n f) b = load32 m b :=
  load32_congr fun k hk => storeWords_of_not_mem m f (by omega)

theorem storeBytes_of_not_mem (m : Mem) (g : ℕ → UInt8) (h : k < a ∨ a + n ≤ k) :
    storeBytes m a n g k = m k := if_neg (by omega)

theorem storeBytes_of_mem (m : Mem) (g : ℕ → UInt8) (hi : i < n) :
    storeBytes m a n g (a + i) = g i := by
  refine (if_pos (by omega)).trans ?_
  rw [Nat.add_sub_cancel_left]

end Arrays

end Mem
