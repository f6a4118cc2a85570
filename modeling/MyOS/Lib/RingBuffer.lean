import MyOS.Lib.RoundRobin
import Mathlib.Logic.Function.Basic

/-!
# Ring buffers

A queue in an array of `n` places with two cursors. Equal cursors mean that it is empty, so it holds
at most `n - 1` elements. `RingBuffer.toList` is what it holds, oldest first; `push` appends to that
list while there is room (`toList_push`), and `pop` takes its head off (`pop_cons`, `pop_nil`).
-/

variable {α : Type*} {n : ℕ}

/-- A ring buffer. Elements are written at `head` and read at `tail`. -/
structure RingBuffer (α : Type*) (n : ℕ) where
  buffer : ℕ → α
  head : ℕ
  tail : ℕ
  head_lt : head < n
  tail_lt : tail < n

namespace RingBuffer

open Function List

/-- Append an element, unless the ring is full. -/
def push (r : RingBuffer α n) (a : α) : RingBuffer α n :=
  if (r.head + 1) % n = r.tail then r
  else
    { r with
      buffer := update r.buffer r.head a
      head := (r.head + 1) % n
      head_lt := Nat.mod_lt _ (Nat.zero_lt_of_lt r.head_lt) }

/-- Take the oldest element. -/
def pop (r : RingBuffer α n) : Option α × RingBuffer α n :=
  if r.head = r.tail then (none, r)
  else (some (r.buffer r.tail),
    { r with
      tail := (r.tail + 1) % n
      tail_lt := Nat.mod_lt _ (Nat.zero_lt_of_lt r.tail_lt) })

/-- The number of elements. -/
def count (r : RingBuffer α n) : ℕ :=
  if r.tail ≤ r.head then r.head - r.tail else r.head + n - r.tail

/-- The elements, oldest first. -/
def toList (r : RingBuffer α n) : List α :=
  (List.range r.count).map fun i => r.buffer ((r.tail + i) % n)

@[simp] theorem length_toList (r : RingBuffer α n) : r.toList.length = r.count := by simp [toList]

/-- The successor on the circle. -/
theorem succ_mod {i : ℕ} (hi : i < n) : (i + 1) % n = if i + 1 = n then 0 else i + 1 := by
  by_cases h : i + 1 = n
  · rw [if_pos h, h, Nat.mod_self]
  · rw [if_neg h, Nat.mod_eq_of_lt (by omega)]

/-- The write cursor stands behind the last element. -/
theorem tail_add_count (r : RingBuffer α n) : (r.tail + r.count) % n = r.head := by
  have hh := r.head_lt
  have ht := r.tail_lt
  unfold count
  split
  · rw [Nat.add_sub_cancel' ‹_›, Nat.mod_eq_of_lt hh]
  · rw [show r.tail + (r.head + n - r.tail) = r.head + n by omega, Nat.add_mod_right,
      Nat.mod_eq_of_lt hh]

variable {r : RingBuffer α n}

/-- **An empty ring gives nothing.** -/
theorem pop_nil (h : r.count = 0) : r.pop = (none, r) := by
  have hh := r.head_lt
  have ht := r.tail_lt
  refine if_pos ?_
  unfold count at h
  split at h <;> omega

theorem head_ne_tail (h : r.count ≠ 0) : r.head ≠ r.tail := by
  intro heq
  apply h
  unfold count
  rw [heq, if_pos (le_refl _), Nat.sub_self]

theorem count_pop (h : r.count ≠ 0) : r.pop.2.count + 1 = r.count := by
  have hh := r.head_lt
  have ht := r.tail_lt
  have hne := head_ne_tail h
  unfold pop
  rw [if_neg hne]
  unfold count
  have hsucc := succ_mod ht
  dsimp only
  split at hsucc <;> split <;> split <;> omega

/-- **A ring gives its oldest element** and keeps the others. -/
theorem pop_cons {a : α} {l : List α} (h : r.toList = a :: l) :
    r.pop.1 = some a ∧ r.pop.2.toList = l := by
  have hcount : r.count ≠ 0 := by
    rw [← length_toList, h]
    simp
  have hpop := count_pop hcount
  have hne := head_ne_tail hcount
  -- the list splits at its first place
  have hsplit : r.toList = r.buffer r.tail ::
      (List.range r.pop.2.count).map fun i => r.buffer ((r.tail + (i + 1)) % n) := by
    unfold toList
    rw [← hpop, range_succ_eq_map, map_cons, map_map, Nat.add_zero, Nat.mod_eq_of_lt r.tail_lt]
    rfl
  rw [h] at hsplit
  obtain ⟨rfl, rfl⟩ := List.cons.inj hsplit
  refine ⟨by rw [pop, if_neg hne], map_congr_left fun i _ => ?_⟩
  have hbuffer : r.pop.2.buffer = r.buffer := by rw [pop, if_neg hne]
  have htail : r.pop.2.tail = (r.tail + 1) % n := by rw [pop, if_neg hne]
  rw [hbuffer, htail, Nat.mod_add_mod, Nat.add_assoc, Nat.add_comm 1 i]

/-- What a pop returns is the oldest element, if there is one. -/
theorem pop_fst (r : RingBuffer α n) : r.pop.1 = r.toList.head? := by
  cases h : r.toList with
  | nil =>
    have hcount : r.count = 0 := by rw [← length_toList, h, length_nil]
    rw [pop_nil hcount, List.head?_nil]
  | cons a l => rw [(pop_cons h).1, List.head?_cons]

/-- What a pop leaves is everything but the oldest element. -/
theorem toList_pop (r : RingBuffer α n) : r.pop.2.toList = r.toList.tail := by
  cases h : r.toList with
  | nil =>
    have hcount : r.count = 0 := by rw [← length_toList, h, length_nil]
    rw [pop_nil hcount, h, tail_nil]
  | cons a l => rw [(pop_cons h).2, tail_cons]

/-- There is room for one more element as long as the write cursor would not meet the read
cursor. -/
theorem count_succ_lt_iff (r : RingBuffer α n) : r.count + 1 < n ↔ (r.head + 1) % n ≠ r.tail := by
  have hh := r.head_lt
  have ht := r.tail_lt
  rw [succ_mod hh]
  unfold count
  split <;> split <;> omega

theorem count_lt (r : RingBuffer α n) : r.count < n := by
  have hh := r.head_lt
  have ht := r.tail_lt
  unfold count
  split <;> omega

/-- A push moves the write cursor unless the ring is full. -/
theorem head_push_eq_iff (hn : 1 < n) (r : RingBuffer α n) (a : α) :
    (r.push a).head = r.head ↔ r.count + 1 = n := by
  have hh := r.head_lt
  have hroom := r.count_succ_lt_iff
  have hcount := r.count_lt
  unfold push
  split
  · rename_i hfull
    exact ⟨fun _ => by have := mt hroom.mp (not_not.mpr hfull); omega, fun _ => rfl⟩
  · rename_i hfull
    have hlt := hroom.mpr hfull
    have hmoved : (r.head + 1) % n ≠ r.head := by
      rw [succ_mod hh]
      split <;> omega
    exact ⟨fun h => absurd h hmoved, fun h => by omega⟩

/-- **A push appends**, as long as there is room. -/
theorem toList_push (r : RingBuffer α n) (a : α) :
    (r.push a).toList = if r.count + 1 < n then r.toList ++ [a] else r.toList := by
  have hh := r.head_lt
  have ht := r.tail_lt
  have hroom := r.count_succ_lt_iff
  by_cases hfull : (r.head + 1) % n = r.tail
  · rw [push, if_pos hfull, if_neg (by rw [hroom]; exact fun h => h hfull)]
  · have hlt := hroom.mpr hfull
    have hcount : (r.push a).count = r.count + 1 := by
      unfold push
      rw [if_neg hfull]
      unfold count at hlt ⊢
      have hsucc := succ_mod hh
      dsimp only
      split at hsucc <;> split <;> split <;> omega
    have hbuffer : (r.push a).buffer = update r.buffer r.head a := by
      rw [push, if_neg hfull]
    have htail : (r.push a).tail = r.tail := by rw [push, if_neg hfull]
    rw [if_pos hlt, toList, hcount, range_succ, map_append, map_singleton, hbuffer,
      htail, tail_add_count, update_self]
    refine congrArg (· ++ [a]) (map_congr_left fun i hi => update_of_ne ?_ _ _)
    -- the new place is behind all the old ones
    have hi : i < r.count := mem_range.mp hi
    rw [← tail_add_count r]
    rw [RoundRobin.add_mod_eq ht (by omega), RoundRobin.add_mod_eq ht (by omega)]
    split <;> split <;> omega

end RingBuffer
