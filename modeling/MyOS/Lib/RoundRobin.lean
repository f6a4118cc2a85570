import Mathlib.Data.List.Basic
import Mathlib.Order.Nat
import Mathlib.Tactic.SplitIfs

/-!
# Round robin

Positions `0, …, n - 1` on a circle. `gap n c b` is how many places on from `c` the next visit to
`b` is, between 1 and `n`. The search that tries the places after `c` one by one stops at the first
that passes (`search_some`), if one passes at all (`search_isSome`). It never jumps over one that
does: its gap shrinks with every move until it is visited (`Chain.gap_lt`), so nothing that passes
is left out between two visits to one place (`Chain.visits`).
-/

namespace RoundRobin

variable {n : ℕ} {c b : ℕ} {cs : List ℕ}

/-- The number of places from `c` on to the next visit to `b`. -/
def gap (n c b : ℕ) : ℕ := if c < b then b - c else b + n - c

theorem gap_pos (hc : c < n) : 0 < gap n c b := by
  unfold gap; split <;> omega

theorem gap_le (hb : b < n) : gap n c b ≤ n := by
  unfold gap; split <;> omega

/-- The place `i` on from `c`, for one turn of the circle. -/
theorem add_mod_eq {c i : ℕ} (hc : c < n) (hi : i ≤ n) :
    (c + i) % n = if c + i < n then c + i else c + i - n := by
  split
  · exact Nat.mod_eq_of_lt ‹_›
  · rw [Nat.mod_eq_sub_mod (by omega), Nat.mod_eq_of_lt (by omega)]

/-- Going on by the gap gets there. -/
theorem add_gap_mod (hc : c < n) (hb : b < n) : (c + gap n c b) % n = b := by
  rw [add_mod_eq hc (gap_le hb)]
  unfold gap
  split <;> split <;> omega

theorem gap_add_mod {c i : ℕ} (hc : c < n) (hpos : 0 < i) (hi : i ≤ n) :
    gap n c ((c + i) % n) = i := by
  rw [add_mod_eq hc hi]
  unfold gap
  split <;> split <;> omega

/-- On the way to a farther place the gap to it shrinks by the way gone. -/
theorem gap_add_gap {c c' b : ℕ} (hc : c < n) (hc' : c' < n) (hb : b < n)
    (hlt : gap n c c' < gap n c b) : gap n c c' + gap n c' b = gap n c b := by
  unfold gap at *
  split_ifs at * <;> omega

/-- `c'` is the nearest place after `c` that passes. -/
structure Next (n : ℕ) (live : ℕ → Prop) (c c' : ℕ) : Prop where
  lt : c' < n
  passes : live c'
  nearest : ∀ b < n, live b → gap n c c' ≤ gap n c b

/-- The search over the `n` places after `c`, as a loop makes it. -/
def search (n : ℕ) (p : ℕ → Bool) (c : ℕ) : Option ℕ :=
  ((List.range n).find? fun i => p ((c + (i + 1)) % n)).map fun i => (c + (i + 1)) % n

/-- **The search stops at the nearest place that passes.** -/
theorem search_some {p : ℕ → Bool} {c c' : ℕ} (hc : c < n) (h : search n p c = some c') :
    Next n (fun b => p b = true) c c' := by
  obtain ⟨i, hi, rfl⟩ := Option.map_eq_some_iff.mp h
  obtain ⟨hp, k, hk, hki, hmin⟩ := List.find?_eq_some_iff_getElem.mp hi
  obtain rfl : k = i := by simpa using hki
  have hin : k < n := by simpa using hk
  refine ⟨Nat.mod_lt _ (by omega), hp, fun b hb hpb => ?_⟩
  rw [gap_add_mod hc (by omega) (by omega)]
  by_contra hlt
  -- an earlier place would have been taken
  have hpos := gap_pos (b := b) hc
  have hearlier := hmin (gap n c b - 1) (by omega)
  rw [List.getElem_range, Nat.sub_add_cancel hpos, add_gap_mod hc hb, hpb] at hearlier
  cases hearlier

/-- **The search finds something if one place passes.** -/
theorem search_isSome {p : ℕ → Bool} (hc : c < n) (hb : b < n) (hp : p b = true) :
    ∃ c', search n p c = some c' := by
  have hpos := gap_pos (b := b) hc
  have hle := gap_le (c := c) hb
  have hmem : gap n c b - 1 ∈ List.range n := List.mem_range.mpr (by omega)
  have hpass : p ((c + (gap n c b - 1 + 1)) % n) = true := by
    rw [Nat.sub_add_cancel hpos, add_gap_mod hc hb]
    exact hp
  obtain ⟨i, hi⟩ := Option.isSome_iff_exists.mp (List.find?_isSome
    (p := fun i => p ((c + (i + 1)) % n)) |>.mpr ⟨_, hmem, hpass⟩)
  exact ⟨_, by rw [search, hi]; rfl⟩

/-- The places visited from `c` on, each nearest to the one before among those that do not skip
`b`. -/
inductive Chain (n b : ℕ) : ℕ → List ℕ → ℕ → Prop
  | nil (c : ℕ) : Chain n b c [] c
  | cons {c c' d : ℕ} {cs : List ℕ} (hc' : c' < n) (hnear : gap n c c' ≤ gap n c b)
      (h : Chain n b c' cs d) : Chain n b c (c' :: cs) d

theorem Chain.concat {b c d d' : ℕ} (h : Chain n b c cs d) (hd' : d' < n)
    (hnear : gap n d d' ≤ gap n d b) : Chain n b c (cs ++ [d']) d' := by
  induction h with
  | nil c => exact .cons hd' hnear (.nil _)
  | cons hc' hnear' _ ih => exact .cons hc' hnear' (ih hnear)

/-- **A place that is never jumped over comes nearer** with every move, until it is visited. -/
theorem Chain.gap_lt {b c d : ℕ} (h : Chain n b c cs d) (hb : b < n) (hc : c < n)
    (hnot : b ∉ cs) : gap n d b ≤ gap n c b ∧ (cs ≠ [] → gap n d b < gap n c b) := by
  induction h with
  | nil c => exact ⟨le_refl _, fun h => absurd rfl h⟩
  | @cons c c' d cs hc' hnear h ih =>
    rw [List.mem_cons, not_or] at hnot
    have hpos := gap_pos (b := c') hc
    have hlt : gap n c c' < gap n c b := by
      refine lt_of_le_of_ne hnear fun heq => hnot.1 ?_
      rw [← add_gap_mod hc hb, ← heq, add_gap_mod hc hc']
    have hsum := gap_add_gap hc hc' hb hlt
    have hrest := (ih hc' hnot.2).1
    exact ⟨by omega, fun _ => by omega⟩

/-- **Between two visits to one place every place that is not jumped over is visited.** -/
theorem Chain.visits {a b : ℕ} (h : Chain n b a cs a) (hb : b < n) (ha : a < n)
    (hne : cs ≠ []) : b ∈ cs := by
  by_contra hnot
  exact absurd ((h.gap_lt hb ha hnot).2 hne) (lt_irrefl _)

end RoundRobin
