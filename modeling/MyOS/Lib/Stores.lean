import Mathlib.Logic.Function.Basic
import Mathlib.Logic.Nontrivial.Defs

/-!
# Sequences of stores

What a piece of code writes, as the list of its stores in order: pairs of a place and a value.
`write` carries them out. A place that is not in the list keeps its value (`write_of_notMem`), and a
place that is has a value that the list alone decides (`write_indep`). So code that writes a place
differs from code that does not in some memory (`exists_write_ne`).
-/

namespace Stores

open Function

variable {α β : Type*} {l l' : List (α × β)} {a : α}

/-- The places that are written. -/
def targets (l : List (α × β)) : List α := l.map Prod.fst

theorem mem_targets : a ∈ targets l ↔ ∃ v, (a, v) ∈ l := by
  simp [targets]

variable [DecidableEq α]

/-- The memory after the stores. -/
def write (m : α → β) (l : List (α × β)) : α → β :=
  l.foldl (fun m p => update m p.1 p.2) m

theorem write_cons (m : α → β) (p : α × β) (l : List (α × β)) :
    write m (p :: l) = write (update m p.1 p.2) l := rfl

theorem write_of_notMem (m : α → β) (h : a ∉ targets l) : write m l a = m a := by
  induction l generalizing m with
  | nil => rfl
  | cons p l ih =>
    obtain ⟨hp, hl⟩ := not_or.mp (mt List.mem_cons.mpr h)
    rw [write_cons, ih _ hl, update_of_ne hp]

/-- A place whose stores all have the value `v` ends up with it. -/
theorem write_eq_of_forall (m : α → β) {v : β} (h : a ∈ targets l)
    (hv : ∀ w, (a, w) ∈ l → w = v) : write m l a = v := by
  induction l generalizing m with
  | nil => cases h
  | cons p l ih =>
    rw [write_cons]
    by_cases hl : a ∈ targets l
    · exact ih _ hl fun w hw => hv w (List.mem_cons_of_mem p hw)
    · -- the store at the head is the last one to the place
      obtain rfl : a = p.1 := (List.mem_cons.mp h).resolve_right hl
      rw [write_of_notMem _ hl, update_self]
      exact hv p.2 List.mem_cons_self

theorem write_indep (m m' : α → β) (h : a ∈ targets l) : write m l a = write m' l a := by
  induction l generalizing m m' with
  | nil => cases h
  | cons p l ih =>
    rw [write_cons, write_cons]
    by_cases hl : a ∈ targets l
    · exact ih _ _ hl
    · obtain rfl : a = p.1 := (List.mem_cons.mp h).resolve_right hl
      rw [write_of_notMem _ hl, write_of_notMem _ hl, update_self, update_self]

/-- **A place written by one list only** shows the difference in some memory. -/
theorem exists_write_ne [Nontrivial β] (h : a ∈ targets l) (h' : a ∉ targets l') (m : α → β) :
    ∃ m', write m' l a ≠ write m' l' a := by
  obtain ⟨v, hv⟩ := exists_ne (write m l a)
  refine ⟨fun _ => v, ?_⟩
  rw [write_of_notMem _ h', write_indep _ m h]
  exact hv.symm

end Stores
