import Mathlib.Data.Set.Lattice
import Mathlib.Logic.Function.Basic
import Mathlib.Data.Nat.Notation
import Mathlib.Order.CompletePartialOrder

/-!
# Allocation of disjoint extents

Owners `i : ι` hold sets of sectors `ext i` inside an area `[lo, hi)`, and an allocator keeps a set
`used`. `Allocated` says that the two agree: owners do not share sectors, and below `hi` a sector is
in use exactly when it is reserved (below `lo`), owned, or in `leak`, a fixed set of sectors that no
owner holds and no operation ever frees: those of an area recovered from a crash.

Every allocator operation replaces the set of one owner by sectors that it already had or that were
free; `Allocated.replace` covers them all at once. An owner whose change reached the table but not
the used set leaks sectors (`Allocated.giveUp`).
-/

namespace ExtentAlloc

open Function

variable {ι : Type}

/-- Owners, the used set and the leaked set agree on the area `[lo, hi)`. -/
structure Allocated (ext : ι → Set ℕ) (lo hi : ℕ) (used leak : Set ℕ) : Prop where
  bounds : ∀ i, ext i ⊆ Set.Ico lo hi
  disjoint : ∀ i j, i ≠ j → Disjoint (ext i) (ext j)
  leak_disjoint : ∀ i, Disjoint (ext i) leak
  used_iff : ∀ n < hi, n ∈ used ↔ n < lo ∨ (∃ i, n ∈ ext i) ∨ n ∈ leak

variable {ext : ι → Set ℕ} {lo hi : ℕ} {used leak : Set ℕ}

/-- An owned sector is in use. -/
theorem Allocated.mem_used (h : Allocated ext lo hi used leak) {i : ι} {n : ℕ} (hn : n ∈ ext i) :
    n ∈ used :=
  (h.used_iff n (h.bounds i hn).2).mpr (.inr (.inl ⟨i, hn⟩))

/-- **One owner changes its sectors.** The new set lies in the area and consists of sectors the
owner already had or that were free; the used set gains it and loses the rest of the old one. -/
theorem Allocated.replace [DecidableEq ι] {used' : Set ℕ} (h : Allocated ext lo hi used leak)
    (i : ι) {new : Set ℕ} (hb : new ⊆ Set.Ico lo hi) (hfree : ∀ n ∈ new, n ∈ ext i ∨ n ∉ used)
    (hused : ∀ n < hi, n ∈ used' ↔ n ∈ new ∨ (n ∈ used ∧ n ∉ ext i)) :
    Allocated (update ext i new) lo hi used' leak := by
  -- what another owner has, or what is leaked, is in use and not owned by `i`
  have hdisj : ∀ j, j ≠ i → Disjoint new (ext j) := by
    intro j hj
    refine Set.disjoint_left.mpr fun n hn hnj => ?_
    rcases hfree n hn with hi | hi
    · exact Set.disjoint_left.mp (h.disjoint i j hj.symm) hi hnj
    · exact hi (h.mem_used hnj)
  have hleak : Disjoint new leak := by
    refine Set.disjoint_left.mpr fun n hn hnl => ?_
    rcases hfree n hn with hi | hi
    · exact Set.disjoint_left.mp (h.leak_disjoint i) hi hnl
    · exact hi ((h.used_iff n (hb hn).2).mpr (.inr (.inr hnl)))
  refine ⟨fun j => ?_, fun j k hjk => ?_, fun j => ?_, fun n hn => ?_⟩
  · by_cases hj : j = i
    · subst hj; rw [update_self]; exact hb
    · rw [update_of_ne hj]; exact h.bounds j
  · by_cases hj : j = i
    · subst hj
      rw [update_self, update_of_ne hjk.symm]
      exact hdisj k hjk.symm
    · by_cases hk : k = i
      · subst hk
        rw [update_self, update_of_ne hj]
        exact (hdisj j hj).symm
      · rw [update_of_ne hj, update_of_ne hk]
        exact h.disjoint j k hjk
  · by_cases hj : j = i
    · subst hj; rw [update_self]; exact hleak
    · rw [update_of_ne hj]; exact h.leak_disjoint j
  · rw [hused n hn, h.used_iff n hn]
    constructor
    · rintro (hnew | ⟨hlo | ⟨j, hj⟩ | hl, hni⟩)
      · exact .inr (.inl ⟨i, by rw [update_self]; exact hnew⟩)
      · exact .inl hlo
      · have hji : j ≠ i := fun hji => hni (hji ▸ hj)
        exact .inr (.inl ⟨j, by rw [update_of_ne hji]; exact hj⟩)
      · exact .inr (.inr hl)
    · -- reserved, foreign and leaked sectors are none of the owner's, so they stay in use
      rintro (hlo | ⟨j, hj⟩ | hl)
      · refine .inr ⟨.inl hlo, fun hni => ?_⟩
        exact absurd (h.bounds i hni).1 (by omega)
      · by_cases hji : j = i
        · subst hji; rw [update_self] at hj; exact .inl hj
        · rw [update_of_ne hji] at hj
          exact .inr ⟨.inr (.inl ⟨j, hj⟩),
            fun hni => Set.disjoint_left.mp (h.disjoint j i hji) hj hni⟩
      · exact .inr ⟨.inr (.inr hl),
          fun hni => Set.disjoint_left.mp (h.leak_disjoint i) hni hl⟩

/-- **One owner gives up sectors**, and the used set does not follow: they are leaked. -/
theorem Allocated.giveUp [DecidableEq ι] (h : Allocated ext lo hi used leak) (i : ι) {new : Set ℕ}
    (hsub : new ⊆ ext i) :
    Allocated (update ext i new) lo hi used (leak ∪ (ext i \ new)) := by
  have hle : ∀ j, update ext i new j ⊆ ext j := by
    intro j
    by_cases hj : j = i
    · subst hj; rw [update_self]; exact hsub
    · rw [update_of_ne hj]
  refine ⟨fun j => (hle j).trans (h.bounds j),
    fun j k hjk => (h.disjoint j k hjk).mono (hle j) (hle k), fun j => ?_, fun n hn => ?_⟩
  · refine Set.disjoint_left.mpr fun n hnj hleak => ?_
    rcases hleak with hl | ⟨hni, hnew⟩
    · exact Set.disjoint_left.mp (h.leak_disjoint j) (hle j hnj) hl
    · by_cases hj : j = i
      · subst hj; rw [update_self] at hnj; exact hnew hnj
      · exact Set.disjoint_left.mp (h.disjoint j i hj) (hle j hnj) hni
  · rw [h.used_iff n hn]
    refine or_congr_right ?_
    constructor
    · rintro (⟨j, hj⟩ | hl)
      · -- the sector stays with its owner unless the owner gave it up
        by_cases hji : j = i
        · subst hji
          by_cases hnew : n ∈ new
          · exact .inl ⟨j, by rw [update_self]; exact hnew⟩
          · exact .inr (.inr ⟨hj, hnew⟩)
        · exact .inl ⟨j, by rw [update_of_ne hji]; exact hj⟩
      · exact .inr (.inl hl)
    · rintro (⟨j, hj⟩ | hl | ⟨hni, -⟩)
      · exact .inl ⟨j, hle j hj⟩
      · exact .inr hl
      · exact .inl ⟨i, hni⟩

end ExtentAlloc
