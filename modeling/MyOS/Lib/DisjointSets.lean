import Mathlib.Data.Finset.Card
import Mathlib.Order.Interval.Finset.Nat
import Mathlib.Algebra.GroupWithZero.Nat

/-!
# Lists of disjoint finite sets

The union of a list of finite sets, and its size when the sets are pairwise disjoint
(`card_unions`). For intervals of natural numbers this bounds the sum of the lengths by the space
they lie in (`sum_length_le`).
-/

namespace DisjointSets

variable {α : Type*} [DecidableEq α] {sets : List (Finset α)} {s : Finset α} {a : α}

/-- The elements of all the sets. -/
def unions (sets : List (Finset α)) : Finset α := sets.foldr (· ∪ ·) ∅

theorem unions_cons (s : Finset α) (sets : List (Finset α)) :
    unions (s :: sets) = s ∪ unions sets := rfl

theorem mem_unions : a ∈ unions sets ↔ ∃ s ∈ sets, a ∈ s := by
  induction sets with
  | nil => simp [unions]
  | cons s sets ih => rw [unions_cons, Finset.mem_union, ih, List.exists_mem_cons_iff]

theorem disjoint_unions : Disjoint s (unions sets) ↔ ∀ t ∈ sets, Disjoint s t := by
  simp only [Finset.disjoint_left, mem_unions]
  constructor
  · exact fun h t ht a ha ha' => h ha ⟨t, ht, ha'⟩
  · rintro h a ha ⟨t, ht, ha'⟩
    exact h t ht ha ha'

/-- Disjoint sets are counted one by one. -/
theorem card_unions (h : sets.Pairwise Disjoint) :
    (unions sets).card = (sets.map Finset.card).sum := by
  induction sets with
  | nil => rfl
  | cons s sets ih =>
    obtain ⟨hs, hrest⟩ := List.pairwise_cons.mp h
    rw [unions_cons, Finset.card_union_of_disjoint (disjoint_unions.mpr hs), ih hrest,
      List.map_cons, List.sum_cons]

/-- Removing the same elements from every set. -/
theorem unions_map_sdiff (sets : List (Finset α)) (removed : Finset α) :
    unions (sets.map (· \ removed)) = unions sets \ removed := by
  ext a
  simp only [mem_unions, Finset.mem_sdiff, List.mem_map]
  constructor
  · rintro ⟨-, ⟨s, hs, rfl⟩, ha⟩
    obtain ⟨ha, hr⟩ := Finset.mem_sdiff.mp ha
    exact ⟨⟨s, hs, ha⟩, hr⟩
  · rintro ⟨⟨s, hs, ha⟩, hr⟩
    exact ⟨_, ⟨s, hs, rfl⟩, Finset.mem_sdiff.mpr ⟨ha, hr⟩⟩

/-- Disjoint intervals fit next to each other into the space that contains them. -/
theorem sum_length_le {β : Type*} {l : List β} {lo hi : β → ℕ} {n : ℕ}
    (h : l.Pairwise fun b c => hi b ≤ lo c ∨ hi c ≤ lo b) (hn : ∀ b ∈ l, hi b ≤ n) :
    (l.map fun b => hi b - lo b).sum ≤ n := by
  have hdisj : (l.map fun b => Finset.Ico (lo b) (hi b)).Pairwise Disjoint := by
    refine List.pairwise_map.mpr (h.imp fun {b c} hbc => ?_)
    rw [Finset.disjoint_left]
    intro k hk hk'
    rw [Finset.mem_Ico] at hk hk'
    omega
  have hsub : unions (l.map fun b => Finset.Ico (lo b) (hi b)) ⊆ Finset.range n := by
    intro k hk
    obtain ⟨s, hs, hk⟩ := mem_unions.mp hk
    obtain ⟨b, hb, rfl⟩ := List.mem_map.mp hs
    have := hn b hb
    rw [Finset.mem_Ico] at hk
    exact Finset.mem_range.mpr (by omega)
  calc (l.map fun b => hi b - lo b).sum
      = ((l.map fun b => Finset.Ico (lo b) (hi b)).map Finset.card).sum := by
        rw [List.map_map]
        congr 1
        exact List.map_congr_left fun b _ => (Nat.card_Ico _ _).symm
    _ = (unions (l.map fun b => Finset.Ico (lo b) (hi b))).card := (card_unions hdisj).symm
    _ ≤ (Finset.range n).card := Finset.card_le_card hsub
    _ = n := Finset.card_range n

end DisjointSets
