import Mathlib.Data.List.Nodup
import Mathlib.Data.List.Basic

/-!
# Segments of doubly linked lists

`Seg next prev p x l q y` says that the nodes `l` are linked in this order: the first one is `x`, or
`y` if there is none, and points back at `p`; the last one is `q`, or `p` if there is none, and
points on to `y`. A whole list from `head` is `Seg next prev nil head l last nil`.

Segments concatenate (`seg_append`), depend on the links of their own nodes only (`Seg.congr`), and
can be given another successor or predecessor (`Seg.relinkLast`, `Seg.relinkFirst`). The links of a
list are inverse to each other (`Seg.inverse`) and determine its nodes (`Seg.unique`).
-/

namespace DList

open List

variable {α : Type*} {next prev next' prev' : α → α} {p x q y r z : α} {l l1 l2 : List α}

/-- The nodes `l` are linked, from `x` with predecessor `p` to `q` with successor `y`. -/
def Seg (next prev : α → α) : α → α → List α → α → α → Prop
  | p, x, [], q, y => p = q ∧ x = y
  | p, x, a :: l, q, y => x = a ∧ prev a = p ∧ Seg next prev a (next a) l q y

theorem seg_append : Seg next prev p x (l1 ++ l2) r z ↔
    ∃ q y, Seg next prev p x l1 q y ∧ Seg next prev q y l2 r z := by
  induction l1 generalizing p x with
  | nil =>
    constructor
    · exact fun h => ⟨p, x, ⟨rfl, rfl⟩, h⟩
    · rintro ⟨q, y, ⟨rfl, rfl⟩, h⟩
      exact h
  | cons a l ih =>
    constructor
    · rintro ⟨hx, hp, h⟩
      obtain ⟨q, y, h1, h2⟩ := ih.mp h
      exact ⟨q, y, ⟨hx, hp, h1⟩, h2⟩
    · rintro ⟨q, y, ⟨hx, hp, h1⟩, h2⟩
      exact ⟨hx, hp, ih.mpr ⟨q, y, h1, h2⟩⟩

/-- A segment depends on the links of its nodes only. -/
theorem Seg.congr (h : Seg next prev p x l q y) (hn : ∀ a ∈ l, next' a = next a)
    (hp : ∀ a ∈ l, prev' a = prev a) : Seg next' prev' p x l q y := by
  induction l generalizing p x with
  | nil => exact h
  | cons a l ih =>
    obtain ⟨hx, hpa, hrest⟩ := h
    refine ⟨hx, (hp a mem_cons_self).trans hpa, ?_⟩
    rw [hn a mem_cons_self]
    exact ih hrest (fun b hb => hn b (mem_cons_of_mem _ hb))
      (fun b hb => hp b (mem_cons_of_mem _ hb))

/-- The links determine the nodes, up to the successor of the last one. -/
theorem Seg.unique {q1 q2 : α} (h1 : Seg next prev p x l1 q1 y) (h2 : Seg next prev p x l2 q2 y)
    (hl1 : y ∉ l1) (hl2 : y ∉ l2) : l1 = l2 := by
  induction l1 generalizing p x l2 with
  | nil =>
    cases l2 with
    | nil => rfl
    | cons c l2 => exact absurd (h1.2.symm.trans h2.1 ▸ mem_cons_self) hl2
  | cons a l1 ih =>
    cases l2 with
    | nil => exact absurd (h2.2.symm.trans h1.1 ▸ mem_cons_self) hl1
    | cons c l2 =>
      obtain rfl : a = c := h1.1.symm.trans h2.1
      rw [ih h1.2.2 h2.2.2 (not_mem_of_not_mem_cons hl1) (not_mem_of_not_mem_cons hl2)]

section Ends

variable (h : Seg next prev p x l q y)
include h

/-- The last node of a segment. -/
theorem Seg.last_mem (hl : l ≠ []) : q ∈ l ∧ next q = y := by
  induction l generalizing p x with
  | nil => exact absurd rfl hl
  | cons a l ih =>
    obtain ⟨-, -, hrest⟩ := h
    cases l with
    | nil =>
      obtain ⟨rfl, rfl⟩ := hrest
      exact ⟨mem_cons_self, rfl⟩
    | cons b l =>
      obtain ⟨hq, hy⟩ := ih hrest (cons_ne_nil _ _)
      exact ⟨mem_cons_of_mem _ hq, hy⟩

/-- The first node of a segment. -/
theorem Seg.first_mem (hl : l ≠ []) : x ∈ l ∧ prev x = p := by
  cases l with
  | nil => exact absurd rfl hl
  | cons a l =>
    obtain ⟨rfl, hp, -⟩ := h
    exact ⟨mem_cons_self, hp⟩

theorem Seg.first_eq : x = l.headD y := by
  cases l with
  | nil => exact h.2
  | cons a l => exact h.1

theorem Seg.last_eq : q = l.getLastD p := by
  induction l generalizing p x with
  | nil => exact h.1.symm
  | cons a l ih => exact (ih h.2.2).trans (getLastD_cons ..).symm

/-- The last node gets another successor; without a node, the pointer to the segment does. -/
theorem Seg.relinkLast {x' : α} (hnodup : l.Nodup)
    (hn : ∀ a ∈ l, a ≠ q → next' a = next a) (hp : ∀ a ∈ l, prev' a = prev a)
    (hq : l ≠ [] → x' = x ∧ next' q = z) (hx : l = [] → x' = z) :
    Seg next' prev' p x' l q z := by
  induction l generalizing p x x' with
  | nil => exact ⟨h.1, hx rfl⟩
  | cons a l ih =>
    obtain ⟨rfl, hpa, hrest⟩ := h
    obtain ⟨hnot, hnodup'⟩ := nodup_cons.mp hnodup
    obtain ⟨rfl, hlast⟩ := hq (cons_ne_nil _ _)
    refine ⟨rfl, (hp _ mem_cons_self).trans hpa, ?_⟩
    refine ih hrest hnodup' (fun c hc => hn c (mem_cons_of_mem _ hc))
      (fun c hc => hp c (mem_cons_of_mem _ hc)) (fun hl => ⟨?_, hlast⟩) (fun hl => ?_)
    · -- the last node is further on, so this one keeps its successor
      have hql := (hrest.last_mem hl).1
      exact hn _ mem_cons_self (fun haq => hnot (haq ▸ hql))
    · subst hl
      obtain ⟨rfl, -⟩ := hrest
      exact hlast

/-- The first node gets another predecessor, and the segment without a node ends there. -/
theorem Seg.relinkFirst (hnodup : l.Nodup)
    (hn : ∀ a ∈ l, next' a = next a) (hp : ∀ a ∈ l, a ≠ x → prev' a = prev a)
    (hx : l ≠ [] → prev' x = r) : ∃ q', Seg next' prev' r x l q' y := by
  cases l with
  | nil => exact ⟨r, rfl, h.2⟩
  | cons a l =>
    obtain ⟨rfl, -, hrest⟩ := h
    obtain ⟨hnot, -⟩ := nodup_cons.mp hnodup
    refine ⟨q, rfl, hx (cons_ne_nil _ _), ?_⟩
    rw [hn _ mem_cons_self]
    exact hrest.congr (fun c hc => hn c (mem_cons_of_mem _ hc))
      (fun c hc => hp c (mem_cons_of_mem _ hc) (fun hcx => hnot (hcx ▸ hc)))

end Ends

/-- A node of a segment, with what comes before and behind it. -/
theorem Seg.at_node {a : α} (h : Seg next prev p x (l1 ++ a :: l2) r z) :
    Seg next prev p x l1 (prev a) a ∧ Seg next prev a (next a) l2 r z := by
  obtain ⟨q, y, h1, rfl, hp, h2⟩ := seg_append.mp h
  exact ⟨hp ▸ h1, h2⟩

/-- The links of a list are inverse to each other. -/
theorem Seg.inverse {nil : α} (h : Seg next prev nil x l r nil) {a : α} (ha : a ∈ l) :
    (next a ≠ nil → next a ∈ l ∧ prev (next a) = a) ∧
    (prev a ≠ nil → prev a ∈ l ∧ next (prev a) = a) := by
  obtain ⟨l1, l2, rfl⟩ := append_of_mem ha
  obtain ⟨h1, h2⟩ := h.at_node
  constructor
  · intro hne
    have hl : l2 ≠ [] := fun hl => by subst hl; exact hne h2.2
    obtain ⟨hmem, hprev⟩ := h2.first_mem hl
    exact ⟨mem_append_right _ (mem_cons_of_mem _ hmem), hprev⟩
  · intro hne
    have hl : l1 ≠ [] := fun hl => by subst hl; exact hne h1.1.symm
    obtain ⟨hmem, hnext⟩ := h1.last_mem hl
    exact ⟨mem_append_left _ hmem, hnext⟩

end DList
