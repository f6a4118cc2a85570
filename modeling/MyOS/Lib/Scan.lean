import Mathlib.Data.List.Basic
import Mathlib.Data.List.Induction
import Mathlib.Data.List.Nodup
import Mathlib.Order.Basic
import Mathlib.Order.Lattice

/-!
# Scans of a list

Two loops that keep one entry. `keepMax` replaces the entry by one of greater value, so the first of
the entries of greatest value remains (`foldl_keepMax_iff`). `keepLast` replaces it always, so the
last one remains (`foldl_keepLast_iff`). Both only look at the entries with a property `p`.
-/

namespace Scan

open List

variable {α : Type*} [DecidableEq α] {p : α → Prop}

/-! ### The greatest entry -/

section Max

variable {β : Type*} [LinearOrder β] {f : α → β}

/-- One round: the entry is taken if its value is greater than the best one so far. -/
def keepMax (p : α → Prop) [DecidablePred p] (f : α → β) (acc : β × Option α) (a : α) :
    β × Option α :=
  if p a ∧ acc.1 < f a then (f a, some a) else acc

/-- `a` comes out on top: every other entry has a smaller value, or the same and stands later. -/
def Wins (p : α → Prop) (f : α → β) (l : List α) (a : α) : Prop :=
  a ∈ l ∧ p a ∧ ∀ b ∈ l, p b → b ≠ a → f b < f a ∨ f b = f a ∧ l.idxOf a < l.idxOf b

theorem Wins.unique {l : List α} {a b : α} (ha : Wins p f l a) (hb : Wins p f l b) : a = b := by
  by_contra hne
  rcases ha.2.2 b hb.1 hb.2.1 (Ne.symm hne) with h | ⟨h, hidx⟩
  · rcases hb.2.2 a ha.1 ha.2.1 hne with h' | ⟨h', _⟩
    · exact lt_asymm h h'
    · exact absurd h' (ne_of_gt h)
  · rcases hb.2.2 a ha.1 ha.2.1 hne with h' | ⟨_, hidx'⟩
    · exact absurd h (ne_of_gt h')
    · exact Nat.lt_asymm hidx hidx'

/-- A winner of the tail that beats the head. -/
theorem Wins.cons {l : List α} {a c : α} (ha : Wins p f l a) (hc : p c → f c < f a) :
    Wins p f (c :: l) a := by
  have hca : c ≠ a := by
    rintro rfl
    exact lt_irrefl _ (hc ha.2.1)
  refine ⟨mem_cons_of_mem _ ha.1, ha.2.1, fun b hb hpb hne => ?_⟩
  by_cases hbc : b = c
  · subst hbc
    exact .inl (hc hpb)
  · have hbl : b ∈ l := (mem_cons.1 hb).resolve_left hbc
    rw [idxOf_cons_ne _ hca, idxOf_cons_ne _ (Ne.symm hbc), Nat.succ_lt_succ_iff]
    exact ha.2.2 b hbl hpb hne

variable [DecidablePred p]

/-- The loop either finds nothing above its start, or the winner. -/
theorem foldl_keepMax_cases (l : List α) (acc : β × Option α) :
    l.foldl (keepMax p f) acc = acc ∧ (∀ b ∈ l, p b → f b ≤ acc.1) ∨
      ∃ a, l.foldl (keepMax p f) acc = (f a, some a) ∧ acc.1 < f a ∧ Wins p f l a := by
  induction l generalizing acc with
  | nil => exact .inl ⟨rfl, fun b hb => absurd hb not_mem_nil⟩
  | cons c l ih =>
    rw [foldl_cons, keepMax]
    split
    · next hc =>
      rcases ih (f c, some c) with ⟨hres, hle⟩ | ⟨a, hres, hlt, hwin⟩
      · refine .inr ⟨c, hres, hc.2, mem_cons_self .., hc.1, fun b hb hp hne => ?_⟩
        have hbl : b ∈ l := (mem_cons.1 hb).resolve_left hne
        rcases (hle b hbl hp).lt_or_eq with h | h
        · exact .inl h
        · refine .inr ⟨h, ?_⟩
          rw [idxOf_cons_self, idxOf_cons_ne _ (Ne.symm hne)]
          exact Nat.succ_pos _
      · exact .inr ⟨a, hres, hc.2.trans hlt, hwin.cons fun _ => hlt⟩
    · next hc =>
      have hle : p c → f c ≤ acc.1 := fun hp => not_lt.1 fun hlt => hc ⟨hp, hlt⟩
      rcases ih acc with ⟨hres, hall⟩ | ⟨a, hres, hlt, hwin⟩
      · refine .inl ⟨hres, fun b hb hp => ?_⟩
        rcases mem_cons.1 hb with rfl | hbl
        · exact hle hp
        · exact hall b hbl hp
      · exact .inr ⟨a, hres, hlt, hwin.cons fun hp => (hle hp).trans_lt hlt⟩

/-- **What the loop finds**: the winner, if it is above the start. -/
theorem foldl_keepMax_iff (l : List α) (start : β) (a : α) :
    (l.foldl (keepMax p f) (start, none)).2 = some a ↔ start < f a ∧ Wins p f l a := by
  rcases foldl_keepMax_cases (p := p) (f := f) l (start, none) with
    ⟨hres, hle⟩ | ⟨c, hres, hlt, hwin⟩
  · rw [hres]
    refine ⟨(nomatch ·), fun ⟨hlt, hwin⟩ => ?_⟩
    exact absurd (hle a hwin.1 hwin.2.1) (not_le.2 hlt)
  · rw [hres, Option.some_inj]
    refine ⟨?_, fun ⟨_, ha⟩ => hwin.unique ha⟩
    rintro rfl
    exact ⟨hlt, hwin⟩

end Max

/-! ### The last entry -/

variable [DecidablePred p]

/-- One round: the entry is taken. -/
def keepLast (p : α → Prop) [DecidablePred p] (acc : Option α) (a : α) : Option α :=
  if p a then some a else acc

/-- **What the loop finds**: the entry that stands after all others. -/
theorem foldl_keepLast_iff {l : List α} (hl : l.Nodup) (a : α) :
    l.foldl (keepLast p) none = some a ↔
      a ∈ l ∧ p a ∧ ∀ b ∈ l, p b → b ≠ a → l.idxOf b < l.idxOf a := by
  induction l using List.reverseRecOn with
  | nil => simp
  | append_singleton l c ih =>
    have hc : c ∉ l := fun hmem =>
      (nodup_append.1 hl).2.2 c hmem c (mem_singleton_self c) rfl
    have hidx : ∀ b ∈ l, (l ++ [c]).idxOf b = l.idxOf b := fun b hb => idxOf_append_of_mem hb
    have hlast : (l ++ [c]).idxOf c = l.length := by
      rw [idxOf_append_of_notMem hc, idxOf_cons_self, Nat.add_zero]
    have hmem : ∀ b, b ∈ l ++ [c] → b ≠ c → b ∈ l := fun b hb hne =>
      (mem_append.1 hb).resolve_right fun h => hne (mem_singleton.1 h)
    rw [foldl_append, foldl_cons, foldl_nil, keepLast]
    split
    · next hpc =>
      rw [Option.some_inj]
      constructor
      · rintro rfl
        refine ⟨by simp, hpc, fun b hb _ hne => ?_⟩
        rw [hidx b (hmem b hb hne), hlast]
        exact idxOf_lt_length_of_mem (hmem b hb hne)
      · rintro ⟨ha, _, hafter⟩
        by_contra hne
        have hal := hmem a ha (Ne.symm hne)
        have hlt := hafter c (by simp) hpc hne
        rw [hlast, hidx a hal] at hlt
        exact absurd (idxOf_lt_length_of_mem hal) (by omega)
    · next hpc =>
      rw [ih (nodup_append.1 hl).1]
      constructor
      · rintro ⟨ha, hpa, hafter⟩
        refine ⟨mem_append_left _ ha, hpa, fun b hb hpb hne => ?_⟩
        have hbl := hmem b hb fun h => hpc (h ▸ hpb)
        rw [hidx b hbl, hidx a ha]
        exact hafter b hbl hpb hne
      · rintro ⟨ha, hpa, hafter⟩
        have hal := hmem a ha fun h => hpc (h ▸ hpa)
        refine ⟨hal, hpa, fun b hb hpb hne => ?_⟩
        have hlt := hafter b (mem_append_left _ hb) hpb hne
        rwa [hidx b hb, hidx a hal] at hlt

end Scan
