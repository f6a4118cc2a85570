import Mathlib.Data.List.TakeWhile
import Mathlib.Tactic.Common
import Mathlib.Data.Nat.Notation

/-!
# Components of a separated sequence

`components sep p` are the maximal runs of non-separators of `p`, the components of a path: the
sequence is split at every separator and the empty pieces are dropped. The lemmas read it from the
left, the way a path walker does: skip separators (`components_dropWhile`), take one run
(`components_run`).
-/

variable {α : Type} [DecidableEq α]

/-- The maximal runs of elements other than `sep`. -/
def components (sep : α) (p : List α) : List (List α) :=
  (p.splitOn sep).filter (fun c => !c.isEmpty)

@[simp] theorem components_nil (sep : α) : components sep [] = [] := by
  simp [components]

@[simp] theorem components_cons_sep (sep : α) (p : List α) :
    components sep (sep :: p) = components sep p := by
  unfold components
  rw [List.splitOn_cons_eq_if_modifyHead, if_pos (by simp)]
  simp

/-- Leading separators do not count. -/
theorem components_dropWhile (sep : α) (p : List α) :
    components sep (p.dropWhile (· == sep)) = components sep p := by
  induction p with
  | nil => rfl
  | cons c p ih =>
    by_cases hc : c = sep
    · subst hc
      rw [List.dropWhile_cons_of_pos (by simp), ih, components_cons_sep]
    · rw [List.dropWhile_cons_of_neg (by simpa using hc)]

variable {sep : α} {c p : List α}

/-- A run that reaches the end of the sequence is its only component. -/
theorem components_of_not_mem (hc : sep ∉ c) (hne : c ≠ []) : components sep c = [c] := by
  unfold components
  rw [List.splitOn_eq_singleton hc]
  simp [hne]

/-- A run followed by a separator is the first component. -/
theorem components_append_sep (hc : sep ∉ c) (hne : c ≠ []) (p : List α) :
    components sep (c ++ sep :: p) = c :: components sep p := by
  unfold components
  rw [List.splitOn_append_cons_self_of_not_mem hc]
  simp [hne]

/-- **Reading one component.** The run at the front of a sequence that does not start with a
separator is its first component, and the rest of the sequence has the others. -/
theorem components_run (hp : p ≠ []) (hhead : p.head? ≠ some sep) : components sep p
      = p.takeWhile (· != sep) :: components sep (p.dropWhile (· != sep)) := by
  have hrun : sep ∉ p.takeWhile (· != sep) := by
    intro h
    have := List.mem_takeWhile_imp h
    simp at this
  have hne : p.takeWhile (· != sep) ≠ [] := by
    cases p with
    | nil => exact absurd rfl hp
    | cons c p =>
      have hc : c ≠ sep := fun h => hhead (by rw [h]; rfl)
      rw [List.takeWhile_cons_of_pos (by simpa using hc)]
      exact List.cons_ne_nil _ _
  have hsplit : p = p.takeWhile (· != sep) ++ p.dropWhile (· != sep) :=
    List.takeWhile_append_dropWhile.symm
  -- the run reaches the end, or a separator follows it
  cases hrest : p.dropWhile (· != sep) with
  | nil =>
    rw [hrest, List.append_nil] at hsplit
    rw [components_nil]
    conv_lhs => rw [hsplit]
    exact components_of_not_mem hrun hne
  | cons c rest =>
    have hc : c = sep := by
      have h := List.head?_dropWhile_not (fun x => x != sep) p
      rw [hrest] at h
      simpa using h
    subst hc
    rw [hrest] at hsplit
    rw [components_cons_sep]
    conv_lhs => rw [hsplit]
    exact components_append_sep hrun hne rest

theorem ne_nil_of_mem_components (h : c ∈ components sep p) : c ≠ [] := by
  have := (List.mem_filter.mp h).2
  simpa using this

/-- A component has no separator, and its elements are elements of the sequence. -/
theorem mem_components (h : c ∈ components sep p) : sep ∉ c ∧ ∀ x ∈ c, x ∈ p := by
  -- the sequence gets shorter by a separator or by a whole run, hence strong induction
  induction hn : p.length using Nat.strongRecOn generalizing p with
  | ind n ih =>
    cases p with
    | nil => cases h
    | cons d p =>
      by_cases hd : d = sep
      · subst hd
        rw [components_cons_sep] at h
        obtain ⟨hsep, hmem⟩ := ih p.length (by rw [← hn]; simp) h rfl
        exact ⟨hsep, fun x hx => List.mem_cons_of_mem _ (hmem x hx)⟩
      · rw [components_run (List.cons_ne_nil _ _) (by simpa using hd)] at h
        rcases List.mem_cons.mp h with rfl | h
        · refine ⟨fun hs => ?_, fun x hx => (List.takeWhile_sublist _).subset hx⟩
          have := List.mem_takeWhile_imp hs
          simp at this
        · have hdrop : (d :: p).dropWhile (· != sep) = p.dropWhile (· != sep) :=
            List.dropWhile_cons_of_pos (by simpa using hd)
          rw [hdrop] at h
          have hlen := (List.dropWhile_sublist (· != sep) (l := p)).length_le
          obtain ⟨hsep, hmem⟩ := ih _ (by rw [← hn, List.length_cons]; omega) h rfl
          refine ⟨hsep, fun x hx => List.mem_cons_of_mem _ ?_⟩
          exact (List.dropWhile_sublist _).subset (hmem x hx)

/-- The components of a sequence written out from its components, one separator before each. -/
theorem components_flatMap {cs : List (List α)} (h : ∀ c ∈ cs, sep ∉ c ∧ c ≠ []) :
    components sep (cs.flatMap (fun c => sep :: c)) = cs := by
  induction cs with
  | nil => simp
  | cons c cs ih =>
    obtain ⟨hsep, hne⟩ := h c List.mem_cons_self
    have ih' := ih (fun c' hc' => h c' (List.mem_cons_of_mem _ hc'))
    rw [List.flatMap_cons, List.cons_append, components_cons_sep]
    cases cs with
    | nil => rw [List.flatMap_nil, List.append_nil, components_of_not_mem hsep hne]
    | cons c' cs' =>
      rw [List.flatMap_cons, List.cons_append, components_append_sep hsep hne]
      rw [List.flatMap_cons, List.cons_append, components_cons_sep] at ih'
      rw [ih']
