import Mathlib.Logic.Basic

/-!
# Two machines in lockstep

An implementation and a model that read the same inputs. From related states an input is handled as
the model has it exactly when the input is regular for the model's state, and a regular input leads
to related states again. Then the inputs of a whole list are all handled as the model has it exactly
when they are all regular (`agree_iff_regular`): the first input that is not regular is already a
disagreement. A statement about every input of a list, in the state before it, is written with the
list split there, `inputs = pre ++ i :: post`.
-/

namespace Lockstep

variable {σ τ ι : Type*}

/-- A statement about every input is one about the first and one about the others. -/
theorem forall_split_cons (P : List ι → ι → Prop) (i0 : ι) (inputs : List ι) :
    (∀ pre i post, i0 :: inputs = pre ++ i :: post → P pre i) ↔
      P [] i0 ∧ ∀ pre i post, inputs = pre ++ i :: post → P (i0 :: pre) i := by
  constructor
  · intro h
    refine ⟨h [] i0 inputs rfl, fun pre i post hsplit => h (i0 :: pre) i post ?_⟩
    rw [hsplit, List.cons_append]
  · rintro ⟨hfirst, hrest⟩ pre i post hsplit
    cases pre with
    | nil =>
      obtain ⟨rfl, -⟩ := List.cons.inj hsplit
      exact hfirst
    | cons i' pre =>
      obtain ⟨rfl, hsplit'⟩ := List.cons.inj hsplit
      exact hrest pre i post hsplit'

/-- **Agreement along a list of inputs.** `R` relates the states of the implementation `c` and of
the model `a`, `P` says that an input is handled as the model has it, and `Q` that it is regular. -/
theorem agree_iff_regular {c : σ → ι → σ} {a : τ → ι → τ} {R : σ → τ → Prop}
    {P : σ → τ → ι → Prop} {Q : τ → ι → Prop} (hiff : ∀ s t i, R s t → (P s t i ↔ Q t i))
    (hkeep : ∀ s t i, R s t → Q t i → R (c s i) (a t i)) {s : σ} {t : τ} (h : R s t)
    (inputs : List ι) :
    (∀ pre i post, inputs = pre ++ i :: post → P (pre.foldl c s) (pre.foldl a t) i) ↔
      ∀ pre i post, inputs = pre ++ i :: post → Q (pre.foldl a t) i := by
  induction inputs generalizing s t with
  | nil =>
    have hnil : ∀ pre i post, ([] : List ι) ≠ pre ++ i :: post := by simp
    exact ⟨fun _ pre i post hs => absurd hs (hnil pre i post),
      fun _ pre i post hs => absurd hs (hnil pre i post)⟩
  | cons i0 inputs ih =>
    rw [forall_split_cons fun pre i => P (pre.foldl c s) (pre.foldl a t) i,
      forall_split_cons fun pre i => Q (pre.foldl a t) i]
    -- the others matter only after a regular first input
    calc (P s t i0 ∧ _) ↔ (Q t i0 ∧ _) := and_congr_left' (hiff s t i0 h)
      _ ↔ (Q t i0 ∧ _) := and_congr_right fun hreg => ih (hkeep s t i0 h hreg)

end Lockstep
