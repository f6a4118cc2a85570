import Mathlib.Data.Nat.Notation
import Mathlib.Order.Basic
import Mathlib.Order.Bounds.Basic

/-!
# First-fit search for a run of free units

`scan` is one pass over the units `lo, lo + 1, …` that keeps the start and the length of the current
run of free ones, and stops as soon as the run is long enough. `seek` measures at each position the
free run that begins there, and skips a run that is too short together with the used unit behind it.

Both compute the least element of the set `fits` of all places where the run fits, and fail only
when it is empty (`Finds.isLeast`, `Finds.eq_none_iff`).
-/

namespace FirstFit

/-- The units of `[r, r + want)` are all free. -/
def Run (used : ℕ → Bool) (r want : ℕ) : Prop := ∀ k, r ≤ k → k < r + want → used k = false

/-- The places where a run of `want` free units fits in `[lo, hi)`. -/
def fits (used : ℕ → Bool) (lo hi want : ℕ) : Set ℕ :=
  {r | lo ≤ r ∧ r + want ≤ hi ∧ Run used r want}

/-- The search with `n` units left to visit from `pos`. The current run has `len` units and, when
it is not empty, begins at `start`. -/
def scan (used : ℕ → Bool) (want : ℕ) : ℕ → ℕ → ℕ → ℕ → Option ℕ
  | 0, _, _, _ => none
  | n + 1, pos, start, len =>
    if used pos then scan used want n (pos + 1) start 0
    else
      let start := if len = 0 then pos else start
      if len + 1 = want then some start else scan used want n (pos + 1) start (len + 1)

variable {used : ℕ → Bool} {want lo pos start len : ℕ}

/-- The state of a search that began at `lo`: its current run is free and cannot be extended to
the left, and no free run of the wanted length ends before `pos`. -/
structure Scanned (used : ℕ → Bool) (want lo pos start len : ℕ) : Prop where
  start_eq : 0 < len → start + len = pos
  bound : lo + len ≤ pos
  run : ∀ k, pos - len ≤ k → k < pos → used k = false
  maximal : lo + len < pos → used (pos - len - 1) = true
  none_before : ∀ r, lo ≤ r → r + want ≤ pos → ¬ Run used r want

theorem Scanned.init (used : ℕ → Bool) (hw : 0 < want) (lo : ℕ) :
    Scanned used want lo lo lo 0 where
  start_eq := fun h => absurd h (by omega)
  bound := by omega
  run := fun k h1 h2 => absurd h2 (by omega)
  maximal := fun h => absurd h (by omega)
  none_before := fun r h1 h2 => absurd h2 (by omega)

section

variable (h : Scanned used want lo pos start len)
include h

/-- A used unit ends the current run. -/
theorem Scanned.skip (hw : 0 < want)
    (hu : used pos = true) : Scanned used want lo (pos + 1) start 0 where
  start_eq := fun h => absurd h (by omega)
  bound := by have := h.bound; omega
  run := fun k h1 h2 => absurd h2 (by omega)
  maximal := fun _ => by simpa using hu
  none_before := by
    intro r hr hle hrun
    rcases Nat.lt_or_ge pos (r + want) with hlt | hge
    · -- the run would contain the used unit
      exact absurd (hrun pos (by omega) hlt) (by rw [hu]; decide)
    · exact h.none_before r hr hge hrun

/-- A free unit extends the current run, which is still too short. -/
theorem Scanned.extend (hf : used pos = false) (hlen : len + 1 < want) :
    Scanned used want lo (pos + 1) (if len = 0 then pos else start) (len + 1) where
  start_eq := by
    intro _
    by_cases h0 : len = 0
    · rw [if_pos h0]; omega
    · rw [if_neg h0]; have := h.start_eq (by omega); omega
  bound := by have := h.bound; omega
  run := by
    intro k h1 h2
    rcases Nat.lt_or_ge k pos with hk | hk
    · exact h.run k (by omega) hk
    · rw [show k = pos by omega]; exact hf
  maximal := by
    intro hlt
    have := h.maximal (by omega)
    rwa [show pos + 1 - (len + 1) - 1 = pos - len - 1 by omega]
  none_before := by
    intro r hr hle hrun
    rcases Nat.lt_or_ge pos (r + want) with hlt | hge
    · -- the run would begin left of the current one, across the used unit before it
      have hb := h.bound
      have hu := h.maximal (by omega)
      exact absurd (hrun (pos - len - 1) (by omega) (by omega)) (by rw [hu]; decide)
    · exact h.none_before r hr hge hrun

/-- The current run becomes long enough. -/
theorem Scanned.found (hf : used pos = false)
    (hlen : len + 1 = want) : lo ≤ (if len = 0 then pos else start) ∧
      (if len = 0 then pos else start) + want = pos + 1 ∧
      Run used (if len = 0 then pos else start) want := by
  have hstart : (if len = 0 then pos else start) + len = pos := by
    by_cases h0 : len = 0
    · rw [if_pos h0]; omega
    · rw [if_neg h0]; exact h.start_eq (by omega)
  have hb := h.bound
  refine ⟨by omega, by omega, fun k h1 h2 => ?_⟩
  rcases Nat.lt_or_ge k pos with hk | hk
  · exact h.run k (by omega) hk
  · rw [show k = pos by omega]; exact hf

/-- The run invariant decides the search: an answer is the lowest free run, no answer means
that there is none. -/
theorem Scanned.scan_spec {n : ℕ} (hw : 0 < want) (hlen : len < want) :
    (∀ r, scan used want n pos start len = some r → lo ≤ r ∧ r + want ≤ pos + n ∧
      Run used r want ∧ ∀ r', lo ≤ r' → r' < r → ¬ Run used r' want) ∧
    (scan used want n pos start len = none →
      ∀ r, lo ≤ r → r + want ≤ pos + n → ¬ Run used r want) := by
  -- induction on the units left to visit, with the invariant for the current one
  induction n generalizing pos start len with
  | zero => exact ⟨fun r hr => absurd hr (by simp [scan]), fun _ => h.none_before⟩
  | succ n ih =>
    have hnext : pos + 1 + n = pos + (n + 1) := by omega
    unfold scan
    cases hu : used pos with
    | true =>
      have ih' := ih (h.skip hw hu) hw
      rw [hnext] at ih'
      simpa using ih'
    | false =>
      simp only [Bool.false_eq_true, if_false]
      by_cases hfull : len + 1 = want
      · obtain ⟨hlo, hend, hrun⟩ := h.found hu hfull
        rw [if_pos hfull]
        refine ⟨fun r hr => ?_, nofun⟩
        rw [← Option.some.inj hr]
        -- a lower run would have ended before `pos`
        refine ⟨hlo, by omega, hrun, fun r' hr' hlt => ?_⟩
        exact h.none_before r' hr' (by omega)
      · rw [if_neg hfull]
        have ih' := ih (h.extend hu (by omega)) (by omega)
        rw [hnext] at ih'
        exact ih'

end

/-- **First fit.** An answer of the search is a free run in the area, and the lowest one. -/
theorem scan_some {hi r : ℕ} (hw : 0 < want)
    (h : scan used want (hi - lo) lo lo 0 = some r) : lo ≤ r ∧ r + want ≤ hi ∧ Run used r want ∧
      ∀ r', lo ≤ r' → r' < r → ¬ Run used r' want := by
  obtain ⟨hlo, hend, hrun, hmin⟩ :=
    ((Scanned.init used hw lo).scan_spec hw hw).1 r h
  exact ⟨hlo, by omega, hrun, hmin⟩

/-- **Completeness.** Without an answer there is no free run in the area. -/
theorem scan_none {hi : ℕ} (hw : 0 < want) (h : scan used want (hi - lo) lo lo 0 = none) :
    ∀ r, lo ≤ r → r + want ≤ hi → ¬ Run used r want := by
  intro r hr hend
  exact ((Scanned.init used hw lo).scan_spec hw hw).2 h r hr (by omega)

/-! ### Search by measuring runs -/

/-- The units of the free run at `pos`, of which `run` are counted and at most `left` are still
wanted. -/
def measure (used : ℕ → Bool) (hi pos : ℕ) : ℕ → ℕ → ℕ
  | 0, run => run
  | left + 1, run =>
    if pos + run < hi ∧ used (pos + run) = false then measure used hi pos left (run + 1) else run

/-- The search from `pos` up to `hi`, in at most `n` rounds. -/
def seek (used : ℕ → Bool) (want hi : ℕ) : ℕ → ℕ → Option ℕ
  | 0, _ => none
  | n + 1, pos =>
    if pos < hi then
      let run := measure used hi pos want 0
      if run = want then some pos else seek used want hi n (pos + run + 1)
    else none

/-- What is measured is a free run, and one that is shorter than wanted ends at a used unit or at
the end of the area. -/
theorem measure_spec {hi run : ℕ} (left : ℕ) (hrun : Run used pos run) (hhi : pos + run ≤ hi) :
    ∃ n, measure used hi pos left run = run + n ∧ n ≤ left ∧ Run used pos (run + n) ∧
      pos + (run + n) ≤ hi ∧
      (n < left → pos + (run + n) < hi → used (pos + (run + n)) = true) := by
  induction left generalizing run with
  | zero => exact ⟨0, rfl, Nat.le_refl _, hrun, hhi, fun h => absurd h (by omega)⟩
  | succ left ih =>
    unfold measure
    by_cases h : pos + run < hi ∧ used (pos + run) = false
    · have hrun' : Run used pos (run + 1) := by
        intro k h1 h2
        rcases Nat.lt_or_ge k (pos + run) with hk | hk
        · exact hrun k h1 hk
        · rw [show k = pos + run by omega]; exact h.2
      obtain ⟨n, hn, hle, hr, hb, hend⟩ := ih hrun' (by omega)
      rw [if_pos h, hn]
      refine ⟨n + 1, by omega, by omega, ?_, by omega, fun hlt hb' => ?_⟩
      · rwa [show run + (n + 1) = run + 1 + n by omega]
      · rw [show run + (n + 1) = run + 1 + n by omega] at hb' ⊢
        exact hend (by omega) hb'
    · rw [if_neg h]
      refine ⟨0, rfl, Nat.zero_le _, hrun, hhi, fun _ hb => ?_⟩
      exact eq_true_of_ne_false fun hu => h ⟨hb, hu⟩

/-- A search that has found nothing below `pos` finds the lowest run, or there is none. -/
theorem seek_spec {hi n : ℕ} (hw : 0 < want) (hn : hi ≤ pos + n) (hlo : lo ≤ pos)
    (hbefore : ∀ r, lo ≤ r → r < pos → r + want ≤ hi → ¬ Run used r want) :
    (∀ r, seek used want hi n pos = some r → lo ≤ r ∧ r + want ≤ hi ∧ Run used r want ∧
      ∀ r', lo ≤ r' → r' < r → ¬ Run used r' want) ∧
    (seek used want hi n pos = none → ∀ r, lo ≤ r → r + want ≤ hi → ¬ Run used r want) := by
  induction n generalizing pos with
  | zero =>
    exact ⟨fun r hr => absurd hr (by simp [seek]), fun _ r hr hend => hbefore r hr (by omega) hend⟩
  | succ n ih =>
    unfold seek
    by_cases hpos : pos < hi
    · have hempty : Run used pos 0 := fun k h1 h2 => absurd h2 (by omega)
      obtain ⟨len, hlen, hle, hrun, hb, hend⟩ :=
        measure_spec want hempty (show pos + 0 ≤ hi by omega)
      rw [Nat.zero_add] at hlen hrun hb hend
      rw [if_pos hpos]
      rw [hlen]
      by_cases hfull : len = want
      · rw [if_pos hfull]
        subst hfull
        refine ⟨fun r hr => ?_, nofun⟩
        cases hr
        exact ⟨hlo, hb, hrun, fun r' hr' hlt => hbefore r' hr' hlt (by omega)⟩
      · rw [if_neg hfull]
        refine ih (by omega) (by omega) (fun r hr hlt hfit hr' => ?_)
        by_cases hrp : r < pos
        · exact hbefore r hr hrp hfit hr'
        · -- a run that begins in the skipped stretch would contain the unit that ended it
          have hu := hend (by omega) (by omega)
          exact absurd (hr' (pos + len) (by omega) (by omega)) (by rw [hu]; decide)
    · rw [if_neg hpos]
      exact ⟨nofun, fun _ r hr hfit => hbefore r hr (by omega) hfit⟩

/-- **First fit**, for the measuring search. -/
theorem seek_some {hi r : ℕ} (hw : 0 < want) (h : seek used want hi (hi - lo) lo = some r) :
    lo ≤ r ∧ r + want ≤ hi ∧ Run used r want ∧ ∀ r', lo ≤ r' → r' < r → ¬ Run used r' want :=
  (seek_spec hw (by omega) (Nat.le_refl lo) (fun r h1 h2 => absurd h2 (by omega))).1 r h

/-- **Completeness**, for the measuring search. -/
theorem seek_none {hi : ℕ} (hw : 0 < want) (h : seek used want hi (hi - lo) lo = none) :
    ∀ r, lo ≤ r → r + want ≤ hi → ¬ Run used r want :=
  (seek_spec hw (by omega) (Nat.le_refl lo) (fun r h1 h2 => absurd h2 (by omega))).2 h

/-! ### The least place -/

/-- `answer` is what a first-fit search of `[lo, hi)` returns: the lowest run, or nothing when there
is none. -/
structure Finds (used : ℕ → Bool) (lo hi want : ℕ) (answer : Option ℕ) : Prop where
  lowest : ∀ r, answer = some r → lo ≤ r ∧ r + want ≤ hi ∧ Run used r want ∧
    ∀ r', lo ≤ r' → r' < r → ¬ Run used r' want
  complete : answer = none → ∀ r, lo ≤ r → r + want ≤ hi → ¬ Run used r want

theorem scan_finds {hi : ℕ} (hw : 0 < want) :
    Finds used lo hi want (scan used want (hi - lo) lo lo 0) :=
  ⟨fun _ => scan_some hw, scan_none hw⟩

theorem seek_finds {hi : ℕ} (hw : 0 < want) :
    Finds used lo hi want (seek used want hi (hi - lo) lo) :=
  ⟨fun _ => seek_some hw, seek_none hw⟩

namespace Finds

variable {hi : ℕ} {answer : Option ℕ}

theorem isLeast (h : Finds used lo hi want answer) {r : ℕ} (hr : answer = some r) :
    IsLeast (fits used lo hi want) r := by
  obtain ⟨hlo, hhi, hrun, hmin⟩ := h.lowest r hr
  refine ⟨⟨hlo, hhi, hrun⟩, ?_⟩
  rintro r' ⟨hlo', -, hrun'⟩
  exact Nat.le_of_not_lt fun hlt => hmin r' hlo' hlt hrun'

theorem eq_none_iff (h : Finds used lo hi want answer) :
    answer = none ↔ fits used lo hi want = ∅ := by
  constructor
  · intro hnone
    rw [Set.eq_empty_iff_forall_notMem]
    rintro r ⟨hlo, hhi, hrun⟩
    exact h.complete hnone r hlo hhi hrun
  · intro hempty
    rw [Option.eq_none_iff_forall_ne_some]
    intro r hr
    have hmem := (h.isLeast hr).1
    rw [hempty] at hmem
    exact hmem

theorem exists_of_nonempty (h : Finds used lo hi want answer)
    (hne : (fits used lo hi want).Nonempty) :
    ∃ r, answer = some r ∧ IsLeast (fits used lo hi want) r := by
  obtain ⟨r, hr⟩ := Option.ne_none_iff_exists'.mp
    (fun hnone => hne.ne_empty (h.eq_none_iff.mp hnone))
  exact ⟨r, hr, h.isLeast hr⟩

end Finds

end FirstFit
