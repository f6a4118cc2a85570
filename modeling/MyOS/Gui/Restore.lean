import MyOS.Gui.Window

/-!
# Maximizing and restoring a window

`toggle_maximize` saves the rectangle of the window and brings it back the next time. What the user
expects is `RestoresTo`: a window that is shown in normal mode has the rectangle it had before it
was maximized, whatever has been done to it in between, as long as it is not dragged, resized or
closed.

`WindowMode` has one value for a minimized window, so minimizing a maximized window forgets that the
rectangle is not the window's own: `open_window` of the terminal and of the notepad then shows the
large rectangle in normal mode, and `toggle_maximize` saves it. The notepad forgets it already when
it is reopened while it is maximized. There is no other way (`maximize_restored_iff`): the rectangle
comes back exactly as long as no step `Loses` it.
-/

namespace MyOS.Gui

/-- What is done to a window that stays open where it is. -/
inductive WindowOp where
  | toggleMaximize (z : ℕ)
  | minimize
  /-- `open_window` of the open window. -/
  | reopen (z : ℕ)

/-- An operation on the window of the application `a`. -/
def WindowOp.apply (a : AppId) (m : Metrics) (w : Window) : WindowOp → Window
  | .toggleMaximize z => w.toggleMaximize m z
  | .minimize => w.minimize
  | .reopen z => openWindow a m z w

/-- A sequence of operations. -/
def applyOps (a : AppId) (m : Metrics) (w : Window) (ops : List WindowOp) : Window :=
  ops.foldl (WindowOp.apply a m) w

/-- Whenever the window is visible in normal mode it has its own rectangle again. -/
def RestoresTo (a : AppId) (m : Metrics) (w : Window) (ops : List WindowOp) : Prop :=
  ∀ done, done <+: ops → (applyOps a m w done).visible = true →
    (applyOps a m w done).mode = .normal → (applyOps a m w done).rect = w.rect

/-- The rectangle of a maximized window. -/
def maximizedRect (m : Metrics) : Rect := ⟨2, 4, i32 (m.width - 4), i32 (m.height - m.taskbarH - 6)⟩

/-- The operation takes a maximized window out of its mode without restoring it. -/
def WindowOp.Loses (a : AppId) (w : Window) : WindowOp → Prop
  | .toggleMaximize _ => False
  | .minimize => w.mode = .maximized
  | .reopen _ => a = .notepad ∧ w.mode = .maximized

/-- No operation of the sequence loses the rectangle. -/
def Lossless (a : AppId) (m : Metrics) (w : Window) : List WindowOp → Prop
  | [] => True
  | op :: ops => ¬ op.Loses a w ∧ Lossless a m (op.apply a m w) ops

section Steps

variable {a : AppId} {m : Metrics} {r : Rect} {w : Window} {op : WindowOp} {ops : List WindowOp}

/-- The window still knows its rectangle `r`. -/
structure Keeps (m : Metrics) (r : Rect) (w : Window) : Prop where
  isOpen : w.isOpen = true
  own : w.mode ≠ .maximized → w.rect = r
  saved : w.mode = .maximized → w.rect = maximizedRect m ∧ w.restore = r

/-- The window takes the maximized rectangle for its own. -/
structure Forgot (m : Metrics) (w : Window) : Prop where
  isOpen : w.isOpen = true
  large : w.rect = maximizedRect m
  saved : w.mode = .maximized → w.restore = maximizedRect m

/-- `open_window` of an open window moves nothing; the mode depends on the class. -/
theorem openWindow_open (h : w.isOpen = true) (z : ℕ) :
    (openWindow a m z w).isOpen = true ∧ (openWindow a m z w).rect = w.rect ∧
      (openWindow a m z w).restore = w.restore ∧
      (openWindow a m z w).mode =
        if a = .notepad ∨ (a = .terminal ∧ w.mode = .minimized) then .normal else w.mode := by
  simp [openWindow_eq, openedMode, h]

/-- An operation that loses nothing keeps the rectangle. -/
theorem Keeps.step (h : Keeps m r w) (hop : ¬ op.Loses a w) : Keeps m r (op.apply a m w) := by
  cases op with
  | toggleMaximize z =>
    change Keeps m r (w.toggleMaximize m z)
    unfold Window.toggleMaximize
    split
    · rename_i hmax
      exact ⟨by simp [h.isOpen], fun _ => by simp [(h.saved hmax).2], fun hmode => by simp at hmode⟩
    · rename_i hmax
      refine ⟨by simp [h.isOpen], fun hmode => absurd (by simp) hmode, fun _ => ?_⟩
      simp [maximizedRect, h.own hmax]
  | minimize =>
    have hmode : w.mode ≠ .maximized := hop
    exact ⟨h.isOpen, fun _ => h.own hmode, fun hmin => nomatch hmin⟩
  | reopen z =>
    obtain ⟨ho, hrect, hrestore, hmode⟩ := openWindow_open (a := a) (m := m) h.isOpen z
    have hsame : (openWindow a m z w).mode = .maximized ↔ w.mode = .maximized := by
      rw [hmode]
      split
      · rename_i hcase
        refine ⟨fun hn => (nomatch hn), fun hmax => absurd hmax ?_⟩
        rcases hcase with ha | ⟨-, hmin⟩
        · exact fun hmax => hop ⟨ha, hmax⟩
        · rw [hmin]
          decide
      · rfl
    refine ⟨ho, fun hne => hrect.trans (h.own (mt hsame.mpr hne)), fun hmax => ?_⟩
    obtain ⟨hbig, hsaved⟩ := h.saved (hsame.mp hmax)
    exact ⟨hrect.trans hbig, hrestore.trans hsaved⟩

/-- An operation that loses the rectangle leaves the maximized one in its place. -/
theorem Keeps.lose (h : Keeps m r w) (hop : op.Loses a w) : Forgot m (op.apply a m w) := by
  cases op with
  | toggleMaximize z => exact hop.elim
  | minimize => exact ⟨h.isOpen, (h.saved hop).1, fun hmin => nomatch hmin⟩
  | reopen z =>
    obtain ⟨ho, hrect, -, hmode⟩ := openWindow_open (a := a) (m := m) h.isOpen z
    refine ⟨ho, hrect.trans (h.saved hop.2).1, fun hmax => ?_⟩
    rw [if_pos (.inl hop.1)] at hmode
    exact nomatch hmode.symm.trans hmax

/-- From then on nothing brings the rectangle back: every rectangle that is saved or restored is the
maximized one. -/
theorem Forgot.step (h : Forgot m w) (op : WindowOp) : Forgot m (op.apply a m w) := by
  cases op with
  | toggleMaximize z =>
    change Forgot m (w.toggleMaximize m z)
    unfold Window.toggleMaximize
    split
    · rename_i hmax
      exact ⟨by simp [h.isOpen], by simp [h.saved hmax], fun hmode => by simp at hmode⟩
    · exact ⟨by simp [h.isOpen], by simp [maximizedRect], fun _ => by simp [h.large]⟩
  | minimize => exact ⟨h.isOpen, h.large, fun hmin => nomatch hmin⟩
  | reopen z =>
    obtain ⟨ho, hrect, hrestore, hmode⟩ := openWindow_open (a := a) (m := m) h.isOpen z
    refine ⟨ho, hrect.trans h.large, fun hmax => hrestore.trans (h.saved ?_)⟩
    rw [show WindowOp.apply a m w (.reopen z) = openWindow a m z w from rfl, hmode] at hmax
    split at hmax
    · exact nomatch hmax
    · exact hmax

theorem Lossless.left {ops' : List WindowOp} (h : Lossless a m w (ops ++ ops')) :
    Lossless a m w ops := by
  induction ops generalizing w with
  | nil => trivial
  | cons op ops ih => exact ⟨h.1, ih h.2⟩

theorem Keeps.run (h : Keeps m r w) (hops : Lossless a m w ops) :
    Keeps m r (applyOps a m w ops) := by
  induction ops generalizing w with
  | nil => exact h
  | cons op ops ih => exact ih (h.step hops.1) hops.2

theorem Forgot.run (h : Forgot m w) (ops : List WindowOp) : Forgot m (applyOps a m w ops) := by
  induction ops generalizing w with
  | nil => exact h
  | cons op ops ih => exact ih (h.step op)

theorem Keeps.run_lossy (h : Keeps m r w) (hops : ¬ Lossless a m w ops) :
    Forgot m (applyOps a m w ops) := by
  induction ops generalizing w with
  | nil => exact absurd trivial hops
  | cons op ops ih =>
    by_cases hop : op.Loses a w
    · exact (h.lose hop).run ops
    · exact ih (h.step hop) fun hrest => hops ⟨hop, hrest⟩

end Steps

/-- **Maximize is undone by restore**, for as long as the rectangle is not lost: wherever the window
is seen in normal mode, no operation so far has minimized it while it was maximized, or reopened it
then if it is the notepad. A window whose own rectangle is the maximized one has nothing to lose. -/
theorem maximize_restored_iff (a : AppId) (m : Metrics) (w : Window) (hopen : w.isOpen = true)
    (hmode : w.mode = .normal) (ops : List WindowOp) :
    RestoresTo a m w ops ↔ w.rect = maximizedRect m ∨
      ∀ done, done <+: ops → (applyOps a m w done).visible = true →
        (applyOps a m w done).mode = .normal → Lossless a m w done := by
  have hkeeps : Keeps m w.rect w :=
    ⟨hopen, fun _ => rfl, fun hmax => nomatch hmode.symm.trans hmax⟩
  have hnormal : ∀ done, (applyOps a m w done).mode = .normal → Lossless a m w done →
      (applyOps a m w done).rect = w.rect := fun done hn hless =>
    (hkeeps.run hless).own (by rw [hn]; decide)
  constructor
  · intro hrestores
    by_cases hrect : w.rect = maximizedRect m
    · exact .inl hrect
    refine .inr fun done hdone hvisible hn => ?_
    by_contra hlossy
    exact hrect ((hrestores done hdone hvisible hn).symm.trans (hkeeps.run_lossy hlossy).large)
  · rintro (hrect | hless) done hdone hvisible hn
    · by_cases hlossless : Lossless a m w done
      · exact hnormal done hn hlossless
      · exact (hkeeps.run_lossy hlossless).large.trans hrect.symm
    · exact hnormal done hn (hless done hdone hvisible hn)

/-- The window of an application on a screen of 640×480 pixels, just opened. -/
def openedWindow (a : AppId) : Window :=
  openWindow a ⟨640, 480, 30⟩ 1
    (windowInitialize (defaultGeometry a ⟨640, 480, 30⟩))

/-- Maximized and restored, the terminal is where it was. -/
theorem maximize_restored_terminal : RestoresTo .terminal ⟨640, 480, 30⟩ (openedWindow .terminal)
      [.toggleMaximize 2, .toggleMaximize 3] := by
  refine (maximize_restored_iff .terminal _ _ (by decide) (by decide) _).mpr (.inr ?_)
  rintro done ⟨rest, hdone⟩ _ _
  have hless : Lossless .terminal ⟨640, 480, 30⟩ (openedWindow .terminal)
      [.toggleMaximize 2, .toggleMaximize 3] := ⟨id, id, trivial⟩
  rw [← hdone] at hless
  exact hless.left

/-- **A rectangle that does not come back.** Maximized, minimized and reopened, the terminal and the
notepad are shown in normal mode with the maximized rectangle; the file explorer stays minimized,
and the next two clicks on its maximize button do the same to it. -/
theorem maximize_not_restored : ¬ RestoresTo .terminal ⟨640, 480, 30⟩ (openedWindow .terminal)
      [.toggleMaximize 2, .minimize, .reopen 3] ∧
    ¬ RestoresTo .notepad ⟨640, 480, 30⟩ (openedWindow .notepad)
      [.toggleMaximize 2, .minimize, .reopen 3] ∧
    ¬ RestoresTo .files ⟨640, 480, 30⟩ (openedWindow .files)
      [.toggleMaximize 2, .minimize, .reopen 3, .toggleMaximize 4, .toggleMaximize 5] := by
  refine ⟨fun h => ?_, fun h => ?_, fun h => ?_⟩ <;>
    exact absurd (h _ List.prefix_rfl (by decide) (by decide)) (by decide)

end MyOS.Gui
