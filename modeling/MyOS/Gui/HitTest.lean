import MyOS.Gui.Paint
import MyOS.Lib.Scan

/-!
# What is clicked and what is seen

`draw` paints the windows in a fixed order, the terminal last; `hit_test` takes the window with the
greatest `z`. They find the same window exactly if the one that is drawn last also has the greatest
`z` (`hit_is_drawn`). After Files has been opened over the terminal the terminal is seen and Files
is clicked (`files_clicked`).

A window is hit inside of its rectangle only, but it paints beside it too, when a text is longer
than the window. So what is drawn over a point is decided by the calls of `draw` (`Paints`), and the
rectangle is part of that (`Covers.paints`).
-/

namespace MyOS.Gui

namespace GuiSystem

open Scan

variable {s : GuiSystem} {x y : ℤ}

/-- The window of `a` is visible and covers the point. -/
def Covers (s : GuiSystem) (x y : ℤ) (a : AppId) : Prop :=
  (s.windows a).visible = true ∧ (s.windows a).rect.contains x y = true

instance (s : GuiSystem) (x y : ℤ) : DecidablePred (s.Covers x y) := fun _ =>
  inferInstanceAs (Decidable (_ ∧ _))

/-- The order in which `draw` paints the windows. -/
def drawOrder : List AppId := [.about, .notepad, .monitor, .files, .terminal]

/-- `draw` of the application paints over the point. -/
def Paints (s : GuiSystem) (surface : Surface) (c : Contents) (x y : ℤ) (a : AppId) : Prop :=
  (s.windows a).visible = true ∧ ∃ call ∈ drawApp c (s.windows a) a, call.Paints surface x y

instance (s : GuiSystem) (surface : Surface) (c : Contents) (x y : ℤ) :
    DecidablePred (s.Paints surface c x y) := fun _ => inferInstanceAs (Decidable (_ ∧ _))

/-- `GuiSystem::draw` at one point of the back buffer: each visible window paints over what is
there, and the one that is painted last is seen. -/
def draw (s : GuiSystem) (surface : Surface) (c : Contents) (x y : ℤ) : Option AppId :=
  drawOrder.foldl (keepLast (s.Paints surface c x y)) none

/-- A window that covers a point of the surface paints there. -/
theorem Covers.paints {surface : Surface} {a : AppId} (h : s.Covers x y a)
    (hr : (s.windows a).rect.Small) (hon : surface.Has x y) (c : Contents) :
    s.Paints surface c x y a :=
  ⟨h.1, _, fill_mem_drawApp c _ a, (Surface.fillRegion_contains hr).mpr ⟨h.2, hon⟩⟩

theorem mem_drawOrder (a : AppId) : a ∈ drawOrder := by cases a <;> decide

theorem mem_hitOrder (a : AppId) : a ∈ hitOrder := by cases a <;> decide

/-- The window that is seen is the one drawn after all others that paint over the point. -/
theorem draw_iff (s : GuiSystem) (surface : Surface) (c : Contents) (x y : ℤ) (a : AppId) :
    s.draw surface c x y = some a ↔ s.Paints surface c x y a ∧
      ∀ b, s.Paints surface c x y b → b ≠ a → drawOrder.idxOf b < drawOrder.idxOf a := by
  rw [draw, foldl_keepLast_iff (by decide)]
  constructor
  · rintro ⟨-, ha, hafter⟩
    exact ⟨ha, fun b => hafter b (mem_drawOrder b)⟩
  · rintro ⟨ha, hafter⟩
    exact ⟨mem_drawOrder a, ha, fun b _ => hafter b⟩

/-- The place of a window in the stack, as `hit_test` reads it. -/
def level (s : GuiSystem) (a : AppId) : ℤ := i32 (s.windows a).z

/-- The window of `a` is above that of `b` for `hit_test`: its `z` is greater, or they are equal and
its turn comes first. -/
def Above (s : GuiSystem) (a b : AppId) : Prop :=
  s.level b < s.level a ∨ s.level b = s.level a ∧ hitOrder.idxOf a < hitOrder.idxOf b

/-- The loop of `hit_test` finds the covering window that is above the others. -/
theorem hitWindows_iff (s : GuiSystem) (x y : ℤ) (a : AppId) :
    (s.hitWindows x y).app = some a ↔ s.Covers x y a ∧ 0 ≤ s.level a ∧
      ∀ b, s.Covers x y b → b ≠ a → s.Above a b := by
  have hscan : ((s.hitWindows x y).best, (s.hitWindows x y).app) =
      hitOrder.foldl (keepMax (s.Covers x y) s.level) (-1, none) := by
    refine (List.foldl_hom (fun b : Best => (b.best, b.app)) fun b a => ?_).symm
    have harea : hitWindow (s.windows a) x y ≠ .none ↔ s.Covers x y a := by
      rw [Ne, hitWindow_eq_none_iff, not_not]
      rfl
    unfold keepMax Best.visit level
    by_cases h : s.Covers x y a ∧ b.best < i32 (s.windows a).z
    · rw [if_pos h, if_pos ⟨harea.2 h.1, h.2⟩]
    · rw [if_neg h, if_neg fun h' => h ⟨harea.1 h'.1, h'.2⟩]
  have happ : (s.hitWindows x y).app =
      (hitOrder.foldl (keepMax (s.Covers x y) s.level) (-1, none)).2 := congrArg Prod.snd hscan
  rw [happ, foldl_keepMax_iff]
  constructor
  · rintro ⟨hpos, -, ha, habove⟩
    exact ⟨ha, by omega, fun b => habove b (mem_hitOrder b)⟩
  · rintro ⟨ha, hpos, habove⟩
    exact ⟨by omega, mem_hitOrder a, ha, fun b _ => habove b⟩

theorem hitTest_app (h : ∃ a, (s.hitWindows x y).app = some a) :
    (s.hitTest x y).app = (s.hitWindows x y).app := by
  obtain ⟨a, ha⟩ := h
  unfold hitTest
  dsimp only
  rw [ha]

/-- Some window over the point is above the others that can be hit there, and it is drawn after all
others that paint there. -/
structure OnTop (s : GuiSystem) (surface : Surface) (c : Contents) (x y : ℤ) (a : AppId) :
    Prop where
  covers : s.Covers x y a
  paints : s.Paints surface c x y a
  level : 0 ≤ s.level a
  above : ∀ b, s.Covers x y b → b ≠ a → s.Above a b
  last : ∀ b, s.Paints surface c x y b → b ≠ a → drawOrder.idxOf b < drawOrder.idxOf a

/-- A covering window whose `z` is not negative is found, or one above it. -/
theorem hitWindows_isSome (h : ∃ b, s.Covers x y b ∧ 0 ≤ s.level b) :
    ∃ a, (s.hitWindows x y).app = some a := by
  obtain ⟨b, hb, hpos⟩ := h
  rcases foldl_keepMax_cases (p := s.Covers x y) (f := s.level) hitOrder (-1, none) with
    ⟨_, hle⟩ | ⟨a, _, hlt, hwin⟩
  · have := hle b (mem_hitOrder b) hb
    omega
  · exact ⟨a, (hitWindows_iff s x y a).2 ⟨hwin.2.1, by dsimp only at hlt; omega,
      fun c => hwin.2.2 c (mem_hitOrder c)⟩⟩

end GuiSystem

open GuiSystem

/-- **What is clicked is what is seen, as far as the two orders agree.** If one window over the
point is above the others in `z` and drawn after all that paint there, then `hit_test` returns its
application, and it is the one that is seen. There is no other case, as long as a `z` over the point
is below 2³¹. The contents of the windows are arbitrary. -/
theorem hit_is_drawn (s : GuiSystem) (surface : Surface) (c : Contents) (x y : ℤ) :
    (∀ a, s.OnTop surface c x y a →
      (s.hitTest x y).app = some a ∧ s.draw surface c x y = some a) ∧
    ((∃ b, s.Covers x y b ∧ (s.windows b).z < 2 ^ 31) →
      (s.hitTest x y).app = s.draw surface c x y → ∃ a, s.OnTop surface c x y a) := by
  constructor
  · intro a ha
    have hhit : (s.hitWindows x y).app = some a :=
      (hitWindows_iff s x y a).2 ⟨ha.covers, ha.level, ha.above⟩
    exact ⟨(hitTest_app ⟨a, hhit⟩).trans hhit, (draw_iff s surface c x y a).2 ⟨ha.paints, ha.last⟩⟩
  · rintro ⟨b, hb, hz⟩ heq
    have hlevel : 0 ≤ s.level b := by
      rw [level, i32_eq (by omega) (by omega)]
      omega
    obtain ⟨a, hhit⟩ := hitWindows_isSome ⟨b, hb, hlevel⟩
    rw [hitTest_app ⟨a, hhit⟩, hhit] at heq
    obtain ⟨ha, hpos, habove⟩ := (hitWindows_iff s x y a).1 hhit
    obtain ⟨hpaints, hlast⟩ := (draw_iff s surface c x y a).1 heq.symm
    exact ⟨a, ha, hpaints, hpos, habove, hlast⟩

/-- Windows without a text of their own. -/
def noContents : Contents where
  names := []
  values _ := 0
  notes := []
  path := []
  dirty := false
  lastSaveOk := false
  text := ⟨fun _ => blankRow, 1, 0, 0, false, []⟩
  ticks := 0

/-- The monitor is opened over the window of About, and drawn over it. -/
theorem hit_is_drawn_monitor :
    let s := GuiSystem.run ⟨640, 480⟩ [launch keyF4 4, launch keyF3 3]
    s.Covers 200 150 .about ∧ (s.hitTest 200 150).app = some .monitor ∧
      s.draw vgaScreen noContents 200 150 = some .monitor := by
  refine ⟨by decide +kernel, (hit_is_drawn _ vgaScreen noContents 200 150).1 .monitor ?_⟩
  refine ⟨by decide +kernel, by decide +kernel, by decide +kernel, fun b hb hne => ?_,
    fun b hb hne => ?_⟩
  · cases b with
    | monitor => exact absurd rfl hne
    | about => exact .inl (by decide +kernel)
    | terminal | files | notepad => exact absurd hb (by decide +kernel)
  · cases b with
    | monitor => exact absurd rfl hne
    | about | notepad => decide
    | terminal | files => exact absurd hb (by decide +kernel)

/-- Files is opened over the terminal: the terminal is seen there, and Files is clicked. -/
theorem files_clicked :
    let s := GuiSystem.run ⟨640, 480⟩ [launch keyF1 1, launch keyF2 2]
    s.Covers 200 100 .files ∧ s.Covers 200 100 .terminal ∧
      (s.hitTest 200 100).app = some .files ∧
      s.draw vgaScreen noContents 200 100 = some .terminal := by
  refine ⟨by decide +kernel, by decide +kernel, by decide +kernel, ?_⟩
  refine (draw_iff _ _ _ _ _ _).2 ⟨by decide +kernel, fun b _ hne => ?_⟩
  -- the terminal is drawn last of all
  cases b with
  | terminal => exact absurd rfl hne
  | _ => decide

end MyOS.Gui
