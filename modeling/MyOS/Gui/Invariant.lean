import MyOS.Gui.System

/-!
# Invariants of the windows

The handlers of `GuiSystem` are built from a few operations on windows. A property of the desktop
that these keep (`Stable`) is kept by an event (`Stable.handleEvent`) and by a run (`Stable.run`). A
property of single windows is one for the desktop if what the applications do to a window keeps it
(`Kept`, `Kept.run`). Two instances are used: on a large screen every window fits (`fits_kept`,
`windows_usable`), and no window is above the counter (`z_le_kept`).
-/

namespace MyOS.Gui

open Input (GuiEvent)

/-! ### Properties of the desktop -/

/-- A property of the desktop that is kept by the operations on windows from which the handlers are
built. It speaks of the windows, the metrics and the number of increments of `z_counter_`; the other
fields are free. -/
structure Stable (P : GuiSystem → Prop) : Prop where
  same : ∀ {s t}, P s → t.metrics = s.metrics → t.windows = s.windows →
    t.increments = s.increments → P t
  bump : ∀ {s}, P s → P s.bump
  unfocusAll : ∀ {s}, P s → P s.unfocusAll
  focusApp : ∀ {s} app, P s → P (s.focusApp app)
  openApp : ∀ {s} app, P s → P (s.openApp app)
  toggleMaximizeApp : ∀ {s} app, P s → P (s.toggleMaximizeApp app)
  openNotepad : ∀ {s}, P s → P ((s.bump.modify .notepad
    (NotepadApp.openWindow s.bump.metrics s.bump.zCounter)).focusApp (some .notepad))
  minimize : ∀ {s} a, P s → P (s.modify a Window.minimize)
  close : ∀ {s} a, P s → P (s.modify a Window.close)
  updateDrag : ∀ {s} a x y, P s → P (s.modify a (s.wm.updateDrag s.metrics x y))
  updateResize : ∀ {s} a x y, P s → P (s.modify a (updateResize s.metrics x y))
  runInTerminal : ∀ {s} w, P s → P (s.runInTerminal w)
  typeKey : ∀ {s} w key, P s → P (s.typeKey w key)

namespace Stable

variable {P : GuiSystem → Prop} (S : Stable P) {s : GuiSystem}

include S

section

variable (h : P s)
include h

theorem runProgram (p : Program) : P (s.runProgram p) :=
  GuiSystem.runProgram_induction (fun _ a => S.openApp (some a)) h p

theorem launchAppElf (p : Program) (app : Option AppId) :
    P (s.launchAppElf p app).1 := by
  cases app with
  | none => exact h
  | some a => exact S.runProgram h p

theorem openFileInNotepad (w : World) (i : ℕ) :
    P (s.openFileInNotepad w i).1 := by
  unfold GuiSystem.openFileInNotepad
  split
  · exact h
  · dsimp only
    split
    · exact S.bump h
    · split
      · exact S.bump h
      · exact S.openNotepad h

theorem openFirstTextFileInNotepad (w : World) :
    P (s.openFirstTextFileInNotepad w).1 := by
  unfold GuiSystem.openFirstTextFileInNotepad
  split
  · exact S.openFileInNotepad h w _
  · exact h

theorem runFileFromExplorer (w : World) (i : ℕ) :
    P (s.runFileFromExplorer w i).1 := by
  have hlaunch : ∀ path, P (s.launchGuiProgramIfSupported w path).1 := by
    intro path
    unfold GuiSystem.launchGuiProgramIfSupported
    split
    · exact S.runProgram h _
    · exact h
  unfold GuiSystem.runFileFromExplorer
  split
  · exact h
  · next f _ =>
    split
    · exact S.openFileInNotepad h w i
    · split
      · dsimp only
        split
        · exact hlaunch f.name
        · exact S.runInTerminal w (hlaunch f.name)
      · exact h

theorem maybeOpenFileFromExplorer (w : World) (x y : ℤ) :
    P (s.maybeOpenFileFromExplorer w x y) := by
  unfold GuiSystem.maybeOpenFileFromExplorer
  split
  · exact h
  · next i _ =>
    split
    · exact S.same (S.runFileFromExplorer h w i) rfl rfl rfl
    · exact S.same h rfl rfl rfl

theorem handleLeftPress (x y : ℤ) : P (s.handleLeftPress x y) := by
  -- beginning a drag or a resize does not touch the windows
  have hgrab : ∀ t : GuiSystem, P t → P (t.grab x y) := by
    intro t ht
    unfold GuiSystem.grab
    split
    · exact ht
    · split_ifs <;> exact S.same ht rfl rfl rfl
  refine hgrab _ ?_
  set t := s.recordPress x y
  have ht : P t := S.same h rfl rfl rfl
  split
  · exact S.same (S.focusApp _ ht) rfl rfl rfl
  · exact ht

theorem click (w : World) (x y : ℤ) (hit : HitResult) : P (s.click w x y hit) := by
  unfold GuiSystem.click
  split
  · unfold GuiSystem.closeApp
    cases hit.app with
    | none => exact S.same h rfl rfl rfl
    | some a => exact S.same (S.close a h) rfl rfl rfl
  · exact S.toggleMaximizeApp _ h
  · cases hit.app with
    | none => exact h
    | some a => exact S.minimize a h
  · split
    · exact S.maybeOpenFileFromExplorer h w x y
    · exact h
  · exact S.same h rfl rfl rfl
  · exact S.openApp _ h
  · exact S.launchAppElf h _ _
  · unfold GuiSystem.clickIcon
    split
    · exact S.same (S.launchAppElf h w.launched hit.app) rfl rfl rfl
    · exact S.same h rfl rfl rfl
  · exact S.same (S.unfocusAll h) rfl rfl rfl
  all_goals exact h

theorem handleLeftRelease (w : World) (x y : ℤ) : P (s.handleLeftRelease w x y) := by
  unfold GuiSystem.handleLeftRelease
  set t := if s.mousePressHit.target = .none then s.recordPress x y else s with ht
  have hhold : P t := by
    rw [ht]
    split
    · exact S.same h rfl rfl rfl
    · exact h
  have hend : P { t with wm := t.wm.endPointerAction } := S.same hhold rfl rfl rfl
  dsimp only
  unfold GuiSystem.endPress
  split
  · exact S.click hend w x y _
  · exact S.same hhold rfl rfl rfl

theorem handleMouseDrag (x y : ℤ) : P (s.handleMouseDrag x y) := by
  unfold GuiSystem.handleMouseDrag
  split
  · exact h
  · next a _ =>
    have hdrag : P (if s.wm.dragging then s.modify a (s.wm.updateDrag s.metrics x y) else s) := by
      split
      · exact S.updateDrag a x y h
      · exact h
    have hresize : ∀ t : GuiSystem, P t →
        P (if t.wm.resizing then t.modify a (Gui.updateResize t.metrics x y) else t) := by
      intro t ht
      split
      · exact S.updateResize a x y ht
      · exact ht
    exact hresize _ hdrag

/-- **One event keeps the property.** -/
theorem handleEvent (w : World) (e : GuiEvent) : P (s.handleEvent w e) := by
  unfold GuiSystem.handleEvent
  split
  · split
    · unfold GuiSystem.handleKey
      split_ifs
      · exact S.launchAppElf h _ _
      · exact S.launchAppElf h _ _
      · exact S.launchAppElf h _ _
      · exact S.launchAppElf h _ _
      · exact S.openFirstTextFileInNotepad (S.launchAppElf h _ _) w
      · exact S.typeKey w e.key h
    · exact h
  · split
    · exact S.handleLeftPress h _ _
    · exact S.handleLeftRelease h w _ _
  · split
    · exact S.handleMouseDrag h _ _
    · exact h
  all_goals exact h

end

/-- **Every run keeps the property.** -/
theorem run {d : GuiSystem.Screen} (hinit : P (GuiSystem.fresh.guiInitialize d))
    (events : List (World × GuiEvent)) : P (GuiSystem.run d events) :=
  GuiSystem.run_induction hinit (fun _ w e h => S.handleEvent h w e) events

end Stable

/-! ### Properties of single windows -/

/-- `P n a w` is kept by what the applications do to their windows on a screen with metrics `m`;
`n` is the number of increments of `z_counter_`. A window gets the current `z_counter_` as its
place in the stack, or keeps its own. -/
structure Kept (m : Metrics) (P : ℕ → AppId → Window → Prop) : Prop where
  bump : ∀ {n a w}, P n a w → P (n + 1) a w
  focus : ∀ {n a w}, P n a w → P n a (w.focus (zAfter n))
  unfocus : ∀ {n a w}, P n a w → P n a w.unfocus
  minimize : ∀ {n a w}, P n a w → P n a w.minimize
  close : ∀ {n a w}, P n a w → P n a w.close
  toggleMaximize : ∀ {n a w}, P n a w → P n a (w.toggleMaximize m (zAfter n))
  openWindow : ∀ {n a w z}, P n a w → z = zAfter n ∨ z = w.z → P n a (openWindow a m z w)
  updateDrag : ∀ {n a w} (wm : WindowManager) (x y : ℤ), P n a w → P n a (wm.updateDrag m x y w)
  updateResize : ∀ {n a w} (x y : ℤ), P n a w → P n a (updateResize m x y w)

/-- All windows of a desktop with metrics `m` have the property. -/
structure Holds (m : Metrics) (P : ℕ → AppId → Window → Prop) (s : GuiSystem) : Prop where
  metrics : s.metrics = m
  window : ∀ a, P s.increments a (s.windows a)

namespace Kept

variable {m : Metrics} {P : ℕ → AppId → Window → Prop} {s : GuiSystem}

/-- The lemma for every handler: all but the windows, the metrics and the counter is free. -/
theorem of_same {t : GuiSystem} (h : Holds m P s) (hm : t.metrics = s.metrics)
    (hw : t.windows = s.windows) (hn : t.increments = s.increments) : Holds m P t := by
  refine ⟨hm.trans h.metrics, fun a => ?_⟩
  rw [hw, hn]
  exact h.window a

theorem modify (h : Holds m P s) {a : AppId} {f : Window → Window}
    (hf : P s.increments a (f (s.windows a))) : Holds m P (s.modify a f) := by
  refine ⟨h.metrics, fun b => ?_⟩
  by_cases hb : b = a
  · subst hb
    rw [GuiSystem.modify_same]
    exact hf
  · rw [GuiSystem.modify_other _ hb]
    exact h.window b

variable (K : Kept m P)

include K

section Windows

variable (h : Holds m P s)
include h

theorem bumped : Holds m P s.bump := ⟨h.metrics, fun a => K.bump (h.window a)⟩

theorem unfocusAll : Holds m P s.unfocusAll :=
  ⟨h.metrics, fun a => K.unfocus (h.window a)⟩

theorem focusApp (app : Option AppId) : Holds m P (s.focusApp app) := by
  cases app with
  | none => exact K.unfocusAll h
  | some a =>
    have hb := K.bumped (K.unfocusAll h)
    exact modify hb (K.focus (hb.window a))

/-- An application opens its window, at the next place of the stack. -/
theorem opened (a : AppId) :
    Holds m P (s.bump.modify a (Gui.openWindow a s.bump.metrics s.bump.zCounter)) := by
  have hb := K.bumped h
  rw [hb.metrics]
  exact modify hb (K.openWindow (hb.window a) (.inl rfl))

theorem openApp (app : Option AppId) : Holds m P (s.openApp app) := by
  cases app with
  | none => exact of_same (K.focusApp h none) rfl rfl rfl
  | some a => exact of_same (K.focusApp (K.opened h a) (some a)) rfl rfl rfl

theorem runProgram (p : Program) : Holds m P (s.runProgram p) :=
  GuiSystem.runProgram_induction (P := Holds m P) (fun _ a ht => K.openApp ht (some a)) h p

theorem toggleMaximizeApp (app : Option AppId) : Holds m P (s.toggleMaximizeApp app) := by
  cases app with
  | none => exact K.focusApp h none
  | some a =>
    have hb := K.bumped h
    refine K.focusApp (modify hb ?_) (some a)
    rw [hb.metrics]
    exact K.toggleMaximize (hb.window a)

/-- An open terminal ignores the metrics it is given. -/
theorem terminalRunProgram (w : World) {metrics : Metrics} {z : ℕ}
    (hz : z = zAfter s.increments ∨ z = (s.windows .terminal).z)
    (hm : metrics = m ∨ (s.windows .terminal).isOpen = true) :
    Holds m P (s.terminalRunProgram w metrics z) := by
  refine K.runProgram (modify h ?_) _
  have hopen := K.openWindow (h.window .terminal) hz
  rcases hm with rfl | hopened
  · exact hopen
  · have hsame : TerminalApp.openWindow metrics z (s.windows .terminal) =
        TerminalApp.openWindow m z (s.windows .terminal) := by
      simp only [TerminalApp.openWindow, hopened, if_true]
    rw [hsame]
    exact hopen

theorem runInTerminal (w : World) : Holds m P (s.runInTerminal w) := by
  have hb := K.bumped (K.focusApp (K.opened h .terminal) (some .terminal))
  exact K.terminalRunProgram hb w (.inl rfl) (.inl hb.metrics)

theorem terminalHandleKey (w : World) (key : UInt8) :
    Holds m P (s.terminalHandleKey w key s.zCounter) := by
  unfold GuiSystem.terminalHandleKey
  split_ifs with hF1 hscroll hvisible hrun
  · refine modify h ?_
    rw [h.metrics]
    exact K.openWindow (h.window .terminal) (.inl rfl)
  · exact h
  · exact h
  · have hfocus : Holds m P (s.modify .terminal (Window.focus s.zCounter)) :=
      modify h (K.focus (h.window .terminal))
    refine K.terminalRunProgram hfocus w (.inr rfl) (.inr ?_)
    -- the terminal is visible, so open
    have hopen : (s.windows .terminal).isOpen = true := by
      cases ho : (s.windows .terminal).isOpen with
      | true => rfl
      | false => exact absurd (by rw [Window.visible, ho, Bool.false_and]) hvisible
    rw [GuiSystem.modify_same, Window.focus, if_pos hopen]
    exact hopen
  · exact modify h (K.focus (h.window .terminal))

theorem typeKey (w : World) (key : UInt8) : Holds m P (s.typeKey w key) := by
  unfold GuiSystem.typeKey
  split
  · exact h
  · have hkey := K.terminalHandleKey (K.bumped h) w key
    dsimp only
    split
    · have h1 := modify hkey (K.unfocus (hkey.window .files))
      have h2 := modify h1 (K.unfocus (h1.window .monitor))
      exact modify h2 (K.unfocus (h2.window .about))
    · exact hkey

end Windows

/-- The operations keep the property for all windows. -/
theorem stable : Stable (Holds m P) where
  same h hm hw hn := of_same h hm hw hn
  bump h := K.bumped h
  unfocusAll h := K.unfocusAll h
  focusApp app h := K.focusApp h app
  openApp app h := K.openApp h app
  toggleMaximizeApp app h := K.toggleMaximizeApp h app
  openNotepad h := K.focusApp (K.opened h .notepad) (some .notepad)
  minimize a h := modify h (K.minimize (h.window a))
  close a h := modify h (K.close (h.window a))
  updateDrag a x y h := modify h (h.metrics ▸ K.updateDrag _ x y (h.window a))
  updateResize a x y h := modify h (h.metrics ▸ K.updateResize x y (h.window a))
  runInTerminal w h := K.runInTerminal h w
  typeKey w key h := K.typeKey h w key

end Kept

/-- **Every run keeps the property for all windows.** -/
theorem Kept.run {d : GuiSystem.Screen} {P : ℕ → AppId → Window → Prop} (K : Kept d.metrics P)
    (hinit : ∀ a, P 0 a (windowInitialize (defaultGeometry a d.metrics)))
    (events : List (World × GuiEvent)) (a : AppId) :
    P (GuiSystem.run d events).increments a ((GuiSystem.run d events).windows a) :=
  (K.stable.run ⟨rfl, hinit⟩ events).window a

/-! ### Windows fit the screen -/

theorem fits_kept {m : Metrics} (hm : m.Large) : Kept m fun _ _ w => w.Fits m where
  bump h := h
  focus h := h.focus _
  unfocus h := ⟨h.rect, h.restore⟩
  minimize h := ⟨h.rect, h.restore⟩
  close h := ⟨h.rect, h.restore⟩
  toggleMaximize h := h.toggleMaximize hm _
  openWindow h _ := h.openWindow hm _ _
  updateDrag wm x y h := h.updateDrag hm wm x y
  updateResize x y h := h.updateResize hm x y

theorem GuiSystem.Screen.large (d : GuiSystem.Screen) (hw : 640 ≤ d.width.toNat)
    (hh : 480 ≤ d.height.toNat) : d.metrics.Large where
  width := hw
  width_lt := d.width.toNat_lt
  height := hh
  height_lt := d.height.toNat_lt
  taskbar := if_pos hh

/-- **Windows stay usable.** On a screen of at least 640×480 pixels, whatever the events are, every
window and its saved rectangle lie on the desktop above the taskbar and have at least the minimal
size. The coordinates of an event are arbitrary, but the sums that the window manager makes of them
do not overflow here as those of the source's `int32_t` do for a pointer near the ends of that type;
`mouse.c` keeps the pointer on the screen. -/
theorem windows_usable (d : GuiSystem.Screen) (hw : 640 ≤ d.width.toNat)
    (hh : 480 ≤ d.height.toNat) (events : List (World × GuiEvent)) (a : AppId) :
    let win := (GuiSystem.run d events).windows a
    ∀ r ∈ [win.rect, win.restore],
      0 ≤ r.x ∧ 0 ≤ r.y ∧ r.x + r.w ≤ d.width.toNat ∧ r.y + r.h ≤ (d.height.toNat : ℤ) - 30 ∧
        windowMinW ≤ r.w ∧ windowMinH ≤ r.h := by
  intro win r hr
  have hm := d.large hw hh
  have hfit : win.Fits d.metrics := (fits_kept hm).run
    (fun b => ⟨defaultGeometry_fits hm b, defaultGeometry_fits hm b⟩) events a
  have hrect : r.Fits d.metrics := by
    simp only [List.mem_cons, List.not_mem_nil, or_false] at hr
    rcases hr with rfl | rfl
    · exact hfit.rect
    · exact hfit.restore
  have hbottom := hrect.bottom
  rw [hm.taskbar] at hbottom
  exact ⟨hrect.left, hrect.top, hrect.right, hbottom, hrect.wide, hrect.high⟩

/-- The smallest such screen: F1 opens the terminal, and its title bar is dragged far to the left
and down. -/
theorem windows_usable_terminal :
    let d : GuiSystem.Screen := ⟨640, 480⟩
    let drag := (GuiSystem.button true (-900) 900).map id fun e => { e with type := .mouseMove }
    let events := [GuiSystem.launch GuiSystem.keyF1 1, GuiSystem.button true 100 50, drag]
    let win := (GuiSystem.run d events).windows .terminal
    win.rect = ⟨0, 90, 544, 360⟩ ∧ win.rect.y + win.rect.h ≤ 480 - 30 := by
  intro d drag events win
  have husable := windows_usable d (by decide) (by decide) events .terminal win.rect
    (List.mem_cons_self ..)
  exact ⟨by decide +kernel, husable.2.2.2.1⟩

/-! ### The stack -/

/-- No window is above `z_counter_`, as long as that does not wrap. -/
theorem z_le_kept (m : Metrics) : Kept m fun n _ w => w.z ≤ 1 + n := by
  -- a window in front has the counter's value, the others keep theirs
  have hz : ∀ n, zAfter n ≤ 1 + n := fun n => Nat.mod_le _ _
  have hfocus : ∀ {n z : ℕ} {w : Window}, w.z ≤ 1 + n → z ≤ 1 + n → (w.focus z).z ≤ 1 + n := by
    intro n z w hw hz
    unfold Window.focus
    split
    · exact hz
    · exact hw
  refine
    { bump := fun h => by omega
      focus := fun h => hfocus h (hz _)
      unfocus := fun h => h
      minimize := fun h => h
      close := fun h => h
      toggleMaximize := ?_
      openWindow := ?_
      updateDrag := fun _ _ _ h => h
      updateResize := fun _ _ h => h }
  · intro n a w h
    unfold Window.toggleMaximize
    split
    · exact hfocus (w := { w with mode := .normal, rect := w.restore }) h (hz _)
    · exact hfocus (w := { w with restore := w.rect, mode := .maximized, rect := _ }) h (hz _)
  · intro n a w z h hz'
    -- opening uses the counter, or the value the window has
    have hz'' : z ≤ 1 + n := by
      rcases hz' with rfl | rfl
      · exact hz n
      · exact h
    rw [openWindow_eq]
    exact hz''

end MyOS.Gui
