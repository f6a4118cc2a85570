import MyOS.Gui.Invariant

/-!
# The focus

At most one window has the focus, and it is open (`single_focus`). Most handlers end with
`focus_app`, which takes the focus from all windows before it gives it to one. The key path gives it
to the terminal and takes it from three of the other windows; this is enough, since the path is not
reached while notepad has the focus (`typeKey_single`).

`open_app` shows the application it opens, unless it is a `UtilityApp` whose window is minimized:
`UtilityApp::open_window` leaves the mode of an open window as it is (`open_shows_iff`,
`files_stay_minimized`).
-/

namespace MyOS.Gui

open Input (GuiEvent)

/-! ### Operations on one window -/

/-- A window without the focus has it after `focus` exactly if it is open. -/
theorem Window.unfocus_focus_focused (z : ℕ) (w : Window) :
    (w.unfocus.focus z).focused = w.isOpen := by
  unfold Window.focus Window.unfocus
  cases w.isOpen <;> rfl

theorem Window.focus_z {w : Window} (h : w.isOpen = true) (z : ℕ) : (w.focus z).z = z := by
  rw [Window.focus, if_pos h]

/-- `open_window` leaves the window open in each class. -/
theorem openWindow_isOpen (a : AppId) (m : Metrics) (z : ℕ) (w : Window) :
    (openWindow a m z w).isOpen = true := by
  rw [openWindow_eq]

/-- The applications of class `UtilityApp`. -/
def AppId.utility : AppId → Bool
  | .files | .monitor | .about => true
  | .terminal | .notepad => false

/-- Only `UtilityApp::open_window` leaves a window minimized: one that was open and minimized. -/
theorem openWindow_minimized_iff (a : AppId) (m : Metrics) (z : ℕ) (w : Window) :
    (openWindow a m z w).mode = .minimized ↔
      a.utility = true ∧ w.isOpen = true ∧ w.mode = .minimized := by
  cases h : w.isOpen <;> cases hm : w.mode <;> cases a <;>
    simp [openWindow_eq, openedMode, h, hm, AppId.utility]

/-- `TerminalApp::open_window` leaves the window visible. -/
theorem terminal_visible (m : Metrics) (z : ℕ) (w : Window) :
    (TerminalApp.openWindow m z w).visible = true := by
  have hopen : (TerminalApp.openWindow m z w).isOpen = true := openWindow_isOpen .terminal m z w
  have hmode : (TerminalApp.openWindow m z w).mode ≠ .minimized := fun h =>
    absurd ((openWindow_minimized_iff .terminal m z w).1 h).1 (by decide)
  rw [Window.visible, hopen, Bool.true_and, bne_iff_ne]
  exact hmode

namespace GuiSystem

variable {s : GuiSystem}

/-! ### At most one focus -/

/-- At most one window has the focus, and it is open. -/
def Single (s : GuiSystem) : Prop :=
  ∀ a, (s.windows a).focused = true →
    (s.windows a).isOpen = true ∧ ∀ b, (s.windows b).focused = true → b = a

/-- No window but that of `a` has the focus, and that one only if it is open. -/
def Only (a : AppId) (s : GuiSystem) : Prop :=
  ∀ b, (s.windows b).focused = true → b = a ∧ (s.windows b).isOpen = true

theorem Only.single {a : AppId} (h : Only a s) : Single s := fun b hb =>
  ⟨(h b hb).2, fun c hc => (h c hc).1.trans (h b hb).1.symm⟩

/-- An operation on a window that has the focus afterwards only if it had it before, and then stays
open. -/
theorem Single.modify (h : Single s) {a : AppId} {f : Window → Window}
    (hf : (f (s.windows a)).focused = true →
      (s.windows a).focused = true ∧ (f (s.windows a)).isOpen = (s.windows a).isOpen) :
    Single (s.modify a f) := by
  have hback : ∀ b, ((s.modify a f).windows b).focused = true → (s.windows b).focused = true ∧
        ((s.modify a f).windows b).isOpen = (s.windows b).isOpen := by
    intro b hb
    by_cases hba : b = a
    · subst hba
      rw [modify_same] at hb ⊢
      exact hf hb
    · rw [modify_other _ hba] at hb ⊢
      exact ⟨hb, rfl⟩
  intro b hb
  obtain ⟨hfocus, hopen⟩ := hback b hb
  exact ⟨hopen.trans (h b hfocus).1, fun c hc => (h b hfocus).2 c (hback c hc).1⟩

theorem unfocusAll_single (s : GuiSystem) : Single s.unfocusAll := fun _ ha =>
  absurd ha Bool.false_ne_true

/-- **`focus_app` leaves at most one focus**, whatever the state is before. -/
theorem focusApp_only (s : GuiSystem) (a : AppId) : Only a (s.focusApp (some a)) := by
  intro b hb
  by_cases hba : b = a
  · subst hba
    refine ⟨rfl, ?_⟩
    unfold focusApp at hb ⊢
    rw [modify_same] at hb ⊢
    exact (Window.focus_isOpen _ _).trans (Window.unfocus_focus_focused _ _ ▸ hb)
  · unfold focusApp at hb
    rw [modify_other _ hba] at hb
    cases hb

theorem focusApp_single (s : GuiSystem) (app : Option AppId) : Single (s.focusApp app) := by
  cases app with
  | none => exact unfocusAll_single s
  | some a => exact (focusApp_only s a).single

theorem openApp_single (s : GuiSystem) (app : Option AppId) : Single (s.openApp app) := by
  exact focusApp_single _ app

theorem runProgram_single (h : Single s) (p : Program) : Single (s.runProgram p) :=
  runProgram_induction (P := Single) (fun t a _ => openApp_single t (some a)) h p

/-- The terminal may be opened once more while no other window has the focus. -/
theorem Only.terminalRunProgram (h : Only .terminal s) (w : World) (m : Metrics) (z : ℕ) :
    Single (s.terminalRunProgram w m z) := by
  refine runProgram_single (Only.single (a := .terminal) fun b hb => ?_) _
  by_cases hb' : b = .terminal
  · subst hb'
    refine ⟨rfl, ?_⟩
    rw [modify_same]
    exact openWindow_isOpen .terminal m z _
  · rw [modify_other _ hb'] at hb
    exact absurd (h b hb).1 hb'

theorem runInTerminal_single (s : GuiSystem) (w : World) : Single (s.runInTerminal w) := by
  set t := s.bump.modify .terminal (TerminalApp.openWindow s.bump.metrics s.bump.zCounter)
  have honly : Only .terminal (t.focusApp (some .terminal)).bump := focusApp_only t .terminal
  exact honly.terminalRunProgram w _ _

/-! ### The key path -/

/-- What the key path leaves, apart from the three windows it takes the focus from: every focus is
on an open window, and not both on the terminal and on notepad. -/
structure Typed (s : GuiSystem) : Prop where
  opened : ∀ a, (s.windows a).focused = true → (s.windows a).isOpen = true
  apart : ¬((s.windows .terminal).focused = true ∧ (s.windows .notepad).focused = true)

theorem Single.typed (h : Single s) : Typed s :=
  ⟨fun a ha => (h a ha).1, fun hboth => by cases (h _ hboth.1).2 _ hboth.2⟩

theorem unfocusUtilities_windows (s : GuiSystem) (a : AppId) : s.unfocusUtilities.windows a =
      if a.utility then (s.windows a).unfocus else s.windows a := by
  cases a <;> simp [unfocusUtilities, modify, AppId.utility, Function.update]

/-- Without the three windows only terminal and notepad are left. -/
theorem Typed.single (h : Typed s) : Single s.unfocusUtilities := by
  have hback : ∀ a, (s.unfocusUtilities.windows a).focused = true →
      a.utility = false ∧ (s.windows a).focused = true := by
    intro a ha
    rw [unfocusUtilities_windows] at ha
    split at ha
    · cases ha
    · next hutility => exact ⟨Bool.eq_false_iff.2 hutility, ha⟩
  intro a ha
  obtain ⟨hua, hfa⟩ := hback a ha
  refine ⟨?_, fun b hb => ?_⟩
  · rw [unfocusUtilities_windows, hua]
    exact h.opened a hfa
  · obtain ⟨hub, hfb⟩ := hback b hb
    have hapart := h.apart
    cases a <;> cases b <;> simp_all [AppId.utility]

/-- A program keeps a visible terminal visible. -/
theorem runProgram_visible (h : (s.windows .terminal).visible = true) (p : Program) :
    ((s.runProgram p).windows .terminal).visible = true := by
  have hfocus : ∀ (t : GuiSystem) (a : AppId), (t.windows .terminal).visible = true →
      ((t.focusApp (some a)).windows .terminal).visible = true := by
    intro t a ht
    unfold focusApp
    by_cases ha : AppId.terminal = a
    · subst ha
      rw [modify_same, Window.visible, Window.focus_isOpen, Window.focus_mode]
      exact ht
    · dsimp only
      rw [modify_other _ ha]
      exact ht
  have hopen : ∀ (t : GuiSystem) (a : AppId), (t.windows .terminal).visible = true →
      ((t.openApp (some a)).windows .terminal).visible = true := by
    intro t a ht
    refine hfocus _ a ?_
    by_cases ha : AppId.terminal = a
    · subst ha
      rw [modify_same]
      exact terminal_visible _ _ _
    · rw [modify_other _ ha]
      exact ht
  exact runProgram_induction (P := fun t => (t.windows .terminal).visible = true) hopen h p

/-- A program leaves one focus, unless it opens nothing. -/
theorem Typed.runProgram (h : Typed s) (p : Program) : Typed (s.runProgram p) :=
  runProgram_induction (P := Typed) (fun t a _ => (openApp_single t (some a)).typed) h p

/-- An operation that leaves the terminal open, while notepad does not have the focus. -/
theorem Typed.modify_terminal (h : Typed s) (hn : (s.windows .notepad).focused = false)
    {f : Window → Window}
    (hf : (f (s.windows .terminal)).focused = true → (f (s.windows .terminal)).isOpen = true) :
    Typed (s.modify .terminal f) := by
  have hnotepad : (s.modify .terminal f).windows .notepad = s.windows .notepad :=
    modify_other s (by decide) f
  refine ⟨fun a ha => ?_, fun hboth => ?_⟩
  · by_cases hat : a = .terminal
    · subst hat
      rw [modify_same] at ha ⊢
      exact hf ha
    · rw [modify_other _ hat] at ha ⊢
      exact h.opened a ha
  · rw [hnotepad, hn] at hboth
    exact Bool.false_ne_true hboth.2

/-- The terminal's part of the key path: either nothing is changed, or the terminal is visible in
the end. -/
theorem terminalHandleKey_cases (h : Single s) (hn : (s.windows .notepad).focused = false)
    (w : World) (key : UInt8) (z : ℕ) :
    s.terminalHandleKey w key z = s ∨ Typed (s.terminalHandleKey w key z) ∧
        ((s.terminalHandleKey w key z).windows .terminal).visible = true := by
  unfold terminalHandleKey
  split_ifs with hF1 hscroll hvisible hrun
  · refine .inr ⟨h.typed.modify_terminal hn fun _ => openWindow_isOpen .terminal _ _ _, ?_⟩
    rw [modify_same]
    exact terminal_visible _ _ _
  · exact .inl rfl
  · exact .inl rfl
  all_goals
    have hvis : (s.windows .terminal).visible = true := by
      cases hv : (s.windows .terminal).visible with
      | true => rfl
      | false => exact absurd hv hvisible
    have hopen : (s.windows .terminal).isOpen = true := (Bool.and_eq_true_iff.1 hvis).1
    have hfocus : Typed (s.modify .terminal (Window.focus z)) :=
      h.typed.modify_terminal hn fun _ => (Window.focus_isOpen _ _).trans hopen
  · refine .inr ⟨?_, ?_⟩
    · refine Typed.runProgram (hfocus.modify_terminal ?_ fun _ => ?_) _
      · rw [modify_other _ (by decide)]
        exact hn
      · exact openWindow_isOpen .terminal _ _ _
    · refine runProgram_visible ?_ _
      rw [modify_same]
      exact terminal_visible _ _ _
  · refine .inr ⟨hfocus, ?_⟩
    rw [modify_same, Window.visible, Window.focus_isOpen, Window.focus_mode]
    exact hvis

/-- **The key path keeps the single focus.** When the terminal takes it, notepad does not have it,
and the other three windows lose it. -/
theorem typeKey_single (h : Single s) (w : World) (key : UInt8) : Single (s.typeKey w key) := by
  unfold typeKey
  split
  · exact h
  · next hnotepad =>
    have hn : (s.windows .notepad).focused = false := by
      cases hf : (s.windows .notepad).focused with
      | false => rfl
      | true => exact absurd (by rw [(h _ hf).1, hf, Bool.and_self]) hnotepad
    have hb : Single s.bump := h
    dsimp only
    rcases terminalHandleKey_cases hb hn w key s.bump.zCounter with hsame | ⟨htyped, hvisible⟩
    · rw [hsame]
      split
      · exact hb.typed.single
      · exact hb
    · rw [if_pos hvisible]
      exact htyped.single

/-- The operations keep the single focus; most of them establish it. -/
theorem single_stable : Stable Single where
  same h _ hw _ := fun a => by
    rw [hw]
    exact h a
  bump h := h
  unfocusAll _ := unfocusAll_single _
  focusApp app _ := focusApp_single _ app
  openApp app _ := openApp_single _ app
  toggleMaximizeApp app _ := focusApp_single _ app
  openNotepad _ := focusApp_single _ _
  minimize _ h := h.modify fun hf => absurd hf Bool.false_ne_true
  close _ h := h.modify fun hf => absurd hf Bool.false_ne_true
  updateDrag _ _ _ h := h.modify fun hf => ⟨hf, rfl⟩
  updateResize _ _ _ h := h.modify fun hf => ⟨hf, rfl⟩
  runInTerminal w _ := runInTerminal_single _ w
  typeKey w key h := typeKey_single h w key

end GuiSystem

/-- **Single focus.** After every sequence of events from `initialize`, whatever the programs open
that are started on the way, at most one window has the focus, and it is open. -/
theorem single_focus (d : GuiSystem.Screen) (events : List (World × GuiEvent)) (a : AppId) :
    let s := GuiSystem.run d events
    (s.windows a).focused = true →
      (s.windows a).isOpen = true ∧ ∀ b, (s.windows b).focused = true → b = a :=
  GuiSystem.single_stable.run (fun _ hfocus => absurd hfocus Bool.false_ne_true) events a

/-- Files has the focus after F2, and no other window. -/
theorem single_focus_files :
    let s := GuiSystem.run ⟨640, 480⟩ [GuiSystem.launch GuiSystem.keyF1 1,
      GuiSystem.launch GuiSystem.keyF2 2]
    (s.windows .files).focused = true ∧ ∀ b, (s.windows b).focused = true → b = .files := by
  have hfiles : ((GuiSystem.run ⟨640, 480⟩ [GuiSystem.launch GuiSystem.keyF1 1,
      GuiSystem.launch GuiSystem.keyF2 2]).windows .files).focused = true := by decide +kernel
  exact ⟨hfiles, (single_focus ⟨640, 480⟩ _ .files hfiles).2⟩

/-! ### Opening an application -/

/-- The application is shown: its window is open and not minimized, has the focus alone, and is
above every other window. -/
structure Shown (s : GuiSystem) (a : AppId) : Prop where
  isOpen : (s.windows a).isOpen = true
  mode : (s.windows a).mode ≠ .minimized
  focused : (s.windows a).focused = true
  only : ∀ b, (s.windows b).focused = true → b = a
  top : ∀ b, b ≠ a → (s.windows b).z < (s.windows a).z

/-- The windows after `open_app`. -/
theorem openApp_windows (s : GuiSystem) (a b : AppId) : (s.openApp (some a)).windows b =
      if b = a then
        (openWindow a s.metrics (zAfter (s.increments + 1)) (s.windows a)).unfocus.focus
          (zAfter (s.increments + 2))
      else (s.windows b).unfocus := by
  unfold GuiSystem.openApp GuiSystem.focusApp
  dsimp only
  split
  · next hb =>
    subst hb
    rw [GuiSystem.modify_same]
    simp only [GuiSystem.unfocusAll, GuiSystem.bump, GuiSystem.modify_same]
    rfl
  · next hb =>
    rw [GuiSystem.modify_other _ hb]
    simp only [GuiSystem.unfocusAll, GuiSystem.bump, GuiSystem.modify_other _ hb]

/-- **Opening an application shows it, unless it is a utility whose window is minimized.** From
every reachable state, with fewer than 2³¹ increments of `z_counter_`. -/
theorem open_shows_iff (d : GuiSystem.Screen) (events : List (World × GuiEvent)) (a : AppId)
    (hz : ((GuiSystem.run d events).openApp (some a)).increments < 2 ^ 31) :
    Shown ((GuiSystem.run d events).openApp (some a)) a ↔
      ¬(a.utility = true ∧ ((GuiSystem.run d events).windows a).isOpen = true ∧
        ((GuiSystem.run d events).windows a).mode = .minimized) := by
  -- no window is above the counter, and it has not wrapped around
  have hbound := (z_le_kept d.metrics).run (fun _ => Nat.zero_le _) events
  generalize GuiSystem.run d events = s at hz hbound ⊢
  have hcount : (s.openApp (some a)).increments = s.increments + 2 := rfl
  rw [hcount] at hz
  -- `open_app` opens the window and then focuses it, with two values of the counter
  have hself : (s.openApp (some a)).windows a =
      (openWindow a s.metrics (zAfter (s.increments + 1)) (s.windows a)).unfocus.focus
        (zAfter (s.increments + 2)) := by
    rw [openApp_windows, if_pos rfl]
  have hopen := openWindow_isOpen a s.metrics (zAfter (s.increments + 1)) (s.windows a)
  have hmode : ((s.openApp (some a)).windows a).mode =
      (openWindow a s.metrics (zAfter (s.increments + 1)) (s.windows a)).mode := by
    rw [hself, Window.focus_mode]
    rfl
  -- only the mode can go wrong: the utility windows stay minimized when they are open
  rw [← openWindow_minimized_iff a s.metrics (zAfter (s.increments + 1)), ← hmode]
  refine ⟨fun h => h.mode, fun h => ⟨?_, h, ?_, ?_, ?_⟩⟩
  · rw [hself, Window.focus_isOpen]
    exact hopen
  · rw [hself, Window.unfocus_focus_focused]
    exact hopen
  · intro b hb
    by_contra hne
    rw [openApp_windows, if_neg hne] at hb
    exact Bool.false_ne_true hb
  · -- the second value of the counter is greater than that of any other window
    intro b hne
    have htop : zAfter (s.increments + 2) = s.increments + 3 := by
      rw [zAfter, Nat.mod_eq_of_lt (by omega)]
      omega
    have hb := hbound b
    have hz' : ((s.openApp (some a)).windows a).z = s.increments + 3 := by
      rw [hself, Window.focus_z (by exact hopen), htop]
    rw [openApp_windows, if_neg hne, hz']
    change (s.windows b).z < _
    omega

/-- The terminal is shown once more after it has been minimized. -/
theorem open_shows_iff_terminal :
    Shown ((GuiSystem.run ⟨640, 480⟩ [GuiSystem.launch GuiSystem.keyF1 1,
      GuiSystem.button true 548 50, GuiSystem.button false 548 50]).openApp (some .terminal))
      .terminal :=
  (open_shows_iff ⟨640, 480⟩ _ .terminal (by decide +kernel)).2 (by decide +kernel)

/-- Files is opened, minimized, and opened again: it stays minimized. -/
theorem files_stay_minimized :
    let s := GuiSystem.run ⟨640, 480⟩ [GuiSystem.launch GuiSystem.keyF2 2,
      GuiSystem.button true 420 55, GuiSystem.button false 420 55]
    (s.openApp (some .files)).increments < 2 ^ 31 ∧
      ((s.openApp (some .files)).windows .files).mode = .minimized := by
  decide +kernel

end MyOS.Gui
