import MyOS.Gui.HitTest
import MyOS.Gui.Invariant
import Mathlib.Tactic.FinCases

/-!
# Clicks that arrive as a lone release

When the button goes down and up between two polls, `input_poll_event` reports the release only. For
that case `handle_left_release` takes the place of the release for the place of the press, but only
if no press is remembered, and a press is forgotten only by a release that does not match it. So
after a click that was honoured the next lone release is dropped if it is somewhere else
(`lone_release_dropped`). On the other hand a press closes the start menu, so that its entries for
applications answer to a lone release only. `lone_release_iff` says that these are the two ways in
which a lone release and a click differ.
-/

namespace MyOS.Gui

open Input (GuiEvent)

/-- What a click does. -/
inductive Activation where
  | close (app : Option AppId)
  | maximize (app : Option AppId)
  | minimize (app : Option AppId)
  | startToggle
  | taskButton (app : Option AppId)
  | menuEntry (app : Option AppId)
  | shutdown
  | restart
  | icon (app : Option AppId)
  | file (index : ℕ)
  | none
deriving DecidableEq, Repr

namespace GuiSystem

variable {s : GuiSystem} {x y : ℤ} {t : GuiSystem}

/-- What the second part of `handle_left_release` does for a hit. -/
def activation (s : GuiSystem) (w : World) (x y : ℤ) (hit : HitResult) : Activation :=
  match hit.target with
  | .windowClose => .close hit.app
  | .windowMaximize => .maximize hit.app
  | .windowMinimize => .minimize hit.app
  | .windowClient =>
    if hit.app = some .files then
      match s.fileIndexAt w x y with
      | some i => .file i
      | none => .none
    else .none
  | .startButton => .startToggle
  | .taskButton => .taskButton hit.app
  | .startTerminal => .menuEntry hit.app
  | .startShutdown => .shutdown
  | .startRestart => .restart
  | .desktopIcon => .icon hit.app
  | .desktop | .windowTitlebar | .windowResize | .none => .none

/-- What an activation does to the state. `power_shutdown` and `power_restart` do not return. -/
def perform (s : GuiSystem) (w : World) (x y : ℤ) : Activation → GuiSystem
  | .close app => s.closeApp app
  | .maximize app => s.toggleMaximizeApp app
  | .minimize app => s.minimizeApp app
  | .startToggle => { s with startMenuOpen := !s.startMenuOpen }
  | .taskButton app => s.openApp app
  | .menuEntry app => (s.launchAppElf w.launched app).1
  | .icon app => s.clickIcon w x y app
  | .file i =>
    if w.now - s.lastFilesClickTick ≤ doubleClickTicks ∧ s.lastFilesClickIndex = i then
      { (s.runFileFromExplorer w i).1 with lastFilesClickIndex := -1, lastFilesClickTick := 0 }
    else { s with lastFilesClickIndex := i, lastFilesClickTick := w.now }
  | .shutdown | .restart | .none => s

/-- A click on anything but the desktop, where the focus is lost, does what its activation says. -/
theorem click_eq_perform (s : GuiSystem) (w : World) (x y : ℤ) {hit : HitResult}
    (h : hit.target ≠ .desktop) :
    s.click w x y hit = s.perform w x y (s.activation w x y hit) := by
  unfold click activation
  cases htarget : hit.target with
  | desktop => exact absurd htarget h
  | windowClient =>
    split_ifs
    · unfold maybeOpenFileFromExplorer
      cases s.fileIndexAt w x y <;> rfl
    · rfl
  | _ => rfl

/-- The hit that a release at the point is honoured for: there is no press to compare it with, or it
matches the press. -/
def honoured (s : GuiSystem) (x y : ℤ) : Option HitResult :=
  if s.mousePressHit.target = .none ∨
      (s.clickMatchesPress x y = true ∧ s.hitTest x y = s.mousePressHit) then some (s.hitTest x y)
  else none

/-- What a release at the point does. -/
def releaseActivation (s : GuiSystem) (w : World) (x y : ℤ) : Activation :=
  match s.honoured x y with
  | some hit => s.activation w x y hit
  | none => .none

/-- A lone release does what a press and a release would do. -/
def Recovers (s : GuiSystem) (w : World) (x y : ℤ) : Prop :=
  s.releaseActivation w x y = (s.handleLeftPress x y).releaseActivation w x y

instance (s : GuiSystem) (w : World) (x y : ℤ) : Decidable (s.Recovers w x y) :=
  inferInstanceAs (Decidable (_ = _))

/-! ### Hit testing depends on windows, metrics and the menu -/

theorem hitTest_congr (hw : t.windows = s.windows) (hm : t.metrics = s.metrics)
    (hopen : t.startMenuOpen = s.startMenuOpen) (x y : ℤ) : t.hitTest x y = s.hitTest x y := by
  have hvisit : Best.visit t x y = Best.visit s x y := by
    funext b a
    simp only [Best.visit, hw]
  simp only [hitTest, hitWindows, hvisit, hitDesktop, hw, hm, hopen]

theorem fileIndexAt_congr {w : World} (hv : (t.windows .files).visible = (s.windows .files).visible)
    (hr : (t.windows .files).rect = (s.windows .files).rect) (x y : ℤ) :
    t.fileIndexAt w x y = s.fileIndexAt w x y := by
  simp only [fileIndexAt, hv, hr]

/-- The area that the loop of `hit_test` ends with is that of the window it found. -/
theorem hitWindows_area {a : AppId} (h : (s.hitWindows x y).app = some a) :
    (s.hitWindows x y).area = hitWindow (s.windows a) x y := by
  have hloop : ∀ (l : List AppId) (b : Best),
      (∀ a, b.app = some a → b.area = hitWindow (s.windows a) x y) →
      ∀ a, (l.foldl (Best.visit s x y) b).app = some a →
        (l.foldl (Best.visit s x y) b).area = hitWindow (s.windows a) x y := by
    intro l
    induction l with
    | nil => exact fun b hb => hb
    | cons c l ih =>
      intro b hb
      refine ih _ fun a ha => ?_
      unfold Best.visit at ha ⊢
      dsimp only at ha ⊢
      split at ha
      · rename_i hc
        rw [if_pos hc]
        cases ha
        rfl
      · rename_i hc
        rw [if_neg hc]
        exact hb a ha
  exact hloop hitOrder ⟨-1, .none, none⟩ (nofun) a h

theorem hitTest_of_window {a : AppId} (h : (s.hitWindows x y).app = some a) :
    s.hitTest x y = ⟨targetFromWindowArea (s.hitWindows x y).area, some a⟩ := by
  unfold hitTest
  dsimp only
  rw [h]

theorem hitTest_of_none (h : (s.hitWindows x y).app = none) : s.hitTest x y = s.hitDesktop x y := by
  unfold hitTest
  dsimp only
  rw [h]

theorem targetFromWindowArea_ne_none {area : WindowArea} (h : area ≠ .none) :
    targetFromWindowArea area ≠ .none := by
  cases area <;> simp [targetFromWindowArea] at h ⊢

theorem targetFromWindowArea_ne_startTerminal (area : WindowArea) :
    targetFromWindowArea area ≠ .startTerminal := by
  cases area <;> simp [targetFromWindowArea]

/-- What `hit_test` finds below the windows is something, and an entry of the start menu that is
`StartTerminal` belongs to an application. -/
theorem hitDesktop_target (s : GuiSystem) (x y : ℤ) : (s.hitDesktop x y).target ≠ .none ∧
    ((s.hitDesktop x y).target = .startTerminal → (s.hitDesktop x y).app ≠ none) := by
  unfold hitDesktop
  dsimp only
  split
  · simp
  · split
    · simp
    · split
      · rename_i e he
        have hmem := List.mem_of_find?_eq_some he
        fin_cases hmem <;> simp
      · split <;> simp

theorem hitTest_target (s : GuiSystem) (x y : ℤ) : (s.hitTest x y).target ≠ .none ∧
    ((s.hitTest x y).target = .startTerminal → (s.hitTest x y).app ≠ none) := by
  cases happ : (s.hitWindows x y).app with
  | some a =>
    rw [hitTest_of_window happ]
    refine ⟨targetFromWindowArea_ne_none ?_, fun _ => by simp⟩
    rw [hitWindows_area happ, Ne, hitWindow_eq_none_iff, not_not]
    exact ((hitWindows_iff s x y a).mp happ).1
  | none =>
    rw [hitTest_of_none happ]
    exact s.hitDesktop_target x y

/-! ### The handlers -/

/-- The state in which `handle_left_release` compares the release with the press. -/
def settled (s : GuiSystem) (x y : ℤ) : GuiSystem :=
  { (if s.mousePressHit.target = .none then s.recordPress x y else s) with
    wm := s.wm.endPointerAction }

/-- `handle_left_release` acts on the hit that is honoured, and forgets the press otherwise. -/
theorem handleLeftRelease_eq (s : GuiSystem) (w : World) (x y : ℤ) :
    s.handleLeftRelease w x y = match s.honoured x y with
      | some hit => (s.settled x y).click w x y hit
      | none => { s.settled x y with mousePressHit := ⟨.none, none⟩ } := by
  unfold handleLeftRelease honoured settled endPress
  by_cases hnone : s.mousePressHit.target = .none
  · simp only [hnone, true_or, if_true]
    have hhit : (s.recordPress x y).hitTest x y = s.hitTest x y := hitTest_congr rfl rfl rfl x y
    rw [hhit, if_pos ⟨by simp [clickMatchesPress, recordPress, clickSlop], rfl⟩]
    rfl
  · simp only [hnone, false_or, if_false]
    by_cases hm : s.clickMatchesPress x y = true ∧ s.hitTest x y = s.mousePressHit
    · rw [if_pos hm]
      exact if_pos hm
    · rw [if_neg hm]
      exact if_neg hm

/-- `releaseActivation` is what `handle_left_release` does, except that a click on the desktop also
takes the focus away; a release that is not honoured makes it forget the press. -/
def Releases (s : GuiSystem) (w : World) (x y : ℤ) : Prop :=
  match s.honoured x y with
  | some hit => hit.target ≠ .desktop →
      s.handleLeftRelease w x y = (s.settled x y).perform w x y (s.releaseActivation w x y)
  | none => s.handleLeftRelease w x y = { s.settled x y with mousePressHit := ⟨.none, none⟩ }

theorem releases (s : GuiSystem) (w : World) (x y : ℤ) : s.Releases w x y := by
  have hfile : (s.settled x y).fileIndexAt w x y = s.fileIndexAt w x y := by
    have hwin : (s.settled x y).windows = s.windows := by
      unfold settled
      split_ifs <;> rfl
    exact fileIndexAt_congr (by rw [hwin]) (by rw [hwin]) x y
  unfold Releases releaseActivation
  rw [handleLeftRelease_eq]
  cases s.honoured x y with
  | none => rfl
  | some hit =>
    intro hdesktop
    dsimp only
    rw [click_eq_perform _ _ _ _ hdesktop]
    unfold activation
    rw [hfile]

/-- What a press leaves: the hit is remembered with its place, and if it belongs to an application
the application has the focus and the menu is closed. -/
theorem handleLeftPress_spec (s : GuiSystem) (x y : ℤ) :
    (s.handleLeftPress x y).mousePressHit = s.hitTest x y ∧
    (s.handleLeftPress x y).clickMatchesPress x y = true ∧
    (s.handleLeftPress x y).metrics = s.metrics ∧
    ((s.hitTest x y).app = none → (s.handleLeftPress x y).windows = s.windows ∧
      (s.handleLeftPress x y).startMenuOpen = s.startMenuOpen) ∧
    (∀ a, (s.hitTest x y).app = some a →
      (s.handleLeftPress x y).windows = (s.focusApp (some a)).windows ∧
      (s.handleLeftPress x y).startMenuOpen = false) := by
  have hgrab : ∀ t : GuiSystem, ∃ wm, t.grab x y = { t with wm := wm } := by
    intro t
    unfold grab
    split
    · exact ⟨t.wm, rfl⟩
    · split_ifs
      · exact ⟨_, rfl⟩
      · exact ⟨_, rfl⟩
      · exact ⟨t.wm, rfl⟩
  have hslop : ∀ t : GuiSystem, t.mousePressX = x → t.mousePressY = y →
      t.clickMatchesPress x y = true := by
    intro t hx hy
    simp [clickMatchesPress, hx, hy, clickSlop]
  have htarget := (s.hitTest_target x y).1
  have hrecord : (s.recordPress x y).mousePressHit = s.hitTest x y := rfl
  unfold handleLeftPress
  dsimp only
  rw [hrecord]
  cases happ : (s.hitTest x y).app with
  | none =>
    obtain ⟨wm, hwm⟩ := hgrab (s.recordPress x y)
    simp only [Option.isSome_none, Bool.false_eq_true, false_and, if_false, hwm]
    exact ⟨rfl, hslop _ rfl rfl, rfl, fun _ => ⟨rfl, rfl⟩, nofun⟩
  | some a =>
    simp only [Option.isSome_some, true_and, if_pos htarget]
    obtain ⟨wm, hwm⟩ := hgrab { (s.recordPress x y).focusApp (some a) with startMenuOpen := false }
    rw [hwm]
    refine ⟨rfl, hslop _ rfl rfl, rfl, fun hn => (nomatch hn), fun b hb => ?_⟩
    cases hb
    exact ⟨rfl, rfl⟩

/-- `focus_app` touches the focus and the place in the stack only. -/
theorem focusApp_window (s : GuiSystem) (a b : AppId) :
    ((s.focusApp (some a)).windows b).rect = (s.windows b).rect ∧
    ((s.focusApp (some a)).windows b).isOpen = (s.windows b).isOpen ∧
    ((s.focusApp (some a)).windows b).mode = (s.windows b).mode ∧
    (b ≠ a → ((s.focusApp (some a)).windows b).z = (s.windows b).z) := by
  unfold focusApp
  by_cases hb : b = a
  · subst hb
    rw [modify_same]
    exact ⟨by simp; rfl, by simp; rfl, by simp; rfl, fun hne => absurd rfl hne⟩
  · rw [modify_other _ hb]
    exact ⟨rfl, rfl, rfl, fun _ => rfl⟩

theorem hitWindow_congr {v w : Window} (hr : v.rect = w.rect) (ho : v.isOpen = w.isOpen)
    (hm : v.mode = w.mode) (x y : ℤ) : hitWindow v x y = hitWindow w x y := by
  obtain ⟨_, _, _, _, _, _⟩ := v
  obtain ⟨_, _, _, _, _, _⟩ := w
  obtain ⟨rfl, rfl, rfl⟩ : _ ∧ _ ∧ _ := ⟨hr, ho, hm⟩
  rfl

theorem focusApp_hitWindow (s : GuiSystem) (a b : AppId) (x y : ℤ) :
    hitWindow ((s.focusApp (some a)).windows b) x y = hitWindow (s.windows b) x y := by
  obtain ⟨hrect, hopen, hmode, -⟩ := s.focusApp_window a b
  exact hitWindow_congr hrect hopen hmode x y

theorem focusApp_covers (s : GuiSystem) (a b : AppId) (x y : ℤ) :
    (s.focusApp (some a)).Covers x y b ↔ s.Covers x y b := by
  obtain ⟨hrect, hopen, hmode, -⟩ := s.focusApp_window a b
  simp only [Covers, Window.visible, hrect, hopen, hmode]

/-- The window that has the focus is above all others. -/
theorem focusApp_level (hz : ∀ b, (s.windows b).z ≤ 1 + s.increments)
    (hinc : s.increments + 2 < 2 ^ 31) {a : AppId} (ha : (s.windows a).isOpen = true) :
    0 ≤ (s.focusApp (some a)).level a ∧
      ∀ b, b ≠ a → (s.focusApp (some a)).level b < (s.focusApp (some a)).level a := by
  have htop : ((s.focusApp (some a)).windows a).z = s.increments + 2 := by
    unfold focusApp
    have hopen : (s.unfocusAll.bump.windows a).isOpen = true := ha
    rw [modify_same, Window.focus, if_pos hopen]
    change (1 + (s.increments + 1)) % 4294967296 = _
    rw [Nat.mod_eq_of_lt (by omega)]
    omega
  have hlevel : (s.focusApp (some a)).level a = s.increments + 2 := by
    rw [level, htop, i32_eq (by omega) (by omega)]
    omega
  refine ⟨by omega, fun b hb => ?_⟩
  have hbelow := hz b
  rw [hlevel, level, (s.focusApp_window a b).2.2.2 hb, i32_eq (by omega) (by omega)]
  omega

/-- Below the windows only the entries of the start menu depend on the menu. -/
theorem hitDesktop_closed (hm : t.metrics = s.metrics)
    (hopen : ∀ b, (t.windows b).isOpen = (s.windows b).isOpen) (hmenu : t.startMenuOpen = false) :
    (t.hitDesktop x y).target ≠ .startTerminal ∧
      ((s.hitDesktop x y).app ≠ none → (s.hitDesktop x y).target ≠ .startTerminal →
        t.hitDesktop x y = s.hitDesktop x y) := by
  have hnone : ∀ r : ℤ → Rect, (startMenuEntries.find? fun e => t.startMenuOpen &&
      (r e.1).contains x y) = none := by
    intro r
    simp [hmenu]
  unfold hitDesktop
  simp only [hm, hopen]
  split
  · simp
  · split
    · simp
    · rw [hnone fun d => ⟨(startMenuRect s.metrics).x + 28, (startMenuRect s.metrics).y + d,
        (startMenuRect s.metrics).w - 32, 18⟩]
      dsimp only
      refine ⟨by split <;> simp, ?_⟩
      split
      · rename_i e he
        -- the entries have an application and are `startTerminal`, or have none
        have hmem := List.mem_of_find?_eq_some he
        fin_cases hmem <;> simp
      · exact fun _ _ => rfl

/-- **A press keeps the hit**, unless it is an entry of the start menu for an application. -/
theorem press_hitTest_iff (hz : ∀ b, (s.windows b).z ≤ 1 + s.increments)
    (hinc : s.increments + 2 < 2 ^ 31) :
    (s.handleLeftPress x y).hitTest x y = s.hitTest x y ↔
      (s.hitTest x y).target ≠ .startTerminal := by
  obtain ⟨-, -, hm, hnone, hsome⟩ := s.handleLeftPress_spec x y
  cases happ : (s.hitTest x y).app with
  | none =>
    obtain ⟨hw, hmenu⟩ := hnone happ
    exact iff_of_true (hitTest_congr hw hm hmenu x y) fun htarget =>
      (s.hitTest_target x y).2 htarget happ
  | some a =>
    obtain ⟨hw, hmenu⟩ := hsome a happ
    set t := s.handleLeftPress x y with ht
    cases hwin : (s.hitWindows x y).app with
    | some b =>
      -- a window: it is on top afterwards
      have hhit := hitTest_of_window hwin
      obtain rfl : b = a := by
        rw [hhit] at happ
        exact Option.some.inj happ
      obtain ⟨hcov, -, -⟩ := (hitWindows_iff s x y b).mp hwin
      have hopen : (s.windows b).isOpen = true := by
        have hvisible := hcov.1
        rw [Window.visible, Bool.and_eq_true] at hvisible
        exact hvisible.1
      obtain ⟨hpos, habove⟩ := focusApp_level hz hinc hopen
      have hlevel : ∀ c, t.level c = (s.focusApp (some b)).level c := fun c => by
        rw [level, level, hw]
      have hcovers : ∀ c, t.Covers x y c ↔ s.Covers x y c := fun c => by
        rw [← s.focusApp_covers b c x y, Covers, Covers, hw]
      have hwin' : (t.hitWindows x y).app = some b := by
        refine (hitWindows_iff t x y b).mpr ⟨(hcovers b).mpr hcov, ?_, ?_⟩
        · rw [hlevel]
          exact hpos
        intro c _ hc
        refine .inl ?_
        rw [hlevel, hlevel]
        exact habove c hc
      have harea : (t.hitWindows x y).area = (s.hitWindows x y).area := by
        rw [hitWindows_area hwin', hitWindows_area hwin, hw, focusApp_hitWindow]
      refine iff_of_true ?_ ?_
      · rw [hhit, hitTest_of_window hwin', harea]
      · rw [hhit]
        exact targetFromWindowArea_ne_startTerminal _
    | none =>
      -- no window covers the point, before or after
      have hhit := hitTest_of_none hwin
      have hclear : ∀ c, ¬ s.Covers x y c := by
        intro c hc
        obtain ⟨b, hb⟩ := hitWindows_isSome ⟨c, hc, by
          have := hz c
          rw [level, i32_eq (by omega) (by omega)]
          omega⟩
        rw [hwin] at hb
        cases hb
      have hwin' : (t.hitWindows x y).app = none := by
        cases h : (t.hitWindows x y).app with
        | none => rfl
        | some c =>
          have hc := ((hitWindows_iff t x y c).mp h).1
          rw [Covers, hw] at hc
          exact absurd ((s.focusApp_covers a c x y).mp hc) (hclear c)
      obtain ⟨hnot, hkeep⟩ := hitDesktop_closed (s := s) (x := x) (y := y) hm
        (fun b => by rw [hw]; exact (s.focusApp_window a b).2.1) hmenu
      rw [hhit] at happ ⊢
      rw [hitTest_of_none hwin']
      refine ⟨fun heq => heq ▸ hnot, hkeep (by rw [happ]; simp)⟩

end GuiSystem

open GuiSystem

/-- **A lone release does what a click does**, in every reachable state with fewer than 2³¹ focus
changes, exactly if the place of the release has no function, or the release is honoured for what a
press would leave in place: no press is remembered or the remembered one matches, and the release is
not on an entry of the start menu for an application; or it is on such an entry, which a press makes
disappear, and is not honoured. What a release does is what `handle_left_release` does. -/
theorem lone_release_iff (d : GuiSystem.Screen) (events : List (World × GuiEvent)) (w : World)
    (x y : ℤ) (hz : (GuiSystem.run d events).increments + 2 < 2 ^ 31) :
    ((GuiSystem.run d events).Recovers w x y ↔
      let s := GuiSystem.run d events
      s.activation w x y (s.hitTest x y) = .none ∨ ((s.mousePressHit.target = .none ∨
          (s.clickMatchesPress x y = true ∧ s.hitTest x y = s.mousePressHit)) ↔
            (s.hitTest x y).target ≠ .startTerminal)) ∧
    ∀ s : GuiSystem, s.Releases w x y := by
  refine ⟨?_, fun s => s.releases w x y⟩
  have hbound := (z_le_kept d.metrics).run (fun _ => Nat.zero_le _) events
  generalize GuiSystem.run d events = s at hz hbound ⊢
  have hpress := press_hitTest_iff (x := x) (y := y) hbound hz
  obtain ⟨hhit, hmatch, hm, hnone, hsome⟩ := s.handleLeftPress_spec x y
  -- a click is honoured unless the press has made its target disappear
  have hclick : (s.handleLeftPress x y).releaseActivation w x y =
      if (s.hitTest x y).target ≠ .startTerminal then s.activation w x y (s.hitTest x y)
      else .none := by
    unfold releaseActivation honoured
    simp only [hhit, hmatch, (s.hitTest_target x y).1, true_and, false_or]
    by_cases htarget : (s.hitTest x y).target ≠ .startTerminal
    · have heq := hpress.mpr htarget
      rw [if_pos heq, if_pos htarget, heq]
      have hfile : (s.handleLeftPress x y).fileIndexAt w x y = s.fileIndexAt w x y := by
        cases happ : (s.hitTest x y).app with
        | none => exact fileIndexAt_congr (by rw [(hnone happ).1]) (by rw [(hnone happ).1]) x y
        | some a =>
          obtain ⟨hrect, hopen, hmode, -⟩ := s.focusApp_window a .files
          refine fileIndexAt_congr ?_ ?_ x y
          · rw [(hsome a happ).1, Window.visible, Window.visible, hopen, hmode]
          · rw [(hsome a happ).1, hrect]
      unfold activation
      rw [hfile]
    · rw [if_neg (mt hpress.mp htarget), if_neg htarget]
  have hlone : s.releaseActivation w x y = if s.mousePressHit.target = .none ∨
        (s.clickMatchesPress x y = true ∧ s.hitTest x y = s.mousePressHit)
      then s.activation w x y (s.hitTest x y) else .none := by
    unfold releaseActivation honoured
    split_ifs <;> rfl
  unfold Recovers
  rw [hlone, hclick]
  split_ifs with h1 h2 h2
  · exact iff_of_true rfl (.inr (iff_of_true h1 h2))
  · exact ⟨.inl, fun h => h.resolve_right fun hiff => h2 (hiff.mp h1)⟩
  · exact ⟨fun h => .inl h.symm, fun h => (h.resolve_right fun hiff => h1 (hiff.mpr h2)).symm⟩
  · exact iff_of_true rfl (.inr (iff_of_false h1 h2))

/-- A lone release on the icon of the terminal, after a press on the start button that was let go
elsewhere. -/
theorem lone_release_icon :
    let s := GuiSystem.run ⟨640, 480⟩ [launch keyF4 4, button true 10 460, button false 600 300]
    s.Recovers (button false 0 0).1 20 40 ∧
      s.releaseActivation (button false 0 0).1 20 40 = .icon (some .terminal) :=
  ⟨(lone_release_iff ⟨640, 480⟩ [launch keyF4 4, button true 10 460, button false 600 300] _ 20 40
    (by decide +kernel)).1.mpr (by decide +kernel), by decide +kernel⟩

/-- **A lone release that is dropped.** After a click on the start button the press on it is still
remembered, and a lone release on an icon is compared with that press. -/
theorem lone_release_dropped :
    let s := GuiSystem.run ⟨640, 480⟩ [button true 10 460, button false 10 460]
    s.releaseActivation (button false 0 0).1 20 40 = .none ∧
      (s.handleLeftPress 20 40).releaseActivation (button false 0 0).1 20 40
        = .icon (some .terminal) ∧
      ¬ s.Recovers (button false 0 0).1 20 40 := by
  decide +kernel

end MyOS.Gui
