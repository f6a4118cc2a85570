import MyOS.Gui.Window
import MyOS.Input.Poll

/-!
# The desktop

`class GuiSystem` of `core/gui.cpp`: the five windows, hit testing, the pointer, the start menu and
the dispatch of events. What an event finds outside of the class is a `World`: the clock, the listed
files, and what the user programs do that it starts. A program changes the desktop by the system
call `gui_open` only, so it is the list of its `gui_open` calls and its exit code. Drawing, dirty
rectangles and the text of terminal and notepad are left out; which command line is entered is part
of the `World`.
-/

namespace MyOS.Gui

open Input (GuiEvent)

/-! ### State -/

/-- `enum class HitTarget`. -/
inductive HitTarget where
  | none | desktop | desktopIcon | startButton | startTerminal | startShutdown | startRestart
  | taskButton | windowClient | windowTitlebar | windowMinimize | windowMaximize | windowClose
  | windowResize
deriving DecidableEq, Repr

/-- `struct HitResult`. -/
structure HitResult where
  target : HitTarget
  app : Option AppId
deriving DecidableEq, Repr

/-- The members of `class GuiSystem`, with the increments of `z_counter_` for the counter. -/
structure GuiSystem where
  metrics : Metrics
  windows : AppId → Window
  wm : WindowManager
  startMenuOpen : Bool
  mousePressX : ℤ
  mousePressY : ℤ
  mousePressHit : HitResult
  increments : ℕ
  lastIconClickTick : UInt32
  lastIconClickX : ℤ
  lastIconClickY : ℤ
  lastFilesClickIndex : ℤ
  lastFilesClickTick : UInt32

/-- A listed file: its name, and its size if `diskfs_read_file` finds it. -/
structure ListedFile where
  name : List Char
  size : Option ℕ

/-- A run of a user program, as the desktop sees it. -/
structure Program where
  /-- The arguments of its calls of `gui_open`. -/
  opens : List UInt32
  code : ℤ

/-- What an event finds outside of `GuiSystem`. -/
structure World where
  /-- `timer_ticks()`. -/
  now : UInt32
  /-- The files of `diskfs_file_count` and `diskfs_file_name`. -/
  files : List ListedFile
  /-- The program that an icon, a menu entry or a function key starts. -/
  launched : Program
  /-- The command line that is entered is a `run` command. -/
  commandRuns : Bool
  /-- The program that the terminal runs. -/
  inTerminal : Program

/-- The value of `z_counter_`, which starts at 1, after `n` increments. -/
def zAfter (n : ℕ) : ℕ := (1 + n) % 4294967296

namespace GuiSystem

/-- `z_counter_`. -/
def zCounter (s : GuiSystem) : ℕ := zAfter s.increments

/-- `++z_counter_`. -/
def bump (s : GuiSystem) : GuiSystem := { s with increments := s.increments + 1 }

/-- An operation on the window of one application. -/
def modify (s : GuiSystem) (a : AppId) (f : Window → Window) : GuiSystem :=
  { s with windows := Function.update s.windows a (f (s.windows a)) }

/-! ### Hit testing -/

/-- `target_from_window_area`. -/
def targetFromWindowArea : WindowArea → HitTarget
  | .close => .windowClose
  | .maximize => .windowMaximize
  | .minimize => .windowMinimize
  | .resize => .windowResize
  | .titlebar => .windowTitlebar
  | .client => .windowClient
  | .none => .none

/-- The order in which `hit_test` goes through the windows. -/
def hitOrder : List AppId := [.terminal, .files, .monitor, .about, .notepad]

/-- What the loop of `hit_test` carries: `best`, `best_area` and `best_app`. -/
structure Best where
  best : ℤ
  area : WindowArea
  app : Option AppId

/-- One round of the loop of `hit_test`. -/
def Best.visit (s : GuiSystem) (x y : ℤ) (b : Best) (a : AppId) : Best :=
  let area := hitWindow (s.windows a) x y
  if area ≠ .none ∧ i32 (s.windows a).z > b.best then ⟨i32 (s.windows a).z, area, some a⟩ else b

/-- The loop of `hit_test`. -/
def hitWindows (s : GuiSystem) (x y : ℤ) : Best :=
  hitOrder.foldl (Best.visit s x y) ⟨-1, .none, none⟩

/-- `Desktop::start_menu_rect`. -/
def startMenuRect (m : Metrics) : Rect :=
  let menuH : ℤ := if m.height ≥ 480 then 150 else 108
  let menuW : ℤ := if m.width ≥ 640 then 184 else 126
  ⟨4, i32 m.height - i32 m.taskbarH - menuH - 2, menuW, menuH⟩

/-- The entries of the start menu, by their distance from its upper edge. -/
def startMenuEntries : List (ℤ × HitResult) :=
  [(8, ⟨.startTerminal, some .terminal⟩), (24, ⟨.startTerminal, some .files⟩),
    (40, ⟨.startTerminal, some .monitor⟩), (56, ⟨.startTerminal, some .about⟩),
    (84, ⟨.startShutdown, none⟩), (100, ⟨.startRestart, none⟩)]

/-- The icons of the desktop, by their distance from the first one. -/
def icons : List (ℤ × AppId) := [(0, .terminal), (56, .files), (112, .monitor), (168, .about)]

/-- The task buttons, by their distance from the first one. -/
def taskButtons : List (ℤ × AppId) :=
  [(0, .terminal), (taskButtonW + 6, .files), ((taskButtonW + 6) * 2, .monitor)]

/-- The part of `hit_test` below the windows: taskbar, start menu, icons, desktop. -/
def hitDesktop (s : GuiSystem) (x y : ℤ) : HitResult :=
  let top := i32 s.metrics.height - i32 s.metrics.taskbarH + 4
  let high := i32 s.metrics.taskbarH - 8
  let menu := startMenuRect s.metrics
  if Rect.contains ⟨4, top, startButtonW, high⟩ x y then ⟨.startButton, none⟩
  else
    match taskButtons.find? fun b => (s.windows b.2).isOpen &&
        Rect.contains ⟨taskButtonX + b.1, top, taskButtonW, high⟩ x y with
    | some b => ⟨.taskButton, some b.2⟩
    | none =>
      match startMenuEntries.find? fun e => s.startMenuOpen &&
          Rect.contains ⟨menu.x + 28, menu.y + e.1, menu.w - 32, 18⟩ x y with
      | some e => e.2
      | none =>
        match icons.find? fun i => Rect.contains ⟨iconX, iconY + i.1, iconW, iconH⟩ x y with
        | some i => ⟨.desktopIcon, some i.2⟩
        | none => ⟨.desktop, none⟩

/-- `GuiSystem::hit_test`. -/
def hitTest (s : GuiSystem) (x y : ℤ) : HitResult :=
  let b := s.hitWindows x y
  match b.app with
  | some a => ⟨targetFromWindowArea b.area, some a⟩
  | none => s.hitDesktop x y

/-- `GuiSystem::click_matches_press`. -/
def clickMatchesPress (s : GuiSystem) (x y : ℤ) : Bool :=
  decide (s.mousePressX - clickSlop ≤ x) && decide (x ≤ s.mousePressX + clickSlop) &&
    decide (s.mousePressY - clickSlop ≤ y) && decide (y ≤ s.mousePressY + clickSlop)

/-! ### Applications -/

/-- Every `window().focused = false`. -/
def unfocusAll (s : GuiSystem) : GuiSystem := { s with windows := fun a => (s.windows a).unfocus }

/-- `GuiSystem::focus_app`. -/
def focusApp (s : GuiSystem) : Option AppId → GuiSystem
  | none => s.unfocusAll
  | some a =>
    let s := s.unfocusAll.bump
    s.modify a (Window.focus s.zCounter)

/-- `GuiSystem::open_app`. -/
def openApp (s : GuiSystem) (app : Option AppId) : GuiSystem :=
  let s :=
    match app with
    | none => s
    | some a =>
      let s := s.bump
      s.modify a (openWindow a s.metrics s.zCounter)
  { s.focusApp app with startMenuOpen := false }

/-- `GuiSystem::open_user_app`, which the system call `gui_open` reaches; the ids are those of
`syscall_numbers.h`. -/
def openUserApp (s : GuiSystem) (id : UInt32) : GuiSystem × ℤ :=
  if id = 1 then (s.openApp (some .terminal), 0)
  else if id = 2 then (s.openApp (some .files), 0)
  else if id = 3 then (s.openApp (some .monitor), 0)
  else if id = 4 then (s.openApp (some .about), 0)
  else if id = 5 then (s.openApp (some .notepad), 0)
  else (s, -1)

/-- `usermode_run_program`. -/
def runProgram (s : GuiSystem) (p : Program) : GuiSystem :=
  p.opens.foldl (fun s id => (s.openUserApp id).1) s

/-- `GuiSystem::launch_app_elf`. -/
def launchAppElf (s : GuiSystem) (p : Program) : Option AppId → GuiSystem × Bool
  | none => (s, false)
  | some _ => (s.runProgram p, p.code = 0)

/-- `GuiSystem::minimize_app`. -/
def minimizeApp (s : GuiSystem) : Option AppId → GuiSystem
  | none => s
  | some a => s.modify a Window.minimize

/-- `GuiSystem::close_app`. -/
def closeApp (s : GuiSystem) (app : Option AppId) : GuiSystem :=
  let s :=
    match app with
    | none => s
    | some a => s.modify a Window.close
  { s with wm := s.wm.endPointerAction }

/-- `GuiSystem::toggle_maximize_app`. -/
def toggleMaximizeApp (s : GuiSystem) (app : Option AppId) : GuiSystem :=
  let s :=
    match app with
    | none => s
    | some a =>
      let s := s.bump
      s.modify a (Window.toggleMaximize s.metrics s.zCounter)
  s.focusApp app

/-! ### Files -/

/-- `NotepadApp::BUFFER_SIZE`. -/
def bufferSize : ℕ := 2048

/-- `file_name_has_suffix`. -/
def fileNameHasSuffix (name suffix : List Char) : Bool := suffix.isSuffixOf name

/-- `file_name_looks_text`. -/
def fileNameLooksText (name : List Char) : Bool :=
  fileNameHasSuffix name ['.', 't', 'x', 't'] || fileNameHasSuffix name ['/', 'm', 'o', 't', 'd']

/-- `file_name_looks_executable`. -/
def fileNameLooksExecutable (name : List Char) : Bool :=
  fileNameHasSuffix name ['.', 'e', 'l', 'f'] || fileNameHasSuffix name ['.', 'm', 'x']

/-- The programs that `launch_gui_program_if_supported` starts by itself. -/
def guiPrograms : List (List Char) :=
  ["/terminal.elf".toList, "/notepad.elf".toList, "/file-explorer.elf".toList,
    "/system-monitor.elf".toList, "/about.elf".toList]

/-- `GuiSystem::open_file_in_notepad`. -/
def openFileInNotepad (s : GuiSystem) (w : World) (i : ℕ) : GuiSystem × Bool :=
  match w.files[i]? with
  | none => (s, false)
  | some f =>
    let s := s.bump
    match f.size with
    | none => (s, false)
    | some size =>
      if size > bufferSize then (s, false)
      else
        ((s.modify .notepad (NotepadApp.openWindow s.metrics s.zCounter)).focusApp (some .notepad),
          true)

/-- `GuiSystem::open_first_text_file_in_notepad`. -/
def openFirstTextFileInNotepad (s : GuiSystem) (w : World) : GuiSystem × Bool :=
  match w.files.findIdx? fun f => fileNameLooksText f.name with
  | some i => s.openFileInNotepad w i
  | none => (s, false)

/-- `GuiSystem::launch_gui_program_if_supported`. -/
def launchGuiProgramIfSupported (s : GuiSystem) (w : World) (path : List Char) :
    GuiSystem × Bool :=
  if guiPrograms.any (fileNameHasSuffix path) then (s.runProgram w.launched, w.launched.code = 0)
  else (s, false)

/-- `TerminalApp::run_program`. -/
def terminalRunProgram (s : GuiSystem) (w : World) (m : Metrics) (z : ℕ) : GuiSystem :=
  (s.modify .terminal (TerminalApp.openWindow m z)).runProgram w.inTerminal

/-- The end of `run_file_from_explorer`: the program runs in the terminal. -/
def runInTerminal (s : GuiSystem) (w : World) : GuiSystem :=
  let s := s.bump
  let s := s.modify .terminal (TerminalApp.openWindow s.metrics s.zCounter)
  let s := (s.focusApp (some .terminal)).bump
  s.terminalRunProgram w s.metrics s.zCounter

/-- `GuiSystem::run_file_from_explorer`. -/
def runFileFromExplorer (s : GuiSystem) (w : World) (i : ℕ) : GuiSystem × Bool :=
  match w.files[i]? with
  | none => (s, false)
  | some f =>
    if fileNameLooksText f.name then s.openFileInNotepad w i
    else if fileNameLooksExecutable f.name then
      let (s, started) := s.launchGuiProgramIfSupported w f.name
      if started then (s, true) else (s.runInTerminal w, true)
    else (s, false)

/-- `UtilityApp::file_index_at` of the file explorer. -/
def fileIndexAt (s : GuiSystem) (w : World) (x y : ℤ) : Option ℕ :=
  let files := s.windows .files
  let r := files.rect
  if !files.visible then none
  else (List.range w.files.length).find? fun (i : ℕ) =>
    Rect.contains ⟨r.x + 10, r.y + titlebarH + 26 + i * 12, r.w - 28, 11⟩ x y

/-- `GuiSystem::maybe_open_file_from_explorer`. -/
def maybeOpenFileFromExplorer (s : GuiSystem) (w : World) (x y : ℤ) : GuiSystem :=
  match s.fileIndexAt w x y with
  | none => s
  | some i =>
    if w.now - s.lastFilesClickTick ≤ doubleClickTicks ∧ s.lastFilesClickIndex = i then
      { (s.runFileFromExplorer w i).1 with lastFilesClickIndex := -1, lastFilesClickTick := 0 }
    else { s with lastFilesClickIndex := i, lastFilesClickTick := w.now }

/-! ### Events -/

/-- What a press does besides giving the focus: a drag or a resize begins. -/
def grab (s : GuiSystem) (x y : ℤ) : GuiSystem :=
  match s.mousePressHit.app with
  | none => s
  | some a =>
    if s.mousePressHit.target = .windowResize then { s with wm := s.wm.beginResize }
    else if s.mousePressHit.target = .windowTitlebar then
      { s with wm := WindowManager.beginDrag (s.windows a) x y }
    else s

/-- The press is remembered with what it hits. -/
def recordPress (s : GuiSystem) (x y : ℤ) : GuiSystem :=
  { s with mousePressX := x, mousePressY := y, mousePressHit := s.hitTest x y }

/-- `GuiSystem::handle_left_press`. -/
def handleLeftPress (s : GuiSystem) (x y : ℤ) : GuiSystem :=
  let s := s.recordPress x y
  let s :=
    if s.mousePressHit.app.isSome ∧ s.mousePressHit.target ≠ .none then
      { s.focusApp s.mousePressHit.app with startMenuOpen := false }
    else s
  s.grab x y

/-- A click on an icon of the desktop: the second of two clicks starts the application. -/
def clickIcon (s : GuiSystem) (w : World) (x y : ℤ) (app : Option AppId) : GuiSystem :=
  if w.now - s.lastIconClickTick ≤ doubleClickTicks ∧ 0 ≤ s.lastIconClickX ∧
      s.lastIconClickX - 4 ≤ x ∧ x ≤ s.lastIconClickX + 4 ∧
      s.lastIconClickY - 4 ≤ y ∧ y ≤ s.lastIconClickY + 4 then
    { (s.launchAppElf w.launched app).1 with
      lastIconClickTick := 0, lastIconClickX := -1000, lastIconClickY := -1000 }
  else { s with lastIconClickTick := w.now, lastIconClickX := x, lastIconClickY := y }

/-- The second part of `handle_left_release`: what a click does. `power_shutdown` and
`power_restart` do not return. -/
def click (s : GuiSystem) (w : World) (x y : ℤ) (hit : HitResult) : GuiSystem :=
  match hit.target with
  | .windowClose => s.closeApp hit.app
  | .windowMaximize => s.toggleMaximizeApp hit.app
  | .windowMinimize => s.minimizeApp hit.app
  | .windowClient => if hit.app = some .files then s.maybeOpenFileFromExplorer w x y else s
  | .startButton => { s with startMenuOpen := !s.startMenuOpen }
  | .taskButton => s.openApp hit.app
  | .startTerminal => (s.launchAppElf w.launched hit.app).1
  | .desktopIcon => s.clickIcon w x y hit.app
  | .desktop => { s.unfocusAll with startMenuOpen := false }
  | .startShutdown | .startRestart | .windowTitlebar | .windowResize | .none => s

/-- The end of `handle_left_release`: a release that matches the press is a click, and otherwise the
press is forgotten. -/
def endPress (s : GuiSystem) (w : World) (x y : ℤ) (hit : HitResult) : GuiSystem :=
  if s.clickMatchesPress x y = true ∧ hit = s.mousePressHit then s.click w x y hit
  else { s with mousePressHit := ⟨.none, none⟩ }

/-- `GuiSystem::handle_left_release`. -/
def handleLeftRelease (s : GuiSystem) (w : World) (x y : ℤ) : GuiSystem :=
  let s := if s.mousePressHit.target = .none then s.recordPress x y else s
  endPress { s with wm := s.wm.endPointerAction } w x y (s.hitTest x y)

/-- `GuiSystem::handle_mouse_drag`. -/
def handleMouseDrag (s : GuiSystem) (x y : ℤ) : GuiSystem :=
  match s.mousePressHit.app with
  | none => s
  | some a =>
    let s := if s.wm.dragging then s.modify a (s.wm.updateDrag s.metrics x y) else s
    if s.wm.resizing then s.modify a (updateResize s.metrics x y) else s

/-- The keys of `gui_event.h` that are not characters. -/
def keyF1 : UInt8 := 16
def keyF2 : UInt8 := 17
def keyF3 : UInt8 := 18
def keyF4 : UInt8 := 19
def keyF5 : UInt8 := 20
def keyPageUp : UInt8 := 22
def keyPageDown : UInt8 := 23
def keyArrowUp : UInt8 := 24
def keyArrowDown : UInt8 := 25

/-- `TerminalApp::handle_key`, as far as windows are concerned: a key other than the scrolling ones
gives the focus to a visible terminal, and Enter may run a program. -/
def terminalHandleKey (s : GuiSystem) (w : World) (key : UInt8) (z : ℕ) : GuiSystem :=
  if key = keyF1 then s.modify .terminal (TerminalApp.openWindow s.metrics z)
  else if key ∈ [keyPageUp, keyPageDown, keyArrowUp, keyArrowDown] then s
  else if (s.windows .terminal).visible = false then s
  else
    let s := s.modify .terminal (Window.focus z)
    if key = 10 ∧ w.commandRuns = true then
      s.terminalRunProgram w ⟨0, 0, 0⟩ (s.windows .terminal).z
    else s

/-- The three windows that the key path of `handle_event` takes the focus from. -/
def unfocusUtilities (s : GuiSystem) : GuiSystem :=
  ((s.modify .files Window.unfocus).modify .monitor Window.unfocus).modify .about Window.unfocus

/-- The key path of `handle_event`, after the function keys: notepad, or else the terminal. -/
def typeKey (s : GuiSystem) (w : World) (key : UInt8) : GuiSystem :=
  if (s.windows .notepad).isOpen && (s.windows .notepad).focused then s
  else
    let s := s.bump
    let s := s.terminalHandleKey w key s.zCounter
    if (s.windows .terminal).visible then s.unfocusUtilities else s

/-- `GuiSystem::handle_event` for a key that is pressed. -/
def handleKey (s : GuiSystem) (w : World) (key : UInt8) : GuiSystem :=
  if key = keyF1 then (s.launchAppElf w.launched (some .terminal)).1
  else if key = keyF2 then (s.launchAppElf w.launched (some .files)).1
  else if key = keyF3 then (s.launchAppElf w.launched (some .monitor)).1
  else if key = keyF4 then (s.launchAppElf w.launched (some .about)).1
  else if key = keyF5 then
    ((s.launchAppElf w.launched (some .files)).1.openFirstTextFileInNotepad w).1
  else s.typeKey w key

/-- `GuiSystem::handle_event`. -/
def handleEvent (s : GuiSystem) (w : World) (e : GuiEvent) : GuiSystem :=
  match e.type with
  | .key => if e.pressed then s.handleKey w e.key else s
  | .mouseButton =>
    if e.pressed then s.handleLeftPress e.x.toInt e.y.toInt
    else s.handleLeftRelease w e.x.toInt e.y.toInt
  | .mouseMove => if e.pressed then s.handleMouseDrag e.x.toInt e.y.toInt else s
  | .mouseScroll | .timerTick | .none => s

/-! ### Runs -/

/-- The object `g_gui` before `initialize`. -/
def fresh : GuiSystem where
  metrics := ⟨320, 200, 18⟩
  windows := fun _ => windowInitialize ⟨0, 0, 0, 0⟩
  wm := ⟨false, false, 0, 0⟩
  startMenuOpen := false
  mousePressX := 0
  mousePressY := 0
  mousePressHit := ⟨.none, none⟩
  increments := 0
  lastIconClickTick := 0
  lastIconClickX := -1000
  lastIconClickY := -1000
  lastFilesClickIndex := -1
  lastFilesClickTick := 0

/-- The size of the screen, in the fields of `boot_graphics_info`. -/
structure Screen where
  width : UInt16
  height : UInt16

/-- The metrics that `initialize` takes from the screen. -/
def Screen.metrics (d : Screen) : Metrics :=
  ⟨d.width.toNat, d.height.toNat, if d.height.toNat ≥ 480 then 30 else 22⟩

/-- `GuiSystem::initialize`. -/
def guiInitialize (s : GuiSystem) (d : Screen) : GuiSystem :=
  { s with
    metrics := d.metrics
    windows := fun a => windowInitialize (defaultGeometry a d.metrics)
    startMenuOpen := false
    wm := s.wm.endPointerAction
    mousePressHit := ⟨.none, none⟩
    lastIconClickTick := 0
    lastIconClickX := -1000
    lastIconClickY := -1000
    lastFilesClickIndex := -1
    lastFilesClickTick := 0 }

/-- The desktop after `initialize` and a sequence of events. -/
def run (d : Screen) (events : List (World × GuiEvent)) : GuiSystem :=
  events.foldl (fun s e => s.handleEvent e.1 e.2) (fresh.guiInitialize d)

/-- A function key starts a program that opens one application. -/
def launch (key : UInt8) (id : UInt32) : World × GuiEvent :=
  (⟨0, [], ⟨[id], 0⟩, false, ⟨[], 0⟩⟩,
    { type := .key, x := 0, y := 0, dx := 0, dy := 0, wheelDelta := 0, key := key, keycode := 0
      modifiers := 0, pressed := true, ticks := 0 })

/-- The button goes down or up. -/
def button (pressed : Bool) (x y : Int32) : World × GuiEvent :=
  (⟨0, [], ⟨[], 0⟩, false, ⟨[], 0⟩⟩,
    { type := .mouseButton, x := x, y := y, dx := 0, dy := 0, wheelDelta := 0, key := 0
      keycode := 0, modifiers := 0, pressed := pressed, ticks := 0 })

/-- **Induction over the events.** What holds after `initialize` and is kept by every event holds
after every run. -/
theorem run_induction {P : GuiSystem → Prop} {d : Screen} (hinit : P (fresh.guiInitialize d))
    (hstep : ∀ s w e, P s → P (s.handleEvent w e)) (events : List (World × GuiEvent)) :
    P (run d events) := by
  unfold run
  generalize fresh.guiInitialize d = s at hinit ⊢
  induction events generalizing s with
  | nil => exact hinit
  | cons e rest ih => exact ih _ (hstep s e.1 e.2 hinit)

/-- `gui_open` opens an application, or does nothing. -/
theorem openUserApp_cases (s : GuiSystem) (id : UInt32) :
    (s.openUserApp id).1 = s ∨ ∃ a, (s.openUserApp id).1 = s.openApp (some a) := by
  unfold openUserApp
  split_ifs
  · exact .inr ⟨.terminal, rfl⟩
  · exact .inr ⟨.files, rfl⟩
  · exact .inr ⟨.monitor, rfl⟩
  · exact .inr ⟨.about, rfl⟩
  · exact .inr ⟨.notepad, rfl⟩
  · exact .inl rfl

/-- **Induction over what a program opens.** -/
theorem runProgram_induction {P : GuiSystem → Prop}
    (hopen : ∀ s a, P s → P (s.openApp (some a))) {s : GuiSystem} (h : P s) (p : Program) :
    P (s.runProgram p) := by
  unfold runProgram
  generalize p.opens = ids
  induction ids generalizing s with
  | nil => exact h
  | cons id rest ih =>
    have hid : P (s.openUserApp id).1 := by
      rcases s.openUserApp_cases id with hsame | ⟨a, ha⟩
      · rw [hsame]
        exact h
      · rw [ha]
        exact hopen s a h
    exact ih hid

/-! ### The window of one application -/

@[simp] theorem modify_same (s : GuiSystem) (a : AppId) (f : Window → Window) :
    (s.modify a f).windows a = f (s.windows a) := Function.update_self ..

theorem modify_other (s : GuiSystem) {a b : AppId} (h : b ≠ a) (f : Window → Window) :
    (s.modify a f).windows b = s.windows b := Function.update_of_ne h ..

end GuiSystem

end MyOS.Gui
