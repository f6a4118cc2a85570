import MyOS.Gui.TextBuffer
import MyOS.Gui.System
import Mathlib.Data.List.Induction

/-!
# The terminal

`TerminalApp` with its text, its command line and its ring of commands. What the commands learn from
the kernel is a parameter of the key that enters them (`Services`), and so is what a program that
`run` starts does to the terminal.

`fault` is not in the source: it is set by an access outside of `command_line_` or
`command_history_`, also when a string that is read there does not end. Without a space after the
path the digits of `truncate` are read from behind the NUL of the command; they end because the last
byte of `command_line_` is never anything but NUL.
-/

namespace MyOS.Gui

open Function List

open GuiSystem (keyF1 keyPageUp keyPageDown keyArrowUp keyArrowDown)

/-- `COMMAND_SIZE` and `COMMAND_HISTORY`. -/
def commandSize : ℕ := 96
def commandHistorySize : ℕ := 8

/-- What a user program does to the terminal while it runs. -/
inductive ProgramAction where
  | print (text : List UInt8)
  | openWindow (m : Metrics) (z : ℕ)

/-- What the commands call. -/
structure Services where
  timerTicks : UInt32
  uptimeSeconds : UInt32
  freePages : UInt32
  freeBytes : UInt32
  switchCount : UInt32
  processCount : UInt32
  pciDevices : UInt32
  fileNames : List (List UInt8)
  readFile : List UInt8 → Option (List UInt8)
  writeFile : List UInt8 → List UInt8 → Bool
  deleteFile : List UInt8 → Bool
  renameFile : List UInt8 → List UInt8 → Bool
  truncateFile : List UInt8 → UInt32 → Bool
  fsckReport : List UInt8
  fsckErrors : UInt32
  runProgram : List UInt8 → List ProgramAction × UInt32

/-- A kernel where every call fails. -/
def Services.idle : Services where
  timerTicks := 0
  uptimeSeconds := 0
  freePages := 0
  freeBytes := 0
  switchCount := 0
  processCount := 0
  pciDevices := 0
  fileNames := []
  readFile _ := none
  writeFile _ _ := false
  deleteFile _ := false
  renameFile _ _ := false
  truncateFile _ _ := false
  fsckReport := []
  fsckErrors := 0
  runProgram _ := ([], 0)

/-! ### Commands -/

/-- `u32_to_dec`. -/
def u32ToDec (value : UInt32) : List UInt8 :=
  (Nat.toDigits 10 value.toNat).map fun c => c.toNat.toUInt8

/-- The texts of `print_u32`. -/
def decLine (name : String) (value : UInt32) : List (List UInt8) :=
  [ascii name, u32ToDec value, ascii "\n"]

/-- The loop that copies the first argument to `path[32]`. -/
def pathArg (args : List UInt8) : List UInt8 := (args.takeWhile (· != space)).take 31

/-- What is behind the first argument and a space; `none` if there is no argument or no space. -/
def secondArg (args : List UInt8) : Option (List UInt8) :=
  if (pathArg args).length ≠ 0 ∧ args[(pathArg args).length]? = some space then
    some (args.drop ((pathArg args).length + 1))
  else none

def isDigit (c : UInt8) : Bool := decide (48 ≤ c) && decide (c ≤ 57)

/-- The loop over digits of `execute_command` and `parse_u32`, in 32-bit arithmetic. -/
def parseU32 (text : List UInt8) : UInt32 :=
  (text.takeWhile isDigit).foldl (fun value c => value * 10 + (c - 48).toUInt32) 0

/-- What `execute_command` does after `push_history`. -/
inductive Response where
  | print (texts : List (List UInt8))
  | clear
  | run (path : List UInt8)

def passed (name : String) (ok : Bool) : List (List UInt8) :=
  [ascii (name ++ if ok then " passed.\n" else " failed.\n")]

/-- The bytes behind the command's path, where the size of `truncate` is read, whatever they are. -/
def sizeText (raw : List UInt8) : List UInt8 :=
  raw.drop (9 + (pathArg ((raw.takeWhile (· != 0)).drop 9)).length + 1)

/-- The commands of `TerminalApp::execute_command`; `raw` is all of `command_line_`. -/
def respond (sv : Services) (raw : List UInt8) : Response :=
  let line := raw.takeWhile (· != 0)
  if line = ascii "help" then
    .print [ascii ("Commands: help clear about ticks uptime ls cat write delete rename truncate " ++
      "fsck pci run procs tasks mem\n")]
  else if line = ascii "clear" then .clear
  else if line = ascii "about" then
    .print [ascii "MyOS GUI double-buffered desktop.\n",
      ascii "Window manager: drag focus min max resize.\n"]
  else if line = ascii "ticks" then .print (decLine "Timer ticks=" sv.timerTicks)
  else if line = ascii "uptime" then .print (decLine "Uptime seconds=" sv.uptimeSeconds)
  else if line = ascii "mem" then
    .print (decLine "PMM free pages=" sv.freePages ++ decLine "Heap free bytes=" sv.freeBytes)
  else if line = ascii "tasks" then .print (decLine "Scheduler switches=" sv.switchCount)
  else if line = ascii "procs" then .print (decLine "User processes=" sv.processCount)
  else if line = ascii "ls" then
    .print (ascii "diskfs:\n" :: sv.fileNames.flatMap fun name => [name, ascii "\n"])
  else if ascii "cat " <+: line then
    match sv.readFile (line.drop 4) with
    | none => .print [ascii "File not found.\n"]
    | some data =>
      .print (data.map (fun c => [c]) ++ if data.getLast? = some 10 then [] else [ascii "\n"])
  else if ascii "write " <+: line then
    let args := line.drop 6
    .print (passed "Write" ((secondArg args).elim false (sv.writeFile (pathArg args))))
  else if ascii "delete " <+: line then .print (passed "Delete" (sv.deleteFile (line.drop 7)))
  else if ascii "rename " <+: line then
    let args := line.drop 7
    .print (passed "Rename" ((secondArg args).elim false (sv.renameFile (pathArg args))))
  else if ascii "truncate " <+: line then
    let args := line.drop 9
    let size := parseU32 (sizeText raw)
    .print (passed "Truncate" ((secondArg args).isSome && sv.truncateFile (pathArg args) size))
  else if line = ascii "fsck" then
    .print (sv.fsckReport :: decLine "fsck errors=" sv.fsckErrors)
  else if line = ascii "pci" then .print (decLine "PCI devices=" sv.pciDevices)
  else if ascii "run " <+: line then .run (line.drop 4)
  else .print [ascii "Unknown command. Type help.\n"]

/-- The reads of `execute_command` stay in `command_line_`: the command ends there, and so do the
digits of `truncate`. -/
def readsInside (raw : List UInt8) : Bool :=
  raw.contains 0 &&
    (!decide (ascii "truncate " <+: raw.takeWhile (· != 0)) || (sizeText raw).any (!isDigit ·))

/-! ### The state -/

/-- `TerminalApp`. -/
structure Terminal where
  window : Window
  text : TextBuffer
  commandLine : ℕ → UInt8
  commandLen : ℕ
  commandHistory : ℕ → ℕ → UInt8
  commandHistoryCount : ℕ
  commandHistoryIndex : ℤ
  /-- An access was outside of `command_line_` or `command_history_`. -/
  fault : Bool

/-- `TerminalApp::text_cols`, which looks at the window alone. -/
def Window.textCols (w : Window) : ℕ :=
  if w.rect.w ≤ 18 then 1
  else
    let cols := ((w.rect.w - 16) / 6).toNat
    let cols := if cols > termCols then termCols else cols
    if cols = 0 then 1 else cols

namespace Terminal

/-- `TerminalApp::text_cols`. -/
def textCols (t : Terminal) : ℕ := t.window.textCols

/-- `TerminalApp::write`, and `print`, which sends a copy to the serial port. -/
def write (t : Terminal) (text : List UInt8) : Terminal :=
  { t with text := t.text.write t.textCols text }

def writeAll (t : Terminal) (texts : List (List UInt8)) : Terminal := texts.foldl write t

def prompt : List UInt8 := ascii "myos> "

/-- `TerminalApp::clear_buffer`. -/
def clear (t : Terminal) : Terminal := { t with text := t.text.clearBuffer }

/-- `command_line_[i] = c`. -/
def setCommand (t : Terminal) (i : ℕ) (c : UInt8) : Terminal :=
  { t with
    commandLine := update t.commandLine i c
    fault := t.fault || !decide (i < commandSize) }

/-- All of `command_line_`. -/
def rawCommand (t : Terminal) : List UInt8 := (List.range commandSize).map t.commandLine

/-- What the command line holds. -/
def command (t : Terminal) : List UInt8 := (List.range t.commandLen).map t.commandLine

/-- `TerminalApp::push_history`, for a string in `command_line_`. -/
def pushHistory (t : Terminal) (line : List UInt8) : Terminal :=
  if line = [] then t
  else
    let slot := t.commandHistoryCount % commandHistorySize
    let copied := line.take (commandSize - 1)
    { t with
      commandHistory := update t.commandHistory slot fun i =>
        if i < copied.length then copied.getD i 0
        else if i = copied.length then 0 else t.commandHistory slot i
      fault := t.fault ||
        !(decide (slot < commandHistorySize) && decide (copied.length < commandSize))
      commandHistoryCount := (t.commandHistoryCount + 1) % 4294967296
      commandHistoryIndex := -1 }

/-- `TerminalApp::open_window`. -/
def openWindow (t : Terminal) (m : Metrics) (z : ℕ) : Terminal :=
  let wasOpen := t.window.isOpen
  let t := { t with window := TerminalApp.openWindow m z t.window }
  if wasOpen then t
  else
    { t.clear with commandLen := 0, commandHistoryIndex := -1 }.writeAll
      [ascii "MyOS GUI terminal\n", ascii "Commands are framebuffer-rendered.\n",
        ascii "Drag title, resize corner, use _ M X.\n", prompt]

def act (t : Terminal) : ProgramAction → Terminal
  | .print text => t.write text
  | .openWindow m z => t.openWindow m z

/-- `TerminalApp::run_program`. -/
def runProgram (t : Terminal) (sv : Services) (path : List UInt8) (m : Metrics) (z : ℕ) :
    Terminal :=
  let t := (t.openWindow m z).writeAll [ascii "Loading user program: ", path, ascii "\n"]
  let t := (sv.runProgram path).1.foldl act t
  t.writeAll (decLine "Program exited with code " (sv.runProgram path).2 ++ [prompt])

/-- `TerminalApp::execute_command` for `command_line_`. -/
def executeCommand (t : Terminal) (sv : Services) : Terminal :=
  let raw := t.rawCommand
  let line := raw.takeWhile (· != 0)
  let t := { t with fault := t.fault || !readsInside raw }
  if line = [] then t.write prompt
  else
    let t := t.pushHistory line
    match respond sv raw with
    | .print texts => (t.writeAll texts).write prompt
    | .clear => t.clear.write prompt
    | .run path => t.runProgram sv path ⟨0, 0, 0⟩ t.window.z

/-- The number of commands that can be recalled, less one. -/
def maxIndex (t : Terminal) : ℤ :=
  (if t.commandHistoryCount < commandHistorySize then t.commandHistoryCount
    else commandHistorySize : ℕ) - 1

/-- One round of the loop of `recall_history` that removes the command. -/
def eraseChar (t : Terminal) : Terminal := { t with commandLen := t.commandLen - 1 }.write [8]

/-- A character at the end of the command line. -/
def appendChar (t : Terminal) (c : UInt8) : Terminal :=
  { t.setCommand t.commandLen c with commandLen := t.commandLen + 1 }.write [c]

/-- The index into the history that `recall_history` moves to. -/
def nextIndex (t : Terminal) (delta : ℤ) : ℤ :=
  let index := if t.commandHistoryIndex < 0 then t.maxIndex else t.commandHistoryIndex + delta
  let index := if index < 0 then 0 else index
  if index > t.maxIndex then t.maxIndex else index

/-- The slot of the ring for an index. -/
def slotOf (t : Terminal) (index : ℤ) : ℕ :=
  (u32 (t.commandHistoryCount - 1 - u32 (t.maxIndex - index))).toNat % commandHistorySize

/-- The characters of an entry of the history, as far as `recall_history` copies them. -/
def entry (t : Terminal) (slot : ℕ) : List UInt8 :=
  ((List.range (commandSize - 1)).map (t.commandHistory slot)).takeWhile (· != 0)

/-- `TerminalApp::recall_history`. -/
def recallHistory (t : Terminal) (delta : ℤ) : Terminal :=
  if t.commandHistoryCount = 0 then t
  else
    let t := { t with commandHistoryIndex := t.nextIndex delta }
    let t := eraseChar^[t.commandLen] t
    let slot := t.slotOf t.commandHistoryIndex
    let t := { t with commandLen := 0, fault := t.fault || !decide (slot < commandHistorySize) }
    (t.entry slot).foldl appendChar t

/-- Enter. -/
def enter (t : Terminal) (sv : Services) : Terminal :=
  { ((t.setCommand t.commandLen 0).write [10]).executeCommand sv with commandLen := 0 }

/-- The last part of `handle_key`: the keys that edit or enter the command. -/
def editKey (t : Terminal) (key : UInt8) (sv : Services) : Terminal :=
  if key = 10 then t.enter sv
  else if key = 8 then
    if 0 < t.commandLen then t.eraseChar else t
  else if 32 ≤ key ∧ key ≤ 126 ∧ t.commandLen + 1 < commandSize then t.appendChar key
  else t

/-- `TerminalApp::handle_key`. -/
def handleKey (t : Terminal) (key : UInt8) (m : Metrics) (z : ℕ) (sv : Services) : Terminal :=
  if key = keyF1 then t.openWindow m z
  else if key = keyPageUp then
    if t.text.scroll + 1 < t.text.lineCount then
      { t with text := { t.text with scroll := t.text.scroll + 1 } }
    else t
  else if key = keyPageDown then
    if 0 < t.text.scroll then { t with text := { t.text with scroll := t.text.scroll - 1 } } else t
  else if key = keyArrowUp then t.recallHistory (-1)
  else if key = keyArrowDown then t.recallHistory 1
  else if !t.window.isOpen || t.window.mode == .minimized then t
  else { t with window := t.window.focus z }.editKey key sv

/-- `TerminalApp::initialize`, on the zeros that static memory begins with. -/
def initial (m : Metrics) : Terminal where
  window := windowInitialize (TerminalApp.defaultGeometry m)
  text := TextBuffer.clearBuffer ⟨fun _ _ => 0, 0, 0, 0, false, []⟩
  commandLine _ := 0
  commandLen := 0
  commandHistory _ _ := 0
  commandHistoryCount := 0
  commandHistoryIndex := -1
  fault := false

/-! ### Runs -/

/-- What happens to the terminal. Its window may be moved, resized, minimized and closed at any
time. `TerminalApp::close` also empties the command line, which `window` leaves as it is: only the
arrow keys reach the line of a closed window, and `open_window` empties it. -/
inductive Step where
  | write (text : List UInt8)
  | clear
  | scroll (delta : ℤ)
  | key (key : UInt8) (m : Metrics) (z : ℕ) (sv : Services)
  | recallHistory (delta : ℤ)
  | window (w : Window)

def step (t : Terminal) : Step → Terminal
  | .write text => t.write text
  | .clear => t.clear
  | .scroll delta => { t with text := t.text.scrollBy delta }
  | .key key m z sv => t.handleKey key m z sv
  | .recallHistory delta => t.recallHistory delta
  | .window w => { t with window := w }

def run (m : Metrics) (steps : List Step) : Terminal := steps.foldl step (initial m)

/-- A key on a screen of 640×480 pixels. -/
def press (c : UInt8) : Step := .key c ⟨640, 480, 30⟩ 1 Services.idle

/-! ### The invariant -/

/-- The text is in order, the command fits with its NUL, and no access was out of bounds. -/
structure Ok (t : Terminal) : Prop where
  text : t.text.Ok
  len : t.commandLen < commandSize
  nul : t.commandLine 95 = 0
  safe : t.fault = false

variable {t : Terminal}

theorem textCols_le (t : Terminal) : t.textCols ≤ termCols := by
  unfold textCols Window.textCols
  dsimp only
  split_ifs <;> simp only [termCols] at * <;> omega

theorem commandSize_pos : 0 < commandSize := by decide

section

variable (h : t.Ok)
include h

theorem Ok.write (text : List UInt8) : (t.write text).Ok :=
  { h with text := h.text.write t.textCols_le text }

theorem Ok.writeAll (texts : List (List UInt8)) : (t.writeAll texts).Ok := by
  induction texts generalizing t with
  | nil => exact h
  | cons text texts ih => exact ih (h.write text)

theorem Ok.clear : t.clear.Ok :=
  { h with text := TextBuffer.ok_clearBuffer h.text.safe }

theorem Ok.openWindow (m : Metrics) (z : ℕ) : (t.openWindow m z).Ok := by
  unfold Terminal.openWindow
  dsimp only
  split
  · exact { h with }
  · refine Ok.writeAll ?_ _
    exact ⟨TextBuffer.ok_clearBuffer h.text.safe, commandSize_pos, h.nul, h.safe⟩

/-- A program can print and open the window, and nothing else. -/
theorem Ok.runProgram (sv : Services) (path : List UInt8) (m : Metrics) (z : ℕ) :
    (t.runProgram sv path m z).Ok := by
  have hact : ∀ (l : List ProgramAction) (t : Terminal), t.Ok → (l.foldl act t).Ok := by
    intro l
    induction l with
    | nil => exact fun t ht => ht
    | cons a l ih =>
      intro t ht
      refine ih _ ?_
      cases a with
      | print text => exact ht.write text
      | openWindow m z => exact ht.openWindow m z
  exact (hact _ _ ((h.openWindow m z).writeAll _)).writeAll _

theorem Ok.pushHistory (line : List UInt8) : (t.pushHistory line).Ok := by
  unfold Terminal.pushHistory
  split
  · exact h
  · have hslot : t.commandHistoryCount % commandHistorySize < commandHistorySize :=
      Nat.mod_lt _ (by decide)
    have hlen : (line.take (commandSize - 1)).length < commandSize := by
      rw [length_take]
      simp only [commandSize]
      omega
    refine { h with safe := ?_ }
    dsimp only
    rw [h.safe, decide_eq_true hslot, decide_eq_true hlen]
    rfl

/-- The last byte of `command_line_` ends whatever is read there. -/
theorem Ok.readsInside : readsInside t.rawCommand = true := by
  have hraw : t.rawCommand = (List.range 95).map t.commandLine ++ [0] := by
    rw [rawCommand, commandSize, range_succ, map_append, map_singleton, h.nul]
  have hpath : ∀ args : List UInt8, (pathArg args).length ≤ 31 := fun args => by
    rw [pathArg, length_take]
    omega
  have hsize : (0 : UInt8) ∈ sizeText t.rawCommand := by
    have hle := hpath ((t.rawCommand.takeWhile (· != 0)).drop 9)
    rw [sizeText]
    generalize (pathArg ((t.rawCommand.takeWhile (· != 0)).drop 9)).length = n at hle ⊢
    rw [hraw, drop_append_of_le_length (by simp; omega)]
    exact mem_append_right _ mem_cons_self
  rw [Gui.readsInside, Bool.and_eq_true, Bool.or_eq_true]
  refine ⟨?_, .inr (any_eq_true.mpr ⟨0, hsize, by decide⟩)⟩
  rw [hraw]
  simp

theorem Ok.executeCommand (sv : Services) : (t.executeCommand sv).Ok := by
  have hread : { t with fault := t.fault || !Gui.readsInside t.rawCommand }.Ok :=
    { h with safe := by simp [h.safe, h.readsInside] }
  unfold Terminal.executeCommand
  dsimp only
  split
  · exact hread.write prompt
  · have hpush := hread.pushHistory (t.rawCommand.takeWhile (· != 0))
    cases respond sv t.rawCommand with
    | print texts => exact (hpush.writeAll texts).write prompt
    | clear => exact hpush.clear.write prompt
    | run path => exact hpush.runProgram sv path _ _

theorem Ok.eraseChar : t.eraseChar.Ok := by
  exact Ok.write (t := { t with commandLen := t.commandLen - 1 })
    { h with len := lt_of_le_of_lt (Nat.sub_le _ 1) h.len } [8]

theorem Ok.appendChar (hroom : t.commandLen + 1 < commandSize) (c : UInt8) :
    (t.appendChar c).Ok := by
  have hlen := h.len
  refine Ok.write ?_ [c]
  refine { h with len := hroom, nul := ?_, safe := ?_ }
  · simp only [setCommand, commandSize] at hroom ⊢
    rw [update_of_ne (by omega)]
    exact h.nul
  · simp [setCommand, h.safe, hlen]

/-- **Run.** Characters are appended while there is room for them. -/
theorem Ok.appendAll {l : List UInt8} (hl : t.commandLen + l.length < commandSize) :
    (l.foldl Terminal.appendChar t).Ok := by
  induction l generalizing t with
  | nil => exact h
  | cons c l ih =>
    rw [length_cons] at hl
    refine ih (h.appendChar (by omega) c) ?_
    change t.commandLen + 1 + l.length < commandSize
    omega

end

theorem length_entry (t : Terminal) (slot : ℕ) : (t.entry slot).length ≤ commandSize - 1 := by
  refine (takeWhile_sublist _).length_le.trans ?_
  simp

theorem Ok.eraseAll (h : t.Ok) (k : ℕ) : (Terminal.eraseChar^[k] t).Ok := by
  induction k generalizing t with
  | zero => exact h
  | succ k ih => exact ih h.eraseChar

theorem Ok.recallHistory (h : t.Ok) (delta : ℤ) : (t.recallHistory delta).Ok := by
  have hselect : Ok { t with commandHistoryIndex := t.nextIndex delta } := { h with }
  have hbase := hselect.eraseAll t.commandLen
  unfold Terminal.recallHistory
  split
  · exact h
  · dsimp only
    generalize Terminal.eraseChar^[t.commandLen]
      { t with commandHistoryIndex := t.nextIndex delta } = u at hbase ⊢
    have hslot : u.slotOf u.commandHistoryIndex < commandHistorySize := Nat.mod_lt _ (by decide)
    refine Ok.appendAll ?_ ?_
    · exact { hbase with len := commandSize_pos, safe := by simp [hbase.safe, hslot] }
    · have := length_entry { u with
        commandLen := 0,
        fault := u.fault || !decide (u.slotOf u.commandHistoryIndex < commandHistorySize) }
        (u.slotOf u.commandHistoryIndex)
      simp only [commandSize] at this ⊢
      omega

theorem Ok.enter (h : t.Ok) (sv : Services) : (t.enter sv).Ok := by
  have hlen := h.len
  have hset : (t.setCommand t.commandLen 0).Ok := by
    refine { h with nul := ?_, safe := ?_ }
    · by_cases hlast : 95 = t.commandLen
      · simp [setCommand, ← hlast]
      · simp only [setCommand]
        rw [update_of_ne hlast]
        exact h.nul
    · simp [setCommand, h.safe, hlen]
  exact { (hset.write [10]).executeCommand sv with len := commandSize_pos }

theorem Ok.editKey (h : t.Ok) (key : UInt8) (sv : Services) : (t.editKey key sv).Ok := by
  unfold Terminal.editKey
  split_ifs with _ _ _ hroom
  · exact h.enter sv
  · exact h.eraseChar
  · exact h
  · exact h.appendChar hroom.2.2 key
  · exact h

theorem Ok.setWindow (h : t.Ok) (w : Window) : { t with window := w }.Ok := { h with }

theorem Ok.handleKey (h : t.Ok) (key : UInt8) (m : Metrics) (z : ℕ) (sv : Services) :
    (t.handleKey key m z sv).Ok := by
  unfold Terminal.handleKey
  split_ifs with _ _ hup
  · exact h.openWindow m z
  · exact { h with text := h.text.setScroll hup }
  · exact h
  · exact { h with text := h.text.setScroll (lt_of_le_of_lt (Nat.sub_le _ 1) h.text.scroll_lt) }
  · exact h
  · exact h.recallHistory (-1)
  · exact h.recallHistory 1
  · exact h
  · exact (h.setWindow _).editKey key sv

/-- **Step.** -/
theorem Ok.step (h : t.Ok) (s : Step) : (t.step s).Ok := by
  cases s with
  | write text => exact h.write text
  | clear => exact h.clear
  | scroll delta => exact { h with text := h.text.scrollBy delta }
  | key key m z sv => exact h.handleKey key m z sv
  | recallHistory delta => exact h.recallHistory delta
  | window w => exact h.setWindow w

theorem ok_initial (m : Metrics) : (initial m).Ok where
  text := TextBuffer.ok_clearBuffer rfl
  len := by simp [initial, commandSize]
  nul := rfl
  safe := rfl

/-- **Run.** -/
theorem ok_run (m : Metrics) (steps : List Step) : (run m steps).Ok := by
  unfold run
  induction steps using List.reverseRecOn with
  | nil => exact ok_initial m
  | append_singleton steps s ih =>
    rw [foldl_append]
    exact ih.step s

end Terminal

/-- **The buffers of the terminal are safe.** Whatever is written, cleared, scrolled, typed and
recalled, and whatever becomes of the window in between: the counters stay in their bounds, no
access was out of bounds, and the rows are the newest ones of all rows, in order. -/
theorem terminal_safe (m : Metrics) (steps : List Terminal.Step) :
    let t := Terminal.run m steps
    (1 ≤ t.text.lineCount ∧ t.text.lineCount ≤ historyRows) ∧ t.text.col < termCols ∧
      t.text.scroll < t.text.lineCount ∧ t.commandLen < commandSize ∧
      (t.text.fault = false ∧ t.fault = false) ∧
      t.text.lineCount = min historyRows t.text.log.length ∧
      ∀ i < t.text.lineCount, ∀ x < termCols,
        t.text.lines (t.text.lineCount - 1 - i) x = t.text.log.getD i blankRow x := by
  obtain ⟨htext, hlen, -, hsafe⟩ := Terminal.ok_run m steps
  exact ⟨⟨htext.pos, htext.le⟩, htext.col_lt, htext.scroll_lt, hlen, ⟨htext.safe, hsafe⟩,
    htext.kept, htext.rows⟩

end MyOS.Gui
