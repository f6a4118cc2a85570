import MyOS.Gui.Terminal
import Mathlib.Data.List.GetD
import Mathlib.Data.List.TakeWhile

/-!
# The history of commands

`push_history` keeps the last eight commands in a ring, and the arrow keys move an index into it.
`commands` is the list of all commands that a run has entered, newest first. The invariant `Holds`
says that the ring has the first eight of them; only Enter changes the ring, and then the new
command takes the slot of the oldest one. `recall_exact` follows: after a command the arrow keys
bring back the command whose rank they count.
-/

namespace MyOS.Gui

open Function List

namespace Terminal

/-- The command that Enter gives to `execute_command`. -/
def entered (t : Terminal) : List UInt8 :=
  (t.setCommand t.commandLen 0).rawCommand.takeWhile (· != 0)

/-- The command that a step executes: that of Enter in a window that takes keys, if it is not
empty. -/
def executed (t : Terminal) : Step → Option (List UInt8)
  | .key key _ _ _ =>
    if key = 10 ∧ t.window.isOpen = true ∧ t.window.mode ≠ .minimized ∧ t.entered ≠ [] then
      some t.entered
    else none
  | _ => none

/-- The state and the commands executed so far, newest first. -/
def stepLog (st : Terminal × List (List UInt8)) (s : Step) : Terminal × List (List UInt8) :=
  (st.1.step s, (st.1.executed s).toList ++ st.2)

def runLog (m : Metrics) (steps : List Step) : Terminal × List (List UInt8) :=
  steps.foldl stepLog (initial m, [])

/-- The commands that a run has executed, newest first. -/
def commands (m : Metrics) (steps : List Step) : List (List UInt8) := (runLog m steps).2

theorem runLog_fst (m : Metrics) (steps : List Step) : (runLog m steps).1 = run m steps := by
  unfold runLog run
  induction steps using reverseRecOn with
  | nil => rfl
  | append_singleton steps s ih =>
    rw [foldl_append, foldl_append, foldl_cons, foldl_cons, foldl_nil, foldl_nil, ← ih]
    rfl

/-! ### What keeps the ring -/

/-- The ring and its counter are the same. -/
def SameHistory (t u : Terminal) : Prop :=
  u.commandHistory = t.commandHistory ∧ u.commandHistoryCount = t.commandHistoryCount

variable {t u v : Terminal}

theorem SameHistory.refl (t : Terminal) : t.SameHistory t := ⟨rfl, rfl⟩

theorem SameHistory.trans (h1 : t.SameHistory u) (h2 : u.SameHistory v) : t.SameHistory v :=
  ⟨h2.1.trans h1.1, h2.2.trans h1.2⟩

theorem sameHistory_foldl {α : Type*} {f : Terminal → α → Terminal}
    (hf : ∀ (t : Terminal) (a : α), t.SameHistory (f t a)) (l : List α) (t : Terminal) :
    t.SameHistory (l.foldl f t) := by
  induction l generalizing t with
  | nil => exact .refl t
  | cons a l ih => exact (hf t a).trans (ih _)

theorem sameHistory_writeAll (t : Terminal) (texts : List (List UInt8)) :
    t.SameHistory (t.writeAll texts) :=
  sameHistory_foldl (f := write) (fun t _ => .refl t) texts t

theorem sameHistory_openWindow (t : Terminal) (m : Metrics) (z : ℕ) :
    t.SameHistory (t.openWindow m z) := by
  unfold openWindow
  dsimp only
  split
  · exact ⟨rfl, rfl⟩
  · exact SameHistory.trans ⟨rfl, rfl⟩ (sameHistory_writeAll _ _)

theorem sameHistory_runProgram (t : Terminal) (sv : Services) (path : List UInt8) (m : Metrics)
    (z : ℕ) : t.SameHistory (t.runProgram sv path m z) := by
  refine ((sameHistory_openWindow t m z).trans (sameHistory_writeAll _ _)).trans
    ((sameHistory_foldl (fun t a => ?_) _ _).trans (sameHistory_writeAll _ _))
  cases a with
  | print text => exact .refl t
  | openWindow m z => exact sameHistory_openWindow t m z

theorem SameHistory.push (h : t.SameHistory u) (line : List UInt8) :
    (t.pushHistory line).SameHistory (u.pushHistory line) := by
  obtain ⟨h1, h2⟩ := h
  unfold pushHistory
  split
  · exact ⟨h1, h2⟩
  · dsimp only
    constructor <;> simp only [h1, h2]

/-- A command is put into the ring before anything else happens. -/
theorem sameHistory_executeCommand (t : Terminal) (sv : Services) :
    (t.pushHistory (t.rawCommand.takeWhile (· != 0))).SameHistory (t.executeCommand sv) := by
  unfold executeCommand
  dsimp only
  split
  · rename_i hempty
    rw [hempty]
    exact .refl t
  · have hpush := SameHistory.push (t := t)
      (u := { t with fault := t.fault || !Gui.readsInside t.rawCommand }) ⟨rfl, rfl⟩
      (t.rawCommand.takeWhile (· != 0))
    refine hpush.trans ?_
    cases respond sv t.rawCommand with
    | print texts => exact sameHistory_writeAll _ texts
    | clear => exact .refl _
    | run path => exact sameHistory_runProgram _ sv path _ _

theorem sameHistory_eraseAll (k : ℕ) (t : Terminal) : t.SameHistory (eraseChar^[k] t) := by
  induction k generalizing t with
  | zero => exact .refl t
  | succ k ih => exact SameHistory.trans ⟨rfl, rfl⟩ (ih t.eraseChar)

theorem sameHistory_recallHistory (t : Terminal) (delta : ℤ) :
    t.SameHistory (t.recallHistory delta) := by
  unfold recallHistory
  split
  · exact .refl t
  · dsimp only
    have hbase := sameHistory_eraseAll t.commandLen
      { t with commandHistoryIndex := t.nextIndex delta }
    exact (SameHistory.trans ⟨rfl, rfl⟩ hbase).trans (SameHistory.trans ⟨rfl, rfl⟩
        (sameHistory_foldl (f := appendChar) (fun _ _ => ⟨rfl, rfl⟩) _ _))

/-- Enter in a window that takes keys. -/
theorem step_enter (hopen : t.window.isOpen = true) (hmode : t.window.mode ≠ .minimized)
    (m : Metrics) (z : ℕ) (sv : Services) :
    t.step (.key 10 m z sv) = { t with window := t.window.focus z }.enter sv := by
  change t.handleKey 10 m z sv = _
  unfold handleKey
  simp only [GuiSystem.keyF1, GuiSystem.keyPageUp, GuiSystem.keyPageDown, GuiSystem.keyArrowUp,
    GuiSystem.keyArrowDown, hopen, editKey]
  simp [hmode]

/-- **Step.** A step puts the command that it executes into the ring, and leaves it alone
otherwise. -/
theorem step_history (t : Terminal) (s : Step) :
    match t.executed s with
    | some line => (t.pushHistory line).SameHistory (t.step s)
    | none => t.SameHistory (t.step s) := by
  cases s with
  | write text => exact .refl t
  | clear => exact .refl t
  | scroll delta => exact ⟨rfl, rfl⟩
  | recallHistory delta => exact sameHistory_recallHistory t delta
  | window w => exact ⟨rfl, rfl⟩
  | key key m z sv =>
    -- Enter is the only key that does not leave the ring alone
    have henter : (t.pushHistory t.entered).SameHistory
        ({ t with window := t.window.focus z }.enter sv) := by
      have hpush := SameHistory.push (t := t)
        (u := ({ t with window := t.window.focus z }.setCommand t.commandLen 0).write [10])
        ⟨rfl, rfl⟩ t.entered
      exact (hpush.trans (sameHistory_executeCommand _ sv)).trans ⟨rfl, rfl⟩
    by_cases hexec : key = 10 ∧ t.window.isOpen = true ∧ t.window.mode ≠ .minimized ∧ t.entered ≠ []
    · simp only [executed, if_pos hexec]
      obtain ⟨rfl, hopen, hmode, -⟩ := hexec
      rw [step_enter hopen hmode]
      exact henter
    · simp only [executed, if_neg hexec]
      change t.SameHistory (t.handleKey key m z sv)
      unfold handleKey
      split_ifs with _ _ _ _ _ _ _ hclosed
      · exact sameHistory_openWindow t m z
      · exact ⟨rfl, rfl⟩
      · exact .refl t
      · exact ⟨rfl, rfl⟩
      · exact .refl t
      · exact sameHistory_recallHistory t (-1)
      · exact sameHistory_recallHistory t 1
      · exact .refl t
      · unfold editKey
        split_ifs with hnl _ _ _
        · -- Enter on an empty line
          have hempty : t.entered = [] := by
            by_contra hne
            have hkeys : t.window.isOpen = true ∧ t.window.mode ≠ .minimized := by
              simpa using hclosed
            exact hexec ⟨hnl, hkeys.1, hkeys.2, hne⟩
          rw [hempty] at henter
          exact henter
        · exact ⟨rfl, rfl⟩
        · exact ⟨rfl, rfl⟩
        · exact ⟨rfl, rfl⟩
        · exact ⟨rfl, rfl⟩

/-! ### The ring -/

/-- A string with its NUL in an array is read back. -/
theorem takeWhile_array {f : ℕ → UInt8} {l : List UInt8} (h₀ : (0 : UInt8) ∉ l) {n : ℕ}
    (hn : l.length ≤ n) (hl : ∀ i (hi : i < l.length), f i = l[i]) (hend : f l.length = 0) :
    ((List.range n).map f).takeWhile (· != 0) = l := by
  obtain ⟨k, rfl⟩ := Nat.exists_eq_add_of_le hn
  have hfront : (range l.length).map f = l := by
    refine ext_getElem (by simp) fun i hi hi' => ?_
    simp [hl i hi']
  rw [range_add, map_append, hfront, takeWhile_append_of_pos]
  · cases k with
    | zero => simp
    | succ k => simp [range_succ_eq_map, hend]
  · intro c hc
    exact bne_iff_ne.mpr fun h0 => h₀ (h0 ▸ hc)

/-- The ring has the newest commands. -/
structure Holds (t : Terminal) (log : List (List UInt8)) : Prop where
  count : t.commandHistoryCount = log.length % 4294967296
  entries : log.length < 4294967296 → ∀ i (hi : i < log.length), i < commandHistorySize →
    t.entry ((log.length - 1 - i) % commandHistorySize) = log[i]

variable {log : List (List UInt8)} {rank : ℕ}

theorem Holds.same (h : t.Holds log) (hs : t.SameHistory u) : u.Holds log := by
  refine ⟨hs.2.trans h.count, fun hlog i hi hi' => ?_⟩
  rw [← h.entries hlog i hi hi', entry, entry, hs.1]

/-- **Step.** A new command takes the slot of the oldest one. -/
theorem Holds.push (h : t.Holds log) {line : List UInt8} (hne : line ≠ []) (h₀ : (0 : UInt8) ∉ line)
    (hlen : line.length ≤ commandSize - 1) :
    (t.pushHistory line).Holds (line :: log) := by
  unfold pushHistory
  rw [if_neg hne, take_of_length_le hlen]
  refine ⟨?_, fun hlog i hi hi' => ?_⟩
  · dsimp only
    rw [h.count, length_cons, Nat.mod_add_mod]
  · rw [length_cons] at hlog hi
    have hcount : t.commandHistoryCount = log.length := by
      rw [h.count, Nat.mod_eq_of_lt (by omega)]
    simp only [entry, length_cons, hcount]
    cases i with
    | zero =>
      rw [Nat.add_sub_cancel, Nat.sub_zero, update_self]
      refine takeWhile_array h₀ hlen (fun j hj => ?_) ?_
      · rw [if_pos hj, getD_eq_getElem _ _ hj]
      · simp
    | succ i =>
      have hslot : (log.length + 1 - 1 - (i + 1)) % commandHistorySize
          ≠ log.length % commandHistorySize := by
        simp only [commandHistorySize] at hi' ⊢
        omega
      rw [update_of_ne hslot, getElem_cons_succ,
        ← h.entries (by omega) i (by omega) (by omega), entry]
      have hindex : log.length + 1 - 1 - (i + 1) = log.length - 1 - i := by omega
      rw [hindex]

theorem entered_spec (h : t.Ok) : (0 : UInt8) ∉ t.entered ∧ t.entered.length ≤ commandSize - 1 := by
  refine ⟨fun hmem => by simpa using mem_takeWhile_imp hmem, ?_⟩
  have hlast : (t.setCommand t.commandLen 0).commandLine 95 = 0 := by
    simp only [setCommand]
    by_cases hlen : 95 = t.commandLen
    · rw [hlen, update_self]
    · rw [update_of_ne hlen]
      exact h.nul
  rw [entered, rawCommand, commandSize, range_succ, map_append, map_singleton, hlast,
    takeWhile_append]
  split
  · simp
  · refine (takeWhile_sublist _).length_le.trans ?_
    simp

/-- **Run.** The ring has the newest commands of the run. -/
theorem holds_runLog (m : Metrics) (steps : List Step) :
    (runLog m steps).1.Holds (commands m steps) := by
  unfold commands
  induction steps using reverseRecOn with
  | nil => exact ⟨rfl, fun _ i hi => absurd hi (by simp [runLog])⟩
  | append_singleton steps s ih =>
    have hok : (runLog m steps).1.Ok := runLog_fst m steps ▸ ok_run m steps
    have hstep := step_history (runLog m steps).1 s
    have hlog : runLog m (steps ++ [s]) = stepLog (runLog m steps) s := by
      rw [runLog, foldl_append]
      rfl
    rw [hlog, stepLog]
    cases hexec : (runLog m steps).1.executed s with
    | none =>
      rw [hexec] at hstep
      exact ih.same hstep
    | some line =>
      rw [hexec] at hstep
      have hline : line = (runLog m steps).1.entered ∧ line ≠ [] := by
        cases s with
        | key key m z sv =>
          simp only [executed, Option.ite_none_right_eq_some, Option.some.injEq] at hexec
          exact ⟨hexec.2.symm, hexec.2 ▸ hexec.1.2.2.2⟩
        | _ => exact nomatch hexec
      obtain ⟨h₀, hlen⟩ := entered_spec hok
      exact (ih.push hline.2 (hline.1 ▸ h₀) (hline.1 ▸ hlen)).same hstep

/-! ### The arrow keys -/

/-- The keys for the previous and the next command. -/
def arrowKey : Bool → UInt8
  | true => GuiSystem.keyArrowUp
  | false => GuiSystem.keyArrowDown

/-- The rank of the command that a sequence of arrow keys (`true` is up) recalls if there are `n` of
them: the first key finds the newest one, and the others count, up to the ends of the list. -/
def rankAfter (n : ℕ) : List Bool → ℕ
  | [] => 0
  | _ :: ups => ups.foldl (fun rank up => if up then min (rank + 1) n else max (rank - 1) 1) 1

theorem step_arrow (t : Terminal) (up : Bool) (m : Metrics) (z : ℕ) (sv : Services) :
    t.step (.key (arrowKey up) m z sv) = t.recallHistory (if up then -1 else 1) := by
  cases up <;> rfl

/-- Characters that are appended are what the command line has then. -/
theorem command_appendAll (l : List UInt8) (t : Terminal) :
    (l.foldl appendChar t).command = t.command ++ l := by
  induction l generalizing t with
  | nil => exact (append_nil _).symm
  | cons c l ih =>
    have hone : (t.appendChar c).command = t.command ++ [c] := by
      change (range (t.commandLen + 1)).map (update t.commandLine t.commandLen c) = _
      rw [range_succ, map_append, map_singleton, update_self, command]
      congr 1
      refine map_congr_left fun i hi => update_of_ne ?_ ..
      exact (mem_range.mp hi).ne
    rw [foldl_cons, ih, hone, append_assoc]
    rfl

theorem appendAll_index (l : List UInt8) (t : Terminal) :
    (l.foldl appendChar t).commandHistoryIndex = t.commandHistoryIndex := by
  induction l generalizing t with
  | nil => rfl
  | cons c l ih => exact ih _

theorem erase_index (n : ℕ) (t : Terminal) :
    (eraseChar^[n] t).commandHistoryIndex = t.commandHistoryIndex := by
  induction n generalizing t with
  | zero => rfl
  | succ n ih => exact ih _

/-- What `recall_history` leaves: the index that it moved to, and the entry for it. -/
theorem recallHistory_spec (hcount : t.commandHistoryCount ≠ 0) (delta : ℤ) :
    (t.recallHistory delta).commandHistoryIndex = t.nextIndex delta ∧
      (t.recallHistory delta).command = t.entry (t.slotOf (t.nextIndex delta)) := by
  have herase := sameHistory_eraseAll t.commandLen
    { t with commandHistoryIndex := t.nextIndex delta }
  have hindex := erase_index t.commandLen { t with commandHistoryIndex := t.nextIndex delta }
  unfold recallHistory
  rw [if_neg hcount]
  dsimp only
  generalize eraseChar^[t.commandLen] { t with commandHistoryIndex := t.nextIndex delta } = u
    at herase hindex ⊢
  dsimp only at hindex
  have hslot : u.slotOf u.commandHistoryIndex = t.slotOf (t.nextIndex delta) := by
    rw [hindex, slotOf, slotOf, maxIndex, maxIndex, herase.2]
  constructor
  · rw [appendAll_index]
    exact hindex
  · rw [command_appendAll, hslot, entry, entry, herase.1]
    rfl

/-- The command line has the command of the rank, and the index is the one for it. -/
structure Recalled (t : Terminal) (log : List (List UInt8)) (rank : ℕ) : Prop where
  holds : t.Holds log
  pos : 1 ≤ rank
  le : rank ≤ min log.length commandHistorySize
  index : t.commandHistoryIndex = (min log.length commandHistorySize : ℕ) - (rank : ℤ)
  command : ∃ hrank : rank - 1 < log.length, t.command = log[rank - 1]

/-- The index for a rank leads to the command of that rank. -/
theorem Holds.recalled (h : t.Holds log) (hlog : log.length < 4294967296) (h1 : 1 ≤ rank)
    (hle : rank ≤ min log.length commandHistorySize) {delta : ℤ}
    (hindex : t.nextIndex delta = (min log.length commandHistorySize : ℕ) - (rank : ℤ)) :
    (t.recallHistory delta).Recalled log rank := by
  have hcount : t.commandHistoryCount = log.length := by
    rw [h.count, Nat.mod_eq_of_lt hlog]
  obtain ⟨hi, hcommand⟩ := recallHistory_spec (t := t) (by omega) delta
  refine ⟨h.same (sameHistory_recallHistory t delta), h1, hle, hi.trans hindex, by omega, ?_⟩
  have hslot : t.slotOf (t.nextIndex delta) =
      (log.length - 1 - (rank - 1)) % commandHistorySize := by
    have hmax : t.maxIndex = (min log.length commandHistorySize : ℕ) - 1 := by
      rw [maxIndex, hcount]
      split_ifs <;> omega
    have hback : (min log.length commandHistorySize : ℕ) - 1 -
        ((min log.length commandHistorySize : ℕ) - (rank : ℤ)) = rank - 1 := by omega
    rw [slotOf, hindex, hmax, hcount, hback, u32_eq (v := rank - 1) (by omega) (by omega),
      u32_eq (by omega) (by omega)]
    congr 1
    omega
  rw [hcommand, hslot]
  exact h.entries hlog (rank - 1) (by omega) (by omega)

/-- **Step.** The first arrow key finds the newest command. -/
theorem Holds.first (h : t.Holds log) (hlog : log.length < 4294967296) (hne : log ≠ [])
    (hindex : t.commandHistoryIndex < 0) (delta : ℤ) :
    (t.recallHistory delta).Recalled log 1 := by
  have hpos := length_pos_iff.mpr hne
  have hcount : t.commandHistoryCount = log.length := by
    rw [h.count, Nat.mod_eq_of_lt hlog]
  refine h.recalled hlog le_rfl (by simp only [commandHistorySize]; omega) ?_
  simp only [nextIndex, if_pos hindex, maxIndex, hcount, commandHistorySize]
  split_ifs <;> omega

/-- **Step.** Another arrow key counts. -/
theorem Recalled.next (h : t.Recalled log rank) (hlog : log.length < 4294967296) (up : Bool) :
    (t.recallHistory (if up then -1 else 1)).Recalled log
      (if up then min (rank + 1) (min log.length commandHistorySize) else max (rank - 1) 1) := by
  obtain ⟨hholds, hpos, hle, hindex, -⟩ := h
  have hcount : t.commandHistoryCount = log.length := by
    rw [hholds.count, Nat.mod_eq_of_lt hlog]
  simp only [commandHistorySize] at hle hindex
  refine hholds.recalled hlog ?_ ?_ ?_
  · cases up <;> simp only [commandHistorySize, Bool.false_eq_true, if_true, if_false] <;> omega
  · cases up <;> simp only [commandHistorySize, Bool.false_eq_true, if_true, if_false] <;> omega
  · simp only [nextIndex, maxIndex, hcount, hindex, commandHistorySize]
    cases up <;> simp only [Bool.false_eq_true, if_true, if_false] <;> split_ifs <;> omega

/-- **Run.** -/
theorem Recalled.arrows (h : t.Recalled log rank) (hlog : log.length < 4294967296)
    (presses : List (Bool × Metrics × ℕ × Services)) :
    ((presses.map fun p => Step.key (arrowKey p.1) p.2.1 p.2.2.1 p.2.2.2).foldl step t).Recalled log
      ((presses.map (·.1)).foldl (fun rank up =>
        if up then min (rank + 1) (min log.length commandHistorySize)
        else max (rank - 1) 1) rank) := by
  induction presses generalizing t rank with
  | nil => exact h
  | cons p presses ih =>
    rw [map_cons, map_cons, foldl_cons, foldl_cons, step_arrow]
    exact ih (h.next hlog p.1)

theorem writeAll_index (texts : List (List UInt8)) (t : Terminal) :
    (t.writeAll texts).commandHistoryIndex = t.commandHistoryIndex := by
  induction texts generalizing t with
  | nil => rfl
  | cons text texts ih => exact ih _

theorem openWindow_index (m : Metrics) (z : ℕ) (ht : t.commandHistoryIndex = -1) :
    (t.openWindow m z).commandHistoryIndex = -1 := by
  unfold openWindow
  dsimp only
  split
  · exact ht
  · exact writeAll_index _ _

/-- A program prints and opens the window, and selects no entry. -/
theorem acts_index (l : List ProgramAction) (ht : t.commandHistoryIndex = -1) :
    (l.foldl act t).commandHistoryIndex = -1 := by
  induction l generalizing t with
  | nil => exact ht
  | cons a l ih =>
    refine ih ?_
    cases a with
    | print text => exact ht
    | openWindow m z => exact openWindow_index m z ht

theorem runProgram_index (sv : Services) (path : List UInt8) (m : Metrics) (z : ℕ)
    (ht : t.commandHistoryIndex = -1) : (t.runProgram sv path m z).commandHistoryIndex = -1 :=
  (writeAll_index _ _).trans (acts_index _ ((writeAll_index _ _).trans (openWindow_index m z ht)))

/-- After a command no entry is selected. -/
theorem executeCommand_index (sv : Services) (hline : t.rawCommand.takeWhile (· != 0) ≠ []) :
    (t.executeCommand sv).commandHistoryIndex = -1 := by
  have hpush : ∀ u : Terminal,
      (u.pushHistory (t.rawCommand.takeWhile (· != 0))).commandHistoryIndex = -1 := by
    intro u
    unfold pushHistory
    rw [if_neg hline]
  unfold executeCommand
  rw [if_neg hline]
  cases respond sv t.rawCommand with
  | print texts => exact (writeAll_index _ _).trans (hpush _)
  | clear => exact hpush _
  | run path =>
    exact runProgram_index sv path _ _ (hpush _)

theorem executed_index {s : Step} {line : List UInt8} (h : t.executed s = some line) :
    (t.step s).commandHistoryIndex = -1 := by
  cases s with
  | key key m z sv =>
    simp only [executed, Option.ite_none_right_eq_some] at h
    obtain ⟨⟨rfl, hopen, hmode, hne⟩, -⟩ := h
    rw [step_enter hopen hmode]
    exact executeCommand_index sv hne
  | _ => exact nomatch h

end Terminal

open Terminal

/-- **The arrow keys recall commands by their rank.** After any run that ends with a command, and
any sequence of arrow keys, the command line has the command whose rank the keys count: 1, the
newest one, for the first key, then one more for up and one less for down, within the commands that
are kept. -/
theorem recall_exact (m : Metrics) (steps : List Step) (last : Step) {line : List UInt8}
    (hlast : (Terminal.run m steps).executed last = some line)
    (hcount : (commands m (steps ++ [last])).length < 2 ^ 32)
    (press : Bool × Metrics × ℕ × Services) (presses : List (Bool × Metrics × ℕ × Services)) :
    let log := commands m (steps ++ [last])
    let arrows := (press :: presses).map fun p => Step.key (arrowKey p.1) p.2.1 p.2.2.1 p.2.2.2
    let rank := rankAfter (min log.length commandHistorySize) ((press :: presses).map (·.1))
    1 ≤ rank ∧ rank ≤ min log.length commandHistorySize ∧
      log[rank - 1]? = some ((Terminal.run m (steps ++ [last] ++ arrows)).command) := by
  intro log arrows rank
  have hholds : (Terminal.run m (steps ++ [last])).Holds log :=
    runLog_fst m (steps ++ [last]) ▸ holds_runLog m (steps ++ [last])
  have hne : log ≠ [] := by
    have hcons : log = line :: commands m steps := by
      change (runLog m (steps ++ [last])).2 = _
      rw [runLog, foldl_append]
      change ((runLog m steps).1.executed last).toList ++ (runLog m steps).2 = _
      rw [runLog_fst, hlast]
      rfl
    rw [hcons]
    exact cons_ne_nil _ _
  -- the command that was entered last has ended any recall
  have hindex : (Terminal.run m (steps ++ [last])).commandHistoryIndex < 0 := by
    rw [Terminal.run, foldl_append]
    change ((Terminal.run m steps).step last).commandHistoryIndex < 0
    rw [executed_index hlast]
    decide
  have hfirst := hholds.first hcount hne hindex (if press.1 then -1 else 1)
  have hall := hfirst.arrows hcount presses
  have hrun : Terminal.run m (steps ++ [last] ++ arrows) =
      (presses.map fun p => Step.key (arrowKey p.1) p.2.1 p.2.2.1 p.2.2.2).foldl step
        ((Terminal.run m (steps ++ [last])).recallHistory (if press.1 then -1 else 1)) := by
    rw [Terminal.run, foldl_append]
    change foldl step ((Terminal.run m (steps ++ [last])).step _) _ = _
    rw [step_arrow]
  refine ⟨hall.pos, hall.le, ?_⟩
  obtain ⟨hrank, hcommand⟩ := hall.command
  rw [hrun, hcommand]
  exact getElem?_eq_getElem hrank

/-- The keys of two commands, `a` and `b`, in a terminal just opened, up to the last Enter. -/
def twoCommands : List Step := [press GuiSystem.keyF1, press 97, press 10, press 98]

/-- Up finds `b`, a second one finds `a`, and a third one stays there. -/
theorem recall_two_commands : rankAfter 2 [true, true, true] = 2 ∧
      commands ⟨640, 480, 30⟩ (twoCommands ++ [press 10]) = [[98], [97]] ∧
      (Terminal.run ⟨640, 480, 30⟩ (twoCommands ++ [press 10] ++
        List.replicate 3 (press GuiSystem.keyArrowUp))).command = [97] := by
  have hlog : commands ⟨640, 480, 30⟩ (twoCommands ++ [press 10]) = [[98], [97]] := by
    decide +kernel
  have hlast : (Terminal.run ⟨640, 480, 30⟩ twoCommands).executed (press 10) = some [98] := by
    decide +kernel
  have hrecall := (recall_exact ⟨640, 480, 30⟩ twoCommands (press 10) hlast
    (by rw [hlog]; decide) (true, ⟨640, 480, 30⟩, 1, Services.idle)
    (replicate 2 (true, ⟨640, 480, 30⟩, 1, Services.idle))).2.2
  rw [hlog] at hrecall
  exact ⟨by decide, hlog, (Option.some.inj hrecall).symm⟩

end MyOS.Gui
