import MyOS.User.Pages

/-!
# Histories of the process table

Programs are run one after the other; while one runs it makes system calls, and exited processes may
be reaped at any time. What a program does to the table is a list of `Action`s, what it does to
memory an arbitrary function, and its exit code is arbitrary too (`ProgramRun`).

`TableOk` is the invariant: at most the current entry is RUNNING, pids are distinct and not 0, an
EXITED entry has neither descriptors nor an address space, and an entry in the ledger of exits has
its pid and exit code. It holds at every action (`TableOk.actions`) and between programs
(`Trace.Sound.run`), as long as there are fewer than 2³² - 1 starts. Between programs nothing is
RUNNING, so there is always a slot (`allocateProcess_isSome`).
-/

namespace MyOS

open Function List

/-- What can happen to the table while a program runs: its system calls, and
`user_process_reap_exited`. -/
inductive Action where
  | open (findFile : List UInt8 → ℤ) (path : List UInt8)
  | read (readIndex : UInt32 → UInt32 → UInt32 → Option (List UInt8)) (fd size : UInt32)
  | close (fd : UInt32)
  | waitPid (pid : UInt32)
  | getPid
  | reap

/-- The table after an action. -/
def Action.step (t : Processes) : Action → Processes
  | .open findFile path => (t.userProcessFdOpen findFile path).2
  | .read readIndex fd size => (t.userProcessFdRead readIndex fd size).2.2
  | .close fd => (t.userProcessFdClose fd).2
  | .waitPid _ | .getPid => t
  | .reap => t.userProcessReapExited.2

/-- Whether an action is a reaping. -/
def Action.isReap : Action → Bool
  | .reap => true
  | _ => false

/-- A run of a program in user mode: what it does to the table and to memory, and its exit code. -/
structure ProgramRun where
  actions : List Action
  paging : Paging → Paging
  code : ℤ

/-- `usermode_enter` for this program. -/
def ProgramRun.enter (p : ProgramRun) (_entry _stack : UInt32) (st : UserState) : ℤ × UserState :=
  (p.code, ⟨p.paging st.paging, p.actions.foldl Action.step st.processes⟩)

/-- The exits that a call of `user_process_wait_pid` can still ask for: for each slot the pid and
the exit code of the process that has exited there last, until the slot is reaped or used again. -/
abbrev Ledger := Fin 8 → Option (UInt32 × ℤ)

namespace Processes

/-! ### The slot of the next process -/

/-- The slot that `allocate_process` takes. -/
def slot (t : Processes) : Option (Fin 8) :=
  (t.findEntry (·.state = .unused)).orElse fun _ => t.findEntry (·.state = .exited)

theorem allocateProcess_eq (t : Processes) (name : List UInt8) (entry : UInt32) :
    t.allocateProcess name entry = t.slot.map fun i => (i, t.startProcess i name entry) := by
  unfold allocateProcess slot
  cases t.findEntry (·.state = .unused) with
  | some i => rfl
  | none => cases t.findEntry (·.state = .exited) <;> rfl

variable {t : Processes} {i j : Fin 8}

theorem findEntry_some {p : Process → Bool} (h : t.findEntry p = some i) : p (t.entries i) = true :=
  find?_some (p := fun i => p (t.entries i)) h

theorem findEntry_none {p : Process → Bool} (h : t.findEntry p = none) (i : Fin 8) :
    p (t.entries i) = false := by
  have hi := find?_eq_none.1 h i (mem_finRange i)
  exact Bool.eq_false_iff.2 hi

/-- Without a running process there is a slot. -/
theorem slot_isSome (h : ∀ i, (t.entries i).state ≠ .running) : t.slot.isSome := by
  unfold slot
  cases hu : t.findEntry (·.state = .unused) with
  | some j => rfl
  | none =>
    cases he : t.findEntry (·.state = .exited) with
    | some j => rfl
    | none =>
      have h1 := of_decide_eq_false (findEntry_none hu 0)
      have h2 := of_decide_eq_false (findEntry_none he 0)
      have h3 := h 0
      cases hs : (t.entries 0).state with
      | unused => exact absurd hs h1
      | running => exact absurd hs h3
      | exited => exact absurd hs h2

theorem current_of_openDescriptor {fd : UInt32} {fd' : Fin 8}
    (h : t.openDescriptor fd = some (i, fd')) : t.current = some i := by
  unfold openDescriptor at h
  split at h
  · exact nomatch h
  · next j hj =>
    split_ifs at h
    cases h
    exact hj

/-! ### A program in the table -/

/-- The table when `run_loaded_image` enters user mode. -/
def beginProgram (t : Processes) (i : Fin 8) (name : List UInt8)
    (entry space : UInt32) : Processes :=
  (t.startProcess i name entry).update i fun e => { e with addressSpace := space }

/-- What `run_loaded_image` does to the table after the program has ended. -/
def endProgram (t : Processes) (i : Fin 8) (code : ℤ) : Processes :=
  let t := t.update i fun e => { e with exitCode := code, state := .exited }
  let t := t.userProcessCloseAll
  { t.update i (fun e => { e with addressSpace := 0 }) with current := none }

@[simp] theorem update_same (t : Processes) (i : Fin 8) (f : Process → Process) :
    (t.update i f).entries i = f (t.entries i) := update_self ..

theorem update_other (t : Processes) (h : j ≠ i) (f : Process → Process) :
    (t.update i f).entries j = t.entries j := update_of_ne h ..

theorem beginProgram_same (t : Processes) (i : Fin 8) (name : List UInt8) (entry space : UInt32) :
    (t.beginProgram i name entry space).entries i =
      ⟨t.nextPid, .running, copyProcessName name, entry, 0, space, fun _ => ⟨false, 0, 0⟩⟩ := by
  simp only [beginProgram, update_same, startProcess, update_self]

theorem beginProgram_other (t : Processes) (h : j ≠ i) (name : List UInt8) (entry space : UInt32) :
    (t.beginProgram i name entry space).entries j = t.entries j := by
  rw [beginProgram, update_other _ h]
  exact update_of_ne h ..

theorem endProgram_same (h : t.current = some i) (code : ℤ) : (t.endProgram i code).entries i =
      { t.entries i with
        exitCode := code, state := .exited, addressSpace := 0
        fds := fun fd => { (t.entries i).fds fd with isOpen := false } } := by
  simp only [endProgram, userProcessCloseAll, update_same]
  have hcurrent :
      (t.update i fun e => { e with exitCode := code, state := .exited }).current = some i :=
    h
  simp only [hcurrent, update_same]

theorem endProgram_other (h : t.current = some i) (hj : j ≠ i) (code : ℤ) :
    (t.endProgram i code).entries j = t.entries j := by
  have hcurrent :
      (t.update i fun e => { e with exitCode := code, state := .exited }).current = some i :=
    h
  simp only [endProgram, userProcessCloseAll, hcurrent, update_other _ hj]

end Processes

open Processes

/-- What a run does to the table: nothing, or a process is started in the free slot, the program
acts, and the process ends with the code that is returned. -/
def ProgramRun.Outcome (p : ProgramRun) (name : List UInt8) (t : Processes)
    (r : ℤ × UserState) : Prop :=
  r.2.processes = t ∨
    ∃ i entry space, t.slot = some i ∧ r.1 = p.code ∧ r.2.processes =
      (p.actions.foldl Action.step (t.beginProgram i name entry space)).endProgram i p.code

section Outcome

variable (L : SpaceLayout) (K : KernelStatics) (p : ProgramRun) (st : UserState) (name : List UInt8)

theorem runLoadedImage_outcome (entry : UInt32) (image : ℕ → UInt8) (imageSize : UInt32) :
    p.Outcome name st.processes (runLoadedImage L K p.enter st name entry image imageSize) := by
  unfold runLoadedImage
  split
  · exact .inl rfl
  · next loaded _ =>
    rw [allocateProcess_eq]
    cases hslot : st.processes.slot with
    | none => exact .inl rfl
    | some i => exact .inr ⟨i, entry, loaded.space, hslot, rfl, rfl⟩

theorem runMexeProgram_outcome (file : List UInt8) :
    p.Outcome name st.processes (runMexeProgram L K p.enter st name file) := by
  unfold runMexeProgram
  dsimp only
  split_ifs
  · exact .inl rfl
  · exact .inl rfl
  · exact .inl rfl
  · exact runLoadedImage_outcome L K p st name _ _ _

theorem runElfProgram_outcome (file : List UInt8) :
    p.Outcome name st.processes (runElfProgram L K p.enter st name file) := by
  unfold runElfProgram
  dsimp only
  split_ifs
  · exact .inl rfl
  · exact .inl rfl
  · exact .inl rfl
  · exact .inl rfl
  · exact .inl rfl
  · split
    · exact .inl rfl
    · split_ifs
      · exact .inl rfl
      · exact runLoadedImage_outcome L K p st name _ _ _

theorem usermodeRunProgram_outcome (file : Option (List UInt8)) :
    p.Outcome name st.processes (usermodeRunProgram L K p.enter st name file) := by
  unfold usermodeRunProgram
  split
  · exact .inl rfl
  · split_ifs
    · exact .inl rfl
    · exact runElfProgram_outcome L K p st name _
    · exact runMexeProgram_outcome L K p st name _

end Outcome

/-- **What an action does to the table**: a reaping, nothing, or an assignment to a descriptor of
the current process. -/
theorem Action.step_cases (t : Processes) (a : Action) :
    a.isReap = true ∧ a.step t = t.userProcessReapExited.2 ∨
    a.isReap = false ∧ (a.step t = t ∨
      ∃ i fd d, t.current = some i ∧ a.step t = t.setDescriptor i fd d) := by
  cases a with
  | «open» findFile path =>
    refine .inr ⟨rfl, ?_⟩
    simp only [Action.step, userProcessFdOpen]
    split
    · exact .inl rfl
    · next i hi =>
      split_ifs
      · exact .inl rfl
      · split
        · exact .inr ⟨i, _, _, hi, rfl⟩
        · exact .inl rfl
  | read readIndex fd size =>
    refine .inr ⟨rfl, ?_⟩
    simp only [Action.step, userProcessFdRead]
    split
    · exact .inl rfl
    · next i fd' hopen =>
      split
      · exact .inl rfl
      · exact .inr ⟨i, _, _, current_of_openDescriptor hopen, rfl⟩
  | close fd =>
    refine .inr ⟨rfl, ?_⟩
    simp only [Action.step, userProcessFdClose]
    split
    · exact .inl rfl
    · next i fd' hopen => exact .inr ⟨i, _, _, current_of_openDescriptor hopen, rfl⟩
  | waitPid | getPid => exact .inr ⟨rfl, .inl rfl⟩
  | reap => exact .inl ⟨rfl, rfl⟩

/-! ### The invariant -/

/-- The invariant of the table after `n` starts, with the exits `l`. -/
structure TableOk (n : ℕ) (l : Ledger) (t : Processes) : Prop where
  next : t.nextPid.toNat = n + 1
  pid_pos : ∀ i, (t.entries i).state ≠ .unused → 0 < (t.entries i).pid.toNat
  pid_le : ∀ i, (t.entries i).state ≠ .unused → (t.entries i).pid.toNat ≤ n
  distinct : ∀ i j, (t.entries i).state ≠ .unused → (t.entries j).state ≠ .unused →
    (t.entries i).pid = (t.entries j).pid → i = j
  running : ∀ i, (t.entries i).state = .running ↔ t.current = some i
  exited : ∀ i, (t.entries i).state = .exited →
    (t.entries i).addressSpace = 0 ∧ ∀ fd, ((t.entries i).fds fd).isOpen = false
  logged : ∀ i pid code, l i = some (pid, code) →
    (t.entries i).state = .exited ∧ (t.entries i).pid = pid ∧ (t.entries i).exitCode = code

namespace TableOk

variable {n : ℕ} {l : Ledger} {t : Processes}

variable {i : Fin 8}

variable (h : TableOk n l t)
include h

/-- A call that assigns to descriptors of the current process only. -/
theorem descriptors (hi : t.current = some i) (f : Process → Process)
    (hf : ∀ e, (f e).pid = e.pid ∧ (f e).state = e.state) : TableOk n l (t.update i f) := by
  have hrun : (t.entries i).state = .running := (h.running i).2 hi
  have hpid : ∀ j, ((t.update i f).entries j).pid = (t.entries j).pid := by
    intro j
    by_cases hj : j = i
    · subst hj
      rw [update_same, (hf _).1]
    · rw [update_other _ hj]
  have hstate : ∀ j, ((t.update i f).entries j).state = (t.entries j).state := by
    intro j
    by_cases hj : j = i
    · subst hj
      rw [update_same, (hf _).2]
    · rw [update_other _ hj]
  -- an exited entry is not the current one
  have hother : ∀ j, (t.entries j).state = .exited → (t.update i f).entries j = t.entries j := by
    intro j hj
    refine update_other _ ?_ f
    rintro rfl
    rw [hrun] at hj
    cases hj
  refine ⟨h.next, ?_, ?_, ?_, ?_, ?_, ?_⟩
  · intro j
    rw [hpid, hstate]
    exact h.pid_pos j
  · intro j
    rw [hpid, hstate]
    exact h.pid_le j
  · intro j k
    rw [hpid, hpid, hstate, hstate]
    exact h.distinct j k
  · intro j
    rw [hstate]
    exact h.running j
  · intro j hj
    rw [hstate] at hj
    rw [hother j hj]
    exact h.exited j hj
  · intro j pid code hj
    have hlog := h.logged j pid code hj
    rw [hother j hlog.1]
    exact hlog

theorem setDescriptor (hi : t.current = some i) (fd : Fin 8) (d : Descriptor) :
    TableOk n l (t.setDescriptor i fd d) :=
  h.descriptors hi (fun e => { e with fds := update e.fds fd d }) fun _ => ⟨rfl, rfl⟩

/-- `user_process_reap_exited` leaves the running process alone. -/
theorem reap : TableOk n (fun _ => none) t.userProcessReapExited.2 := by
  have hkept : ∀ i, (t.userProcessReapExited.2.entries i).state ≠ .unused →
      (t.entries i).state ≠ .unused ∧ (t.entries i).state ≠ .exited ∧
        t.userProcessReapExited.2.entries i = t.entries i := by
    intro i hi
    by_cases he : (t.entries i).state = .exited
    · exact absurd (by simp only [userProcessReapExited, he, if_true]) hi
    · have hsame : t.userProcessReapExited.2.entries i = t.entries i := by
        simp only [userProcessReapExited, he, if_false]
      rw [hsame] at hi
      exact ⟨hi, he, hsame⟩
  refine ⟨h.next, ?_, ?_, ?_, ?_, ?_, fun _ _ _ hl => nomatch hl⟩
  · intro i hi
    obtain ⟨hu, _, hsame⟩ := hkept i hi
    rw [hsame]
    exact h.pid_pos i hu
  · intro i hi
    obtain ⟨hu, _, hsame⟩ := hkept i hi
    rw [hsame]
    exact h.pid_le i hu
  · intro i j hi hj heq
    obtain ⟨hui, _, hsi⟩ := hkept i hi
    obtain ⟨huj, _, hsj⟩ := hkept j hj
    rw [hsi, hsj] at heq
    exact h.distinct i j hui huj heq
  · intro i
    have hcurrent : t.userProcessReapExited.2.current = t.current := rfl
    rw [hcurrent, ← h.running i]
    by_cases he : (t.entries i).state = .exited
    · simp [userProcessReapExited, he]
    · simp [userProcessReapExited, he]
  · intro i hi
    obtain ⟨_, he, hsame⟩ := hkept i (by rw [hi]; decide)
    rw [hsame] at hi
    exact absurd hi he

/-- One action of a program. -/
theorem action (a : Action) : TableOk n (if a.isReap then fun _ => none else l) (a.step t) := by
  rcases a.step_cases t with ⟨hr, heq⟩ | ⟨hr, heq | ⟨i, fd, d, hi, heq⟩⟩ <;> rw [hr, heq]
  · exact h.reap
  · exact h
  · exact h.setDescriptor hi fd d

/-- **The invariant holds while a program runs.** -/
theorem actions (as : List Action) :
    TableOk n (if as.any Action.isReap then fun _ => none else l) (as.foldl Action.step t) := by
  induction as generalizing t l with
  | nil => exact h
  | cons a as ih =>
    have hrest := ih (h.action a)
    rw [foldl_cons, any_cons]
    cases ha : a.isReap with
    | true =>
      rw [ha] at hrest
      simpa using hrest
    | false =>
      rw [ha] at hrest
      exact hrest

/-- A process starts: the invariant holds with one more start, and nothing can be asked about the
process that had the slot before. -/
theorem beginProgram (hidle : t.current = none) (hn : n + 1 < 2 ^ 32 - 1)
    (hslot : t.slot = some i) (name : List UInt8) (entry space : UInt32) :
    TableOk (n + 1) (update l i none) (t.beginProgram i name entry space) := by
  have hself := t.beginProgram_same i name entry space
  have hother : ∀ {j}, j ≠ i → (t.beginProgram i name entry space).entries j = t.entries j :=
    fun hj => t.beginProgram_other hj name entry space
  have hnext := h.next
  -- the new pid is greater than all others
  have hfresh : ∀ j, (t.entries j).state ≠ .unused → (t.entries j).pid ≠ t.nextPid := by
    intro j hj heq
    have := h.pid_le j hj
    rw [heq] at this
    omega
  constructor
  case next =>
    change (t.nextPid + 1).toNat = n + 1 + 1
    rw [UInt32.toNat_add, hnext]
    exact Nat.mod_eq_of_lt (by simpa using (by omega : n + 1 + 1 < 4294967296))
  case pid_pos =>
    intro j hj
    by_cases hji : j = i
    · subst hji
      rw [hself]
      change 0 < t.nextPid.toNat
      omega
    · rw [hother hji] at hj ⊢
      exact h.pid_pos j hj
  case pid_le =>
    intro j hj
    by_cases hji : j = i
    · subst hji
      rw [hself]
      change t.nextPid.toNat ≤ n + 1
      omega
    · rw [hother hji] at hj ⊢
      exact (h.pid_le j hj).trans (Nat.le_succ n)
  case distinct =>
    intro j k hj hk heq
    by_cases hji : j = i <;> by_cases hki : k = i
    · rw [hji, hki]
    · subst hji
      rw [hother hki] at hk heq
      rw [hself] at heq
      exact absurd heq.symm (hfresh k hk)
    · subst hki
      rw [hother hji] at hj heq
      rw [hself] at heq
      exact absurd heq (hfresh j hj)
    · rw [hother hji] at hj heq
      rw [hother hki] at hk heq
      exact h.distinct j k hj hk heq
  case running =>
    intro j
    have hcurrent : (t.beginProgram i name entry space).current = some i := rfl
    rw [hcurrent, Option.some_inj]
    by_cases hji : j = i
    · subst hji
      rw [hself]
      exact ⟨fun _ => rfl, fun _ => rfl⟩
    · rw [hother hji, h.running j, hidle]
      exact ⟨(nomatch ·), fun hij => absurd hij.symm hji⟩
  case exited =>
    intro j hj
    by_cases hji : j = i
    · subst hji
      rw [hself] at hj
      exact absurd hj (show ProcessState.running ≠ .exited by decide)
    · rw [hother hji] at hj ⊢
      exact h.exited j hj
  case logged =>
    intro j pid code hj
    by_cases hji : j = i
    · subst hji
      rw [update_self] at hj
      exact nomatch hj
    · rw [update_of_ne hji] at hj
      rw [hother hji]
      exact h.logged j pid code hj

/-- The process ends: its pid and its exit code go into the ledger. -/
theorem endProgram (hi : t.current = some i) (code : ℤ) :
    TableOk n (update l i (some ((t.entries i).pid, code))) (t.endProgram i code) := by
  have hself := endProgram_same hi code
  have hother : ∀ {j}, j ≠ i → (t.endProgram i code).entries j = t.entries j :=
    fun hj => endProgram_other hi hj code
  have hrun : (t.entries i).state = .running := (h.running i).2 hi
  have hused : (t.entries i).state ≠ .unused := by
    rw [hrun]
    decide
  have hpid : ∀ j, ((t.endProgram i code).entries j).pid = (t.entries j).pid := by
    intro j
    by_cases hji : j = i
    · subst hji
      rw [hself]
    · rw [hother hji]
  -- no slot comes into use
  have hback : ∀ j, ((t.endProgram i code).entries j).state ≠ .unused →
      (t.entries j).state ≠ .unused := by
    intro j hj
    by_cases hji : j = i
    · subst hji
      exact hused
    · rwa [hother hji] at hj
  constructor
  case next =>
    rw [← h.next]
    simp only [Processes.endProgram, userProcessCloseAll]
    split <;> rfl
  case pid_pos =>
    intro j hj
    rw [hpid]
    exact h.pid_pos j (hback j hj)
  case pid_le =>
    intro j hj
    rw [hpid]
    exact h.pid_le j (hback j hj)
  case distinct =>
    intro j k hj hk heq
    rw [hpid, hpid] at heq
    exact h.distinct j k (hback j hj) (hback k hk) heq
  case running =>
    intro j
    have hnone : (t.endProgram i code).current = none := rfl
    rw [hnone]
    refine ⟨fun hj => ?_, (nomatch ·)⟩
    by_cases hji : j = i
    · subst hji
      rw [hself] at hj
      exact absurd hj (show ProcessState.exited ≠ .running by decide)
    · rw [hother hji, h.running j, hi, Option.some_inj] at hj
      exact absurd hj.symm hji
  case exited =>
    intro j hj
    by_cases hji : j = i
    · subst hji
      rw [hself]
      exact ⟨rfl, fun _ => rfl⟩
    · rw [hother hji] at hj ⊢
      exact h.exited j hj
  case logged =>
    intro j pid c hj
    by_cases hji : j = i
    · subst hji
      rw [update_self, Option.some_inj, Prod.mk.injEq] at hj
      rw [hself]
      exact ⟨rfl, hj.1, hj.2⟩
    · rw [update_of_ne hji] at hj
      rw [hother hji]
      exact h.logged j pid c hj

/-- `user_process_wait_pid` finds the entry of a process that has exited. -/
theorem waitPid {pid : UInt32} {code : ℤ} (hi : l i = some (pid, code)) :
    t.userProcessWaitPid pid = code := by
  obtain ⟨hstate, hpid, hcode⟩ := h.logged i pid code hi
  have hused : (t.entries i).state ≠ .unused := by
    rw [hstate]
    decide
  unfold userProcessWaitPid
  cases hfind : t.findEntry fun e => e.state ≠ .unused ∧ e.pid = pid with
  | none =>
    exact absurd ⟨hused, hpid⟩ (of_decide_eq_false (findEntry_none hfind i))
  | some j =>
    have hj := of_decide_eq_true (findEntry_some hfind)
    have hji : j = i := h.distinct j i hj.1 hused (hj.2.trans hpid.symm)
    subst hji
    dsimp only
    rw [if_pos hstate, hcode]

end TableOk

/-- An action changes neither the current process nor the next pid. -/
theorem Action.step_current (t : Processes) (a : Action) :
    (a.step t).current = t.current ∧ (a.step t).nextPid = t.nextPid := by
  rcases a.step_cases t with ⟨-, heq⟩ | ⟨-, heq | ⟨i, fd, d, -, heq⟩⟩ <;> rw [heq]
  all_goals exact ⟨rfl, rfl⟩

theorem foldl_step_current (t : Processes) (as : List Action) :
    (as.foldl Action.step t).current = t.current ∧
      (as.foldl Action.step t).nextPid = t.nextPid := by
  induction as generalizing t with
  | nil => exact ⟨rfl, rfl⟩
  | cons a as ih =>
    obtain ⟨hcurrent, hnext⟩ := ih (a.step t)
    obtain ⟨hcurrent', hnext'⟩ := a.step_current t
    exact ⟨hcurrent.trans hcurrent', hnext.trans hnext'⟩

variable {n : ℕ} {l : Ledger} {t : Processes}

/-- Reapings and descriptors leave the entry of the current process, up to its descriptors. -/
theorem foldl_step_pid (h : TableOk n l t) {i : Fin 8} (hi : t.current = some i)
    (as : List Action) :
    ((as.foldl Action.step t).entries i).pid = (t.entries i).pid := by
  induction as generalizing t l with
  | nil => rfl
  | cons a as ih =>
    have hstep : ((a.step t).entries i).pid = (t.entries i).pid := by
      rcases a.step_cases t with ⟨-, heq⟩ | ⟨-, heq | ⟨j, fd, d, hj, heq⟩⟩ <;> rw [heq]
      · have hrun : (t.entries i).state = .running := (h.running i).2 hi
        simp [userProcessReapExited, hrun]
      · obtain rfl : i = j := Option.some_inj.1 (hi.symm.trans hj)
        rw [Processes.setDescriptor, update_same]
    rw [foldl_cons, ih (h.action a) ((a.step_current t).1.trans hi), hstep]

/-! ### Histories -/

/-- What can happen between programs: a call of `usermode_run_program`, of
`user_process_reap_exited`, or anything that the rest of the kernel does to memory. -/
inductive Call where
  | run (name : List UInt8) (file : Option (List UInt8)) (program : ProgramRun)
  | reap
  | memory (f : Paging → Paging)

/-- The state after a history, with the number of processes that have been started and the exits. -/
structure Trace where
  state : UserState
  started : ℕ
  ledger : Ledger

/-- One call. A process has been started if `next_pid` has changed; it is then the one that had the
slot, under the pid that was next, and its exit code is what the call has returned. -/
def Call.step (L : SpaceLayout) (K : KernelStatics) (tr : Trace) : Call → Trace
  | .run name file p =>
    let t := tr.state.processes
    let r := usermodeRunProgram L K p.enter tr.state name file
    match t.slot with
    | none => ⟨r.2, tr.started, tr.ledger⟩
    | some i =>
      if r.2.processes.nextPid = t.nextPid then ⟨r.2, tr.started, tr.ledger⟩
      else
        ⟨r.2, tr.started + 1,
          update (if p.actions.any Action.isReap then fun _ => none else tr.ledger) i
            (some (t.nextPid, r.1))⟩
  | .reap => ⟨{ tr.state with processes := tr.state.processes.userProcessReapExited.2 }, tr.started,
      fun _ => none⟩
  | .memory f => { tr with state := { tr.state with paging := f tr.state.paging } }

namespace Trace

/-- The state after a sequence of calls, from an empty table. -/
def run (L : SpaceLayout) (K : KernelStatics) (paging : Paging) (calls : List Call) : Trace :=
  calls.foldl (Call.step L K) ⟨⟨paging, Processes.initial⟩, 0, fun _ => none⟩

/-- The invariant between programs. -/
structure Sound (tr : Trace) : Prop where
  table : TableOk tr.started tr.ledger tr.state.processes
  idle : tr.state.processes.current = none

variable {L : SpaceLayout} {K : KernelStatics} {tr : Trace}

theorem started_step (tr : Trace) (c : Call) :
    tr.started ≤ (c.step L K tr).started ∧ (c.step L K tr).started ≤ tr.started + 1 := by
  cases c with
  | run name file p =>
    simp only [Call.step]
    split
    · exact ⟨le_rfl, Nat.le_succ _⟩
    · split
      · exact ⟨le_rfl, Nat.le_succ _⟩
      · exact ⟨Nat.le_succ _, le_rfl⟩
  | reap | memory => exact ⟨le_rfl, Nat.le_succ _⟩

theorem started_foldl (tr : Trace) (calls : List Call) :
    tr.started ≤ (calls.foldl (Call.step L K) tr).started ∧
      (calls.foldl (Call.step L K) tr).started ≤ tr.started + calls.length := by
  induction calls generalizing tr with
  | nil => exact ⟨le_rfl, le_rfl⟩
  | cons c calls ih =>
    obtain ⟨h1, h2⟩ := ih (c.step L K tr)
    obtain ⟨h3, h4⟩ := started_step (L := L) (K := K) tr c
    rw [foldl_cons, length_cons]
    omega

/-- **One call keeps the invariant.** -/
theorem Sound.step (h : Sound tr) (c : Call) (hn : (c.step L K tr).started < 2 ^ 32 - 1) :
    Sound (c.step L K tr) := by
  cases c with
  | reap => exact ⟨h.table.reap, h.idle⟩
  | memory f => exact ⟨h.table, h.idle⟩
  | run name file p =>
    have hcases := usermodeRunProgram_outcome L K p tr.state name file
    simp only [Call.step] at hn ⊢
    generalize usermodeRunProgram L K p.enter tr.state name file = r at hcases hn ⊢
    rcases hcases with hsame | ⟨i, entry, space, hslot, hcode, htable⟩
    · -- no process has been started
      have hstill : ∀ n l, n = tr.started → l = tr.ledger → Sound ⟨r.2, n, l⟩ := by
        rintro n l rfl rfl
        refine ⟨?_, ?_⟩
        · rw [hsame]
          exact h.table
        · rw [hsame]
          exact h.idle
      cases hslot : tr.state.processes.slot with
      | none => exact hstill _ _ rfl rfl
      | some i =>
        dsimp only
        rw [if_pos (by rw [hsame])]
        exact hstill _ _ rfl rfl
    · -- a process has been started in the slot `i`; `t'` is the table when its program ends
      set t := tr.state.processes
      set t' := p.actions.foldl Action.step (t.beginProgram i name entry space) with ht'
      obtain ⟨hcurrent, hnext⟩ := foldl_step_current (t.beginProgram i name entry space) p.actions
      have hnext' : r.2.processes.nextPid = t.nextPid + 1 := by
        rw [htable]
        have hend : (t'.endProgram i p.code).nextPid = t'.nextPid := by
          simp only [Processes.endProgram, userProcessCloseAll]
          split <;> rfl
        rw [hend, hnext]
        rfl
      -- so the ledger is extended
      have hchanged : ¬r.2.processes.nextPid = t.nextPid := by
        rw [hnext']
        intro heq
        have := congrArg UInt32.toNat heq
        rw [UInt32.toNat_add] at this
        have hlt := t.nextPid.toNat_lt
        have hone : (1 : UInt32).toNat = 1 := rfl
        omega
      rw [hslot] at hn ⊢
      dsimp only at hn ⊢
      rw [if_neg hchanged] at hn ⊢
      -- the process starts, acts and ends
      have hbegin := h.table.beginProgram h.idle hn hslot name entry space
      have hacted := hbegin.actions p.actions
      have hpid : (t'.entries i).pid = t.nextPid := by
        rw [ht', foldl_step_pid hbegin rfl, t.beginProgram_same]
      have hended := hacted.endProgram (i := i) (hcurrent.trans rfl) p.code
      refine ⟨?_, ?_⟩
      · rw [htable, hcode, ← hpid]
        convert hended using 1
        -- the slot's own entry of the ledger is overwritten
        split
        · rfl
        · rw [update_idem]
      · rw [htable]
        rfl

theorem Sound.foldl (h : Sound tr) (calls : List Call)
    (hn : (calls.foldl (Call.step L K) tr).started < 2 ^ 32 - 1) :
    Sound (calls.foldl (Call.step L K) tr) := by
  induction calls generalizing tr with
  | nil => exact h
  | cons c calls ih =>
    have hle := (started_foldl (L := L) (K := K) (c.step L K tr) calls).1
    exact ih (h.step c (lt_of_le_of_lt hle hn)) hn

/-- **Every history keeps the invariant.** -/
theorem Sound.run (L : SpaceLayout) (K : KernelStatics) (paging : Paging) (calls : List Call)
    (hn : (Trace.run L K paging calls).started < 2 ^ 32 - 1) :
    Sound (Trace.run L K paging calls) := by
  refine Sound.foldl ⟨?_, rfl⟩ calls hn
  refine ⟨rfl, ?_, ?_, ?_, ?_, ?_, fun _ _ _ h => nomatch h⟩
  · exact fun i hi => absurd rfl hi
  · exact fun i hi => absurd rfl hi
  · exact fun i _ hi => absurd rfl hi
  · exact fun i => ⟨(nomatch ·), (nomatch ·)⟩
  · exact fun i hi => nomatch hi

end Trace

/-- Between programs `allocate_process` finds a slot. -/
theorem allocateProcess_isSome (h : TableOk n l t) (hidle : t.current = none) (name : List UInt8)
    (entry : UInt32) :
    (t.allocateProcess name entry).isSome := by
  have hslot : t.slot.isSome := slot_isSome fun i hi => by
    rw [h.running i, hidle] at hi
    exact nomatch hi
  rw [allocateProcess_eq, Option.isSome_map]
  exact hslot

/-- What the table shows to the rest of the kernel. -/
structure WellKept (t : Processes) : Prop where
  /-- Only the current process is RUNNING. -/
  running : ∀ i, (t.entries i).state = .running → t.current = some i
  pid : ∀ i, (t.entries i).state ≠ .unused → (t.entries i).pid ≠ 0
  distinct : ∀ i j, (t.entries i).state ≠ .unused → (t.entries j).state ≠ .unused →
    (t.entries i).pid = (t.entries j).pid → i = j
  /-- An EXITED process has no open descriptor and no address space. -/
  exited : ∀ i, (t.entries i).state = .exited →
    (t.entries i).addressSpace = 0 ∧ ∀ fd, ((t.entries i).fds fd).isOpen = false

theorem TableOk.wellKept (h : TableOk n l t) : WellKept t where
  running i := (h.running i).1
  pid i hi heq := by
    have hpos := h.pid_pos i hi
    rw [heq] at hpos
    cases hpos
  distinct := h.distinct
  exited := h.exited

/-- **The process table.** After every history with fewer than 2³² - 1 process starts: at most one
entry is RUNNING, and it is the current one; the pids in use are distinct and not 0; an EXITED entry
has no open descriptor and no address space; `user_process_wait_pid` returns the exit code of a
process whose slot has neither been reaped nor used again; and `allocate_process` finds a slot. The
same holds at every moment of the program that is run next. -/
theorem process_table (L : SpaceLayout) (K : KernelStatics) (paging : Paging) (calls : List Call)
    (hn : (Trace.run L K paging calls).started < 2 ^ 32 - 1) :
    let tr := Trace.run L K paging calls
    let t := tr.state.processes
    WellKept t ∧ (∀ i pid code, tr.ledger i = some (pid, code) → t.userProcessWaitPid pid = code) ∧
      (∀ name entry, (t.allocateProcess name entry).isSome) ∧
      ∀ i name entry space (actions : List Action), t.slot = some i → tr.started + 1 < 2 ^ 32 - 1 →
        let t' := actions.foldl Action.step (t.beginProgram i name entry space)
        WellKept t' ∧ ∀ j pid code, j ≠ i → actions.any Action.isReap = false →
          tr.ledger j = some (pid, code) → t'.userProcessWaitPid pid = code := by
  intro tr t
  have h : tr.Sound := Trace.Sound.run L K paging calls hn
  refine ⟨h.table.wellKept, fun i pid code hi => h.table.waitPid hi,
    allocateProcess_isSome h.table h.idle, ?_⟩
  intro i name entry space actions hslot hroom t'
  have hacted := (h.table.beginProgram h.idle hroom hslot name entry space).actions actions
  refine ⟨hacted.wellKept, fun j pid code hj hreap hlog => hacted.waitPid (i := j) ?_⟩
  rw [hreap, if_neg Bool.false_ne_true, update_of_ne hj]
  exact hlog

/-- A program that opens a file and ends with 42 is run on a machine with thirty-two pages, then the
table is reaped. -/
theorem process_table_reap :
    let p : ProgramRun := ⟨[.open (fun _ => 3) [0x2F]], id, 42⟩
    let file : List UInt8 := [0x4D, 0x45, 0x58, 0x45, 0, 0, 0, 0, 1, 0, 0, 0, 0, 0, 0, 0, 0x90]
    let calls : List Call := [.run [0x61] (some file) p, .reap]
    (Trace.run packedLayout Paging.smallKernel manyPagesState.paging calls).started < 2 ^ 32 - 1 ∧
      WellKept (Trace.run packedLayout Paging.smallKernel manyPagesState.paging
        calls).state.processes := by
  intro p file calls
  have hn : (Trace.run packedLayout Paging.smallKernel manyPagesState.paging calls).started <
      2 ^ 32 - 1 :=
    lt_of_le_of_lt (Trace.started_foldl _ calls).2 (by decide)
  exact ⟨hn, (process_table packedLayout Paging.smallKernel _ calls hn).1⟩

end MyOS
