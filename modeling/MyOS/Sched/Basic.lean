import MyOS.Lib.RoundRobin
import MyOS.Lib.Word
import Mathlib.Logic.Function.Basic
import Mathlib.Tactic.NormNum

/-!
# The scheduler

The state of `scheduler.c` and its functions, and what one call of
`scheduler_schedule_from_interrupt` can do (`schedule_cases`).

`Orderly` is the invariant of the three tasks that `scheduler_initialize` adds. Only the current
task can be RUNNING; it may be EXITED while a preemption is pending. The idle task never exits, so
there is always another task to move on to, and every task that is not current has a frame. The
fallback that forces the previous task back to RUNNING is then only taken for a task that was
running (`Orderly.pickNext`).
-/

namespace MyOS.Sched

open RoundRobin

/-- `enum task_state`. -/
inductive TaskState where
  | unused | runnable | running | sleeping | exited
deriving DecidableEq, Repr

/-- `struct task`, without its name and its entry point. A frame is the address of an
`interrupt_frame`, 0 for none. -/
structure Task where
  frame : UInt32
  ticks : UInt32
  runs : UInt32
  state : TaskState
deriving DecidableEq, Repr

/-- The variables of `scheduler.c`. -/
structure Scheduler where
  tasks : ℕ → Task
  taskCount : ℕ
  currentTask : ℕ
  currentQuantum : UInt32
  switches : UInt32
  preemptPending : Bool

/-- `MAX_TASKS`. -/
def maxTasks : ℕ := 4

/-- `TASK_STACK_SIZE`. -/
def taskStackSize : ℕ := 4096

/-- `TASK_QUANTUM_TICKS`. -/
def taskQuantumTicks : UInt32 := 20

/-- `sizeof(struct interrupt_frame)`: 19 words. -/
def frameSize : ℕ := 76

/-- The address of `task_stacks`: the array lies inside the address space. -/
structure Stacks where
  base : UInt32
  fits : base.toNat + maxTasks * taskStackSize < 2 ^ 32

/-- Change one task. -/
def Scheduler.setTask (s : Scheduler) (i : ℕ) (f : Task → Task) : Scheduler :=
  { s with tasks := Function.update s.tasks i (f (s.tasks i)) }

/-- `create_initial_frame`: the address at the top of the stack of the task. -/
def createInitialFrame (area : Stacks) (taskId : ℕ) : UInt32 :=
  let top := area.base + UInt32.ofNat ((taskId + 1) * taskStackSize)
  (top &&& ~~~15) - UInt32.ofNat frameSize

/-- `scheduler_add_task`. -/
def schedulerAddTask (area : Stacks) (current : Bool) (s : Scheduler) : Scheduler :=
  if s.taskCount ≥ maxTasks then s
  else
    { s.setTask s.taskCount fun _ =>
        { frame := if current then 0 else createInitialFrame area s.taskCount
          ticks := 0
          runs := 0
          state := if current then .running else .runnable } with
      taskCount := s.taskCount + 1 }

/-- A task that `scheduler_pick_next` would take. -/
def Scheduler.ready (s : Scheduler) (i : ℕ) : Bool :=
  (s.tasks i).state == .runnable || (s.tasks i).state == .running

/-- `scheduler_pick_next`. -/
def schedulerPickNext (s : Scheduler) : ℕ :=
  (search s.taskCount s.ready s.currentTask).getD s.currentTask

/-- The number of the idle task, which `scheduler_initialize` adds second. -/
def idleTask : ℕ := 1

/-- `scheduler_initialize`: the tasks `shell`, `idle` and `io`. -/
def schedulerInitialize (area : Stacks) (s : Scheduler) : Scheduler :=
  let s := { s with
    taskCount := 0, currentTask := 0, currentQuantum := 0, switches := 0, preemptPending := false }
  schedulerAddTask area false (schedulerAddTask area false (schedulerAddTask area true s))

/-- `scheduler_request_reschedule`. -/
def schedulerRequestReschedule (s : Scheduler) : Scheduler := { s with preemptPending := true }

/-- `scheduler_on_tick`. -/
def schedulerOnTick (s : Scheduler) : Scheduler :=
  if s.taskCount = 0 then s
  else
    let s := s.setTask s.currentTask fun t => { t with ticks := t.ticks + 1 }
    let s := { s with currentQuantum := s.currentQuantum + 1 }
    if s.currentQuantum ≥ taskQuantumTicks then { s with preemptPending := true } else s

/-- The step `task_exit_trap` makes before it halts. -/
def taskExitTrap (s : Scheduler) : Scheduler :=
  schedulerRequestReschedule (s.setTask s.currentTask fun t => { t with state := .exited })

/-- The current task with its frame saved and, if it was running, back among the runnable. -/
def saveCurrent (s : Scheduler) (frame : UInt32) : Scheduler :=
  s.setTask s.currentTask fun t =>
    { t with frame := frame, state := if t.state = .running then .runnable else t.state }

/-- `scheduler_schedule_from_interrupt`: the frame to return to and the state after. -/
def schedulerScheduleFromInterrupt (s : Scheduler) (frame : UInt32) : UInt32 × Scheduler :=
  if s.taskCount < 2 || !s.preemptPending then (frame, s)
  else
    let saved := saveCurrent s frame
    let next := schedulerPickNext saved
    if next = s.currentTask ∨ (saved.tasks next).frame = 0 then
      (frame, { saved.setTask s.currentTask fun t => { t with state := .running } with
        preemptPending := false, currentQuantum := 0 })
    else
      ((saved.tasks next).frame,
        { saved.setTask next fun t => { t with runs := t.runs + 1, state := .running } with
          currentTask := next, currentQuantum := 0, preemptPending := false,
          switches := saved.switches + 1 })

/-! ### The invariant -/

section Updates

variable (s : Scheduler) (f : Task → Task)

@[simp] theorem setTask_self (i : ℕ) : (s.setTask i f).tasks i = f (s.tasks i) :=
  Function.update_self _ _ _

theorem setTask_of_ne {i j : ℕ} (h : j ≠ i) : (s.setTask i f).tasks j = s.tasks j :=
  Function.update_of_ne h _ _

end Updates

/-- The three tasks between two interrupts. -/
structure Orderly (s : Scheduler) : Prop where
  count : s.taskCount = 3
  current : s.currentTask < 3
  /-- A task that is not current waits for its turn or has exited. -/
  others : ∀ i < 3, i ≠ s.currentTask →
    (s.tasks i).state = .runnable ∨ (s.tasks i).state = .exited
  /-- The current task runs, or has just exited. -/
  running : (s.tasks s.currentTask).state = .running ∨
    ((s.tasks s.currentTask).state = .exited ∧ s.preemptPending = true)
  idle : (s.tasks idleTask).state ≠ .exited
  frames : ∀ i < 3, i ≠ s.currentTask → (s.tasks i).frame ≠ 0

/-- The task has not exited. -/
def Scheduler.Alive (s : Scheduler) (i : ℕ) : Prop := (s.tasks i).state ≠ .exited

/-- An initial frame is not null. -/
theorem createInitialFrame_ne (area : Stacks) {i : ℕ} (hi : i < maxTasks) :
    createInitialFrame area i ≠ 0 := by
  have hfits := area.fits
  unfold maxTasks taskStackSize at *
  unfold createInitialFrame taskStackSize frameSize
  have htop : (area.base + UInt32.ofNat ((i + 1) * 4096)).toNat
      = area.base.toNat + (i + 1) * 4096 := by
    rw [UInt32.toNat_add, UInt32.toNat_ofNat']
    omega
  have hmask : ((area.base + UInt32.ofNat ((i + 1) * 4096)) &&& ~~~15).toNat
      = (area.base.toNat + (i + 1) * 4096) / 2 ^ 4 * 2 ^ 4 := by
    rw [Word.toNat_and_not_mask _ (k := 4) (by decide), htop]
  intro hzero
  have hsub := congrArg UInt32.toNat hzero
  rw [UInt32.toNat_sub, hmask, UInt32.toNat_ofNat'] at hsub
  norm_num at hsub
  omega

/-- **The scheduler starts in order.** -/
theorem orderly_initialize (area : Stacks) (s : Scheduler) :
    Orderly (schedulerInitialize area s) := by
  have h1 := createInitialFrame_ne area (i := 1) (by decide)
  have h2 := createInitialFrame_ne area (i := 2) (by decide)
  refine ⟨rfl, show 0 < 3 by decide, fun i hi hne => ?_, .inl rfl,
    show TaskState.runnable ≠ .exited by decide, fun i hi hne => ?_⟩
  · obtain rfl | rfl : i = 1 ∨ i = 2 := by
      change i ≠ 0 at hne
      omega
    · exact .inl rfl
    · exact .inl rfl
  · obtain rfl | rfl : i = 1 ∨ i = 2 := by
      change i ≠ 0 at hne
      omega
    · exact h1
    · exact h2

/-! ### One call from an interrupt -/

/-- The call kept the current task, which had not exited. -/
structure Stayed (s s' : Scheduler) (frame returned : UInt32) : Prop where
  returned : returned = frame
  nearest : Next 3 s.Alive s.currentTask s.currentTask
  currentTask : s'.currentTask = s.currentTask
  taskCount : s'.taskCount = s.taskCount
  pending : s'.preemptPending = false
  state : (s'.tasks s.currentTask).state = .running
  others : ∀ i, i ≠ s.currentTask → s'.tasks i = s.tasks i

/-- The call switched to the nearest task after the current one that has not exited. -/
structure Switched (s s' : Scheduler) (frame returned : UInt32) (next : ℕ) : Prop where
  nearest : Next 3 s.Alive s.currentTask next
  ne : next ≠ s.currentTask
  returned : returned = (s.tasks next).frame
  currentTask : s'.currentTask = next
  taskCount : s'.taskCount = s.taskCount
  pending : s'.preemptPending = false
  /-- The task that was left: its frame is saved, and it is still there to run unless it exited. -/
  left : (s'.tasks s.currentTask).frame = frame ∧ (s'.tasks s.currentTask).state
    = if (s.tasks s.currentTask).state = .running then .runnable else .exited
  entered : (s'.tasks next).state = .running
  others : ∀ i, i ≠ s.currentTask → i ≠ next → s'.tasks i = s.tasks i

section Schedule

variable {s : Scheduler} (h : Orderly s) (frame : UInt32)
include h

/-- After the save, the tasks to pick from are those that have not exited. -/
theorem Orderly.ready_saveCurrent {i : ℕ} (hi : i < 3) :
    (saveCurrent s frame).ready i = true ↔ s.Alive i := by
  unfold Scheduler.ready Scheduler.Alive saveCurrent
  by_cases hcur : i = s.currentTask
  · subst hcur
    rw [setTask_self]
    rcases h.running with hr | ⟨hr, -⟩ <;> simp [hr]
  · rw [setTask_of_ne _ _ hcur]
    rcases h.others i hi hcur with ho | ho <;> simp [ho]

/-- **`scheduler_pick_next` takes the nearest task that has not exited.** The idle task is one. -/
theorem Orderly.pickNext :
    Next 3 s.Alive s.currentTask (schedulerPickNext (saveCurrent s frame)) := by
  have hidle := (h.ready_saveCurrent frame (i := idleTask) (by decide)).mpr h.idle
  have hcount : (saveCurrent s frame).taskCount = 3 := h.count
  have hcurrent : (saveCurrent s frame).currentTask = s.currentTask := rfl
  obtain ⟨next, hnext⟩ := search_isSome h.current (show idleTask < 3 by decide) hidle
  have hfound := search_some h.current hnext
  have hpick : schedulerPickNext (saveCurrent s frame) = next := by
    unfold schedulerPickNext
    rw [hcount, hcurrent, hnext]
    rfl
  rw [hpick]
  refine ⟨hfound.lt, (h.ready_saveCurrent frame hfound.lt).mp hfound.passes, fun b hb hlive => ?_⟩
  exact hfound.nearest b hb ((h.ready_saveCurrent frame hb).mpr hlive)

/-- **What a call from an interrupt can do.** -/
theorem Orderly.schedule_cases :
    (s.preemptPending = false ∧ schedulerScheduleFromInterrupt s frame = (frame, s)) ∨
    (s.preemptPending = true ∧ ∃ returned s',
      schedulerScheduleFromInterrupt s frame = (returned, s') ∧
      (Stayed s s' frame returned ∨ ∃ next, Switched s s' frame returned next)) := by
  have hpick := h.pickNext frame
  unfold schedulerScheduleFromInterrupt
  rw [h.count]
  cases hpending : s.preemptPending with
  | false => exact .inl ⟨rfl, rfl⟩
  | true =>
    refine .inr ⟨rfl, ?_⟩
    dsimp only
    rw [if_neg (show ¬ (decide (3 < 2) || !true) = true by decide)]
    generalize schedulerPickNext (saveCurrent s frame) = next at hpick
    by_cases hsame : next = s.currentTask
    · rw [if_pos (.inl hsame)]
      rw [hsame] at hpick
      refine ⟨_, _, rfl, .inl ⟨rfl, hpick, rfl, rfl, rfl, ?_, fun i hi => ?_⟩⟩
      · dsimp only
        rw [setTask_self]
      · dsimp only
        rw [setTask_of_ne _ _ hi, saveCurrent, setTask_of_ne _ _ hi]
    · -- another task: its own frame is resumed, and the running one is left with its saved frame
      have hsaved : (saveCurrent s frame).tasks next = s.tasks next := setTask_of_ne _ _ hsame
      rw [if_neg (by rw [hsaved]; exact fun hor => hor.elim hsame (h.frames next hpick.lt hsame)),
        hsaved]
      refine ⟨_, _, rfl, .inr ⟨next, hpick, hsame, rfl, rfl, rfl, rfl, ?_, ?_,
        fun i hi hin => ?_⟩⟩
      · have hleft : ∀ f, ((saveCurrent s frame).setTask next f).tasks s.currentTask
            = (saveCurrent s frame).tasks s.currentTask :=
          fun f => setTask_of_ne _ _ (Ne.symm hsame)
        rw [hleft, saveCurrent, setTask_self]
        refine ⟨rfl, ?_⟩
        rcases h.running with hr | ⟨hr, -⟩ <;> simp [hr]
      · dsimp only
        rw [setTask_self]
      · dsimp only
        rw [setTask_of_ne _ _ hin, saveCurrent, setTask_of_ne _ _ hi]

end Schedule

end MyOS.Sched
