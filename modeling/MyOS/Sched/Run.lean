import MyOS.Sched.Basic

/-!
# Runs of the scheduler

Any interleaving of ticks, requests to reschedule, calls from interrupts and exits of the current
task. `Orderly` holds throughout (`Orderly.run`), an EXITED task stays so (`run_exited`), and what
`schedule_cases` says of one call adds up to `scheduler_safe`: after a call that saw a pending
preemption exactly the current task is RUNNING, a task that was EXITED before it is never current
again, a task is resumed with the frame it was last left with (`Saved`, the ghost that the list of
switches defines), and between two turns of one task every other task that stays runnable has a
turn.
-/

namespace MyOS.Sched

open RoundRobin List

/-- What can happen to the scheduler. An interrupt hands over the address of its frame, which is not
null. -/
inductive Event where
  | tick
  | requestReschedule
  | interrupt (frame : {p : UInt32 // p ≠ 0})
  | exit

/-- One event. The entry function of the idle task does not return, so that task never gets to its
exit trap. -/
def Event.step (s : Scheduler) : Event → Scheduler
  | .tick => schedulerOnTick s
  | .requestReschedule => schedulerRequestReschedule s
  | .interrupt frame => (schedulerScheduleFromInterrupt s frame).2
  | .exit => if s.currentTask = idleTask then s else taskExitTrap s

/-- The state after a sequence of events. -/
def run (s : Scheduler) (events : List Event) : Scheduler := events.foldl Event.step s

/-- A switch: the task that was left, the frame the interrupt handed over, the task that was entered
and the frame that was returned. -/
structure Turn where
  left : ℕ
  frame : UInt32
  next : ℕ
  returned : UInt32

/-- The switch an event makes, if any. -/
def Event.turn (s : Scheduler) : Event → List Turn
  | .interrupt frame =>
    let r := schedulerScheduleFromInterrupt s frame
    if r.2.currentTask = s.currentTask then []
    else [⟨s.currentTask, frame, r.2.currentTask, r.1⟩]
  | _ => []

/-- The switches of a run, in order. -/
def turns : Scheduler → List Event → List Turn
  | _, [] => []
  | s, e :: es => e.turn s ++ turns (e.step s) es

/-- The frame of the last switch that left the task. -/
def lastLeft (l : List Turn) (a : ℕ) : Option UInt32 :=
  (l.reverse.find? fun t => decide (t.left = a)).map Turn.frame

/-! ### One event -/

section Step

variable {s : Scheduler} {frame returned : UInt32}

/-- A tick counts and may ask for a switch, but changes no state and no frame of a task. -/
theorem Orderly.tick (h : Orderly s) : Orderly (schedulerOnTick s) ∧
    (schedulerOnTick s).currentTask = s.currentTask ∧
    ∀ i, ((schedulerOnTick s).tasks i).state = (s.tasks i).state ∧
      ((schedulerOnTick s).tasks i).frame = (s.tasks i).frame := by
  have htask : ∀ i, ((schedulerOnTick s).tasks i).state = (s.tasks i).state ∧
      ((schedulerOnTick s).tasks i).frame = (s.tasks i).frame := by
    intro i
    unfold schedulerOnTick
    dsimp only
    split
    · exact ⟨rfl, rfl⟩
    · have hset : let t :=
        (s.setTask s.currentTask fun t => { t with ticks := t.ticks + 1 }).tasks i
          t.state = (s.tasks i).state ∧ t.frame = (s.tasks i).frame := by
        by_cases hi : i = s.currentTask
        · subst hi; rw [setTask_self]; exact ⟨rfl, rfl⟩
        · rw [setTask_of_ne _ _ hi]; exact ⟨rfl, rfl⟩
      split <;> exact hset
  have hrest : (schedulerOnTick s).currentTask = s.currentTask ∧
      (schedulerOnTick s).taskCount = s.taskCount ∧
      (s.preemptPending = true → (schedulerOnTick s).preemptPending = true) := by
    unfold schedulerOnTick
    dsimp only
    split
    · exact ⟨rfl, rfl, id⟩
    · split
      · exact ⟨rfl, rfl, fun _ => rfl⟩
      · exact ⟨rfl, rfl, id⟩
  obtain ⟨hcur, hcount, hpending⟩ := hrest
  refine ⟨⟨hcount.trans h.count, hcur ▸ h.current, fun i hi hne => ?_, ?_, ?_, fun i hi hne => ?_⟩,
    hcur, htask⟩
  · rw [(htask i).1]; exact h.others i hi (hcur ▸ hne)
  · rw [hcur, (htask _).1]; exact h.running.imp_right fun hr => ⟨hr.1, hpending hr.2⟩
  · rw [(htask _).1]; exact h.idle
  · rw [(htask i).2]; exact h.frames i hi (hcur ▸ hne)

theorem Orderly.requestReschedule (h : Orderly s) : Orderly (schedulerRequestReschedule s) :=
  ⟨h.count, h.current, h.others, h.running.imp_right fun hr => ⟨hr.1, rfl⟩, h.idle, h.frames⟩

theorem taskExitTrap_current (s : Scheduler) :
    ((taskExitTrap s).tasks s.currentTask).state = .exited :=
  congrArg Task.state (setTask_self s (fun t => { t with state := .exited }) s.currentTask)

theorem taskExitTrap_of_ne {i : ℕ} (hi : i ≠ s.currentTask) :
    (taskExitTrap s).tasks i = s.tasks i :=
  setTask_of_ne s (fun t => { t with state := .exited }) hi

theorem Orderly.exit (h : Orderly s) (hidle : s.currentTask ≠ idleTask) :
    Orderly (taskExitTrap s) := by
  refine ⟨h.count, h.current, fun i hi hne => ?_, .inr ⟨taskExitTrap_current s, rfl⟩, ?_,
    fun i hi hne => ?_⟩
  · rw [taskExitTrap_of_ne (s := s) hne]; exact h.others i hi hne
  · rw [taskExitTrap_of_ne hidle.symm]; exact h.idle
  · rw [taskExitTrap_of_ne (s := s) hne]; exact h.frames i hi hne

theorem step_exit (s : Scheduler) :
    Event.exit.step s = if s.currentTask = idleTask then s else taskExitTrap s := rfl

theorem Stayed.orderly {s' : Scheduler} (h : Orderly s)
    (hs : Stayed s s' frame returned) : Orderly s' := by
  have hcur := hs.currentTask
  refine ⟨hs.taskCount.trans h.count, hcur ▸ h.current, fun i hi hne => ?_, ?_, ?_,
    fun i hi hne => ?_⟩
  · rw [hs.others i (hcur ▸ hne)]; exact h.others i hi (hcur ▸ hne)
  · rw [hcur]; exact .inl hs.state
  · by_cases hi : idleTask = s.currentTask
    · rw [hi, hs.state]; decide
    · rw [hs.others _ hi]; exact h.idle
  · rw [hs.others i (hcur ▸ hne)]; exact h.frames i hi (hcur ▸ hne)

theorem Switched.orderly {s' : Scheduler} {next : ℕ} (h : Orderly s)
    (hframe : frame ≠ 0) (hs : Switched s s' frame returned next) : Orderly s' := by
  have hcur := hs.currentTask
  refine ⟨hs.taskCount.trans h.count, hcur ▸ hs.nearest.lt, fun i hi hne => ?_, ?_, ?_,
    fun i hi hne => ?_⟩
  · rw [hcur] at hne
    by_cases hi' : i = s.currentTask
    · rw [hi', hs.left.2]
      split
      · exact .inl rfl
      · exact .inr rfl
    · rw [hs.others i hi' hne]; exact h.others i hi hi'
  · rw [hcur]; exact .inl hs.entered
  · by_cases hn : idleTask = next
    · rw [hn, hs.entered]; decide
    · by_cases hi : idleTask = s.currentTask
      · -- the idle task was left, and it was running
        have hrun := h.running.resolve_right fun hr => h.idle (hi ▸ hr.1)
        rw [hi, hs.left.2, if_pos hrun]
        decide
      · rw [hs.others _ hi hn]; exact h.idle
  · rw [hcur] at hne
    by_cases hi' : i = s.currentTask
    · rw [hi', hs.left.1]; exact hframe
    · rw [hs.others i hi' hne]; exact h.frames i hi hi'

/-- **Every event keeps the tasks in order.** -/
theorem Orderly.step (h : Orderly s) (e : Event) : Orderly (e.step s) := by
  cases e with
  | tick => exact h.tick.1
  | requestReschedule => exact h.requestReschedule
  | interrupt frame =>
    change Orderly (schedulerScheduleFromInterrupt s frame).2
    obtain ⟨-, heq⟩ | ⟨-, returned, s', heq, hs | ⟨next, hs⟩⟩ := h.schedule_cases frame
    · rw [heq]; exact h
    · rw [heq]; exact hs.orderly h
    · rw [heq]; exact hs.orderly h frame.2
  | exit =>
    rw [step_exit]
    split
    · exact h
    · exact h.exit ‹_›

/-- **A task that has exited stays so.** -/
theorem step_exited (h : Orderly s) (e : Event) {a : ℕ} (ha : (s.tasks a).state = .exited) :
    ((e.step s).tasks a).state = .exited := by
  cases e with
  | tick => exact (h.tick.2.2 a).1.trans ha
  | requestReschedule => exact ha
  | interrupt frame =>
    change ((schedulerScheduleFromInterrupt s frame).2.tasks a).state = _
    obtain ⟨-, heq⟩ | ⟨-, returned, s', heq, hs | ⟨next, hs⟩⟩ := h.schedule_cases frame
    · rw [heq]; exact ha
    · have hne : a ≠ s.currentTask := fun hcur => hs.nearest.passes (hcur ▸ ha)
      rw [heq, hs.others a hne]
      exact ha
    · have hne : a ≠ next := fun hn => hs.nearest.passes (hn ▸ ha)
      rw [heq]
      by_cases hcur : a = s.currentTask
      · dsimp only
        rw [hcur, hs.left.2, ← hcur, ha]
        rfl
      · rw [hs.others a hcur hne]
        exact ha
  | exit =>
    rw [step_exit]
    split
    · exact ha
    · by_cases hcur : a = s.currentTask
      · rw [hcur]; exact taskExitTrap_current s
      · rw [taskExitTrap_of_ne hcur]; exact ha

/-- The current task changes only in a switch, to a task that has not exited. -/
theorem step_currentTask (h : Orderly s) (e : Event) :
    ((e.step s).currentTask = s.currentTask ∧ e.turn s = []) ∨
    ∃ frame returned next, Switched s (e.step s) frame returned next ∧
      e.turn s = [⟨s.currentTask, frame, next, returned⟩] := by
  cases e with
  | tick => exact .inl ⟨h.tick.2.1, rfl⟩
  | requestReschedule => exact .inl ⟨rfl, rfl⟩
  | interrupt frame =>
    unfold Event.step Event.turn
    dsimp only
    obtain ⟨-, heq⟩ | ⟨-, returned, s', heq, hs | ⟨next, hs⟩⟩ := h.schedule_cases frame
    · rw [heq]; exact .inl ⟨rfl, if_pos rfl⟩
    · rw [heq]; exact .inl ⟨hs.currentTask, if_pos hs.currentTask⟩
    · rw [heq]
      refine .inr ⟨frame, returned, next, hs, ?_⟩
      rw [hs.currentTask, if_neg hs.ne]
  | exit =>
    refine .inl ⟨?_, rfl⟩
    rw [step_exit]
    split <;> rfl

end Step

/-! ### Whole runs -/

section Run

variable {s : Scheduler}

theorem Orderly.run (h : Orderly s) (events : List Event) : Orderly (run s events) := by
  induction events generalizing s with
  | nil => exact h
  | cons e es ih => exact ih (h.step e)

theorem run_exited (h : Orderly s) (events : List Event) {a : ℕ}
    (ha : (s.tasks a).state = .exited) : ((run s events).tasks a).state = .exited := by
  induction events generalizing s with
  | nil => exact ha
  | cons e es ih => exact ih (h.step e) (step_exited h e ha)

/-- **An exited task that is not current never becomes current.** -/
theorem run_not_current (h : Orderly s) (events : List Event) {a : ℕ}
    (ha : (s.tasks a).state = .exited) (hne : s.currentTask ≠ a) :
    (run s events).currentTask ≠ a := by
  induction events generalizing s with
  | nil => exact hne
  | cons e es ih =>
    refine ih (h.step e) (step_exited h e ha) ?_
    obtain ⟨hcur, -⟩ | ⟨frame, returned, next, hs, -⟩ := step_currentTask h e
    · rw [hcur]; exact hne
    · rw [hs.currentTask]
      rintro rfl
      exact hs.nearest.passes ha

/-- The frames of the tasks that are not current are the ones they were left with. -/
def Saved (initial : ℕ → UInt32) (l : List Turn) (s : Scheduler) : Prop :=
  ∀ a < 3, a ≠ s.currentTask → (s.tasks a).frame = (lastLeft l a).getD (initial a)

theorem lastLeft_concat (l : List Turn) (t : Turn) (a : ℕ) :
    lastLeft (l ++ [t]) a = if t.left = a then some t.frame else lastLeft l a := by
  unfold lastLeft
  rw [reverse_append, reverse_singleton, singleton_append, List.find?_cons]
  by_cases h : t.left = a
  · simp [h]
  · simp [h]

section

variable {initial : ℕ → UInt32} {l : List Turn} (hs : Saved initial l s) (h : Orderly s)
include hs h

/-- **One event keeps the ghost in step with the frames.** -/
theorem Saved.step (e : Event) : Saved initial (l ++ e.turn s) (e.step s) := by
  obtain ⟨hcur, hturn⟩ | ⟨frame, returned, next, hsw, hturn⟩ := step_currentTask h e
  · -- no switch: frames of the others are unchanged
    rw [hturn, append_nil]
    intro a ha hne
    rw [hcur] at hne
    rw [← hs a ha hne]
    cases e with
    | tick => exact (h.tick.2.2 a).2
    | requestReschedule => rfl
    | interrupt frame =>
      unfold Event.step at hcur ⊢
      dsimp only at hcur ⊢
      obtain ⟨-, heq⟩ | ⟨-, returned, s', heq, hst | ⟨next, hsw⟩⟩ := h.schedule_cases frame
      · rw [heq]
      · rw [heq, hst.others a hne]
      · rw [heq] at hcur
        exact absurd (hsw.currentTask.symm.trans hcur) hsw.ne
    | exit =>
      rw [step_exit]
      split
      · rfl
      · rw [taskExitTrap_of_ne hne]
  · rw [hturn]
    intro a ha hne
    rw [hsw.currentTask] at hne
    rw [lastLeft_concat]
    by_cases hleft : s.currentTask = a
    · rw [if_pos hleft, ← hleft]
      exact hsw.left.1
    · rw [if_neg hleft, hsw.others a (Ne.symm hleft) hne]
      exact hs a ha (Ne.symm hleft)

/-- **Every switch of a run resumes a task with the frame it was last left with.** -/
theorem Saved.turns {events : List Event} {l1 l2 : List Turn} {t : Turn}
    (ht : turns s events = l1 ++ t :: l2) :
    t.returned = (lastLeft (l ++ l1) t.next).getD (initial t.next) := by
  induction events generalizing s l l1 with
  | nil => exact absurd ht (by simp [Sched.turns])
  | cons e es ih =>
    have hstep := hs.step h e
    rw [Sched.turns] at ht
    obtain ⟨hcur, hturn⟩ | ⟨frame, returned, next, hsw, hturn⟩ := step_currentTask h e
    · rw [hturn, append_nil] at hstep
      rw [hturn, nil_append] at ht
      exact ih hstep (h.step e) ht
    · rw [hturn] at hstep ht
      cases l1 with
      | nil =>
        -- the switch of this event
        obtain rfl := (List.cons.inj ht).1
        rw [append_nil, ← hs next hsw.nearest.lt hsw.ne]
        exact hsw.returned
      | cons t' l1 =>
        obtain ⟨rfl, hrest⟩ := List.cons.inj ht
        have := ih hstep (h.step e) hrest
        rwa [append_assoc] at this

end

/-- The tasks entered in a run, as moves on the circle that never jump over a task alive at the
end. -/
theorem Orderly.chain (h : Orderly s) (events : List Event) {b : ℕ} (hb : b < 3)
    (hlive : (Sched.run s events).Alive b) : Chain 3 b s.currentTask
      ((Sched.turns s events).map Turn.next) (Sched.run s events).currentTask := by
  induction events generalizing s with
  | nil => exact .nil _
  | cons e es ih =>
    have hrest := ih (h.step e) hlive
    rw [Sched.turns, map_append]
    obtain ⟨hcur, hturn⟩ | ⟨frame, returned, next, hsw, hturn⟩ := step_currentTask h e
    · rw [hturn, ← hcur]
      exact hrest
    · have hnow : s.Alive b := fun hex => hlive (run_exited h (e :: es) hex)
      rw [hsw.currentTask] at hrest
      rw [hturn]
      exact .cons hsw.nearest.lt (hsw.nearest.nearest b hb hnow) hrest

end Run

/-- **Scheduler safety over any run.** From `scheduler_initialize`, for every sequence of events:
the parts in order are that exactly the current task is RUNNING after a call that saw a pending
preemption; that a task EXITED before such a call is never current or RUNNING after it; that every
switch resumes a task with the frame it was last left with, or its initial one; that a call goes on
to the nearest task after the current one that has not exited; and that between two turns of `a`
every other task that stays runnable has a turn. -/
theorem scheduler_safe (area : Stacks) (s : Scheduler) (events : List Event) :
    let s0 := schedulerInitialize area s
    let s1 := run s0 events
    (∀ frame : {p : UInt32 // p ≠ 0}, s1.preemptPending = true →
      let s2 := (schedulerScheduleFromInterrupt s1 frame).2
      (∀ i < s2.taskCount, (s2.tasks i).state = .running ↔ i = s2.currentTask) ∧
      (∀ a < s1.taskCount, (s1.tasks a).state = .exited → ∀ events',
        (run s2 events').currentTask ≠ a ∧ ((run s2 events').tasks a).state = .exited) ∧
      Next s1.taskCount s1.Alive s1.currentTask s2.currentTask) ∧
    (∀ l1 t l2, turns s0 events = l1 ++ t :: l2 →
      t.returned = (lastLeft l1 t.next).getD (s0.tasks t.next).frame) ∧
    ∀ events' (frame : {p : UInt32 // p ≠ 0}) a b, s1.currentTask = a →
      (run s1 events').currentTask ≠ a →
      (schedulerScheduleFromInterrupt (run s1 events') frame).2.currentTask = a →
      b < s1.taskCount → b ≠ a → (run s1 events').Alive b →
      ∃ t ∈ turns s1 events', t.next = b := by
  intro s0 s1
  have h0 : Orderly s0 := orderly_initialize area s
  have h1 : Orderly s1 := h0.run events
  refine ⟨fun frame hpending => ?_, fun l1 t l2 ht => ?_, ?_⟩
  · -- one decision of the scheduler
    intro s2
    have h2 : Orderly s2 := h1.step (.interrupt frame)
    have hnext : s2.preemptPending = false ∧ Next 3 s1.Alive s1.currentTask s2.currentTask := by
      obtain ⟨hno, -⟩ | ⟨-, returned, s', heq, hs | ⟨next, hs⟩⟩ := h1.schedule_cases frame
      · exact absurd (hno.symm.trans hpending) Bool.false_ne_true
      · have hs2 : s2 = s' := congrArg Prod.snd heq
        rw [hs2, hs.currentTask]
        exact ⟨hs.pending, hs.nearest⟩
      · have hs2 : s2 = s' := congrArg Prod.snd heq
        rw [hs2, hs.currentTask]
        exact ⟨hs.pending, hs.nearest⟩
    rw [h1.count, h2.count]
    refine ⟨fun i hi => ⟨fun hrun => ?_, ?_⟩, fun a _ hex events' => ?_, hnext.2⟩
    · -- a task that is not the current one is ready or has exited
      by_contra hne
      rcases h2.others i hi hne with ho | ho <;> exact nomatch ho.symm.trans hrun
    · -- the current one could only have exited while a preemption is pending
      rintro rfl
      refine h2.running.resolve_right fun hr => ?_
      exact absurd (hnext.1.symm.trans hr.2) Bool.false_ne_true
    · have hex2 : (s2.tasks a).state = .exited := step_exited h1 (.interrupt frame) hex
      have hne : s2.currentTask ≠ a := fun hcur => hnext.2.passes (hcur ▸ hex)
      exact ⟨run_not_current h2 events' hex2 hne, run_exited h2 events' hex2⟩
  · -- every task is resumed with the frame it was left with, from the first event on
    have hsaved : Saved (fun a => (s0.tasks a).frame) [] s0 := fun a _ _ => rfl
    have := hsaved.turns h0 ht
    rwa [nil_append] at this
  · -- between two turns of `a` the scheduler has gone once around the circle
    intro events' frame a b hcur hother hback hb hba hlive
    rw [h1.count] at hb
    have h3 : Orderly (run s1 events') := h1.run events'
    have hchain := h1.chain events' hb hlive
    rw [hcur] at hchain
    -- the last call closes the circle
    have hlast : Next 3 (run s1 events').Alive (run s1 events').currentTask a := by
      obtain ⟨hsame, -⟩ | ⟨frame', returned, next, hs, -⟩ := step_currentTask h3 (.interrupt frame)
      · exact absurd (hsame.symm.trans hback) hother
      · have hnext : next = a := hs.currentTask.symm.trans hback
        rw [← hnext]
        exact hs.nearest
    have hclosed := hchain.concat hlast.lt (hlast.nearest b hb hlive)
    have hmem := hclosed.visits hb hlast.lt (by simp)
    rw [mem_append, mem_singleton] at hmem
    exact mem_map.mp (hmem.resolve_right hba)

end MyOS.Sched
