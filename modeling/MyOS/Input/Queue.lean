import MyOS.Input.Drivers

/-!
# The keyboard event queue is a bounded FIFO

The interrupt pushes events and the desktop reads them; `keyboard_try_read_event` disables
interrupts around its pop, so every interleaving of the two sides is a list of atomic steps
(`QueueStep`).

A step moves events from one end to the other and never between (`QueueStep.conserves`), so over a
whole run the events that got in are the events handed out followed by those still queued
(`acceptedEvents_eq`). Order, absence of duplicates and the number of unread events are read off
that one equation; the ring is full exactly when 127 are unread, since one of its 128 places is kept
free.
-/

namespace MyOS.Input

open List

/-- `keyboard_try_read_event`, where `out` says whether its argument is not null. -/
def keyboardTryReadEvent (k : Keyboard) (out : Bool) : Option KeyboardEvent × Keyboard :=
  if out then keyboardEventPop k else (none, k)

/-- One atomic step on the queue, by the interrupt or by a reader. -/
inductive QueueStep
  | push (e : KeyboardEvent)
  | tryRead (out : Bool)
deriving DecidableEq, Repr

namespace QueueStep

/-- The queue after the step. -/
def next (k : Keyboard) : QueueStep → Keyboard
  | push e => keyboardEventPush k e
  | tryRead out => (keyboardTryReadEvent k out).2

/-- The event that gets into the queue: a push that is dropped leaves `event_head` where it was. -/
def accepted (k : Keyboard) : QueueStep → List KeyboardEvent
  | push e => if (keyboardEventPush k e).head = k.head then [] else [e]
  | tryRead _ => []

/-- The event that is handed out. -/
def read (k : Keyboard) : QueueStep → List KeyboardEvent
  | push _ => []
  | tryRead out => (keyboardTryReadEvent k out).1.toList

/-- A push is dropped exactly when all places but one are in use. -/
theorem accepted_push (k : Keyboard) (e : KeyboardEvent) :
    (push e).accepted k = if k.count = 127 then [] else [e] := by
  have hhead : (keyboardEventPush k e).head = k.head ↔ k.count + 1 = 128 :=
    RingBuffer.head_push_eq_iff (by decide) k e
  change (if (keyboardEventPush k e).head = k.head then [] else [e]) = _
  simp only [hhead, Nat.reduceEqDiff]

/-- **Conservation, one step.** What was queued and what gets in is what is handed out and what is
queued afterwards, in this order. -/
theorem conserves (k : Keyboard) (st : QueueStep) :
    k.toList ++ st.accepted k = st.read k ++ (st.next k).toList := by
  cases st with
  | push e =>
    have hpush : (k.push e).toList = if k.count + 1 < 128 then k.toList ++ [e] else k.toList :=
      RingBuffer.toList_push k e
    have hlt : k.count < 128 := k.count_lt
    change k.toList ++ (push e).accepted k = (k.push e).toList
    rw [hpush, accepted_push]
    by_cases hfull : k.count = 127
    · rw [if_pos hfull, if_neg (by omega), append_nil]
    · rw [if_neg hfull, if_pos (by omega)]
  | tryRead out =>
    cases out with
    | false => exact append_nil _
    | true =>
      change k.toList ++ [] = k.pop.1.toList ++ k.pop.2.toList
      rw [RingBuffer.pop_fst, RingBuffer.toList_pop, append_nil]
      cases k.toList with
      | nil => rfl
      | cons a l => rfl

end QueueStep

/-! ### Runs -/

/-- The queue after a list of steps. -/
def queueRun (k : Keyboard) (steps : List QueueStep) : Keyboard := steps.foldl QueueStep.next k

/-- The events that get into the queue along a list of steps. -/
def acceptedEvents : Keyboard → List QueueStep → List KeyboardEvent
  | _, [] => []
  | k, st :: steps => st.accepted k ++ acceptedEvents (st.next k) steps

/-- The events that are handed out along a list of steps. -/
def readEvents : Keyboard → List QueueStep → List KeyboardEvent
  | _, [] => []
  | k, st :: steps => st.read k ++ readEvents (st.next k) steps

/-- **Conservation, whole runs.** -/
theorem acceptedEvents_eq (k : Keyboard) (steps : List QueueStep) :
    k.toList ++ acceptedEvents k steps = readEvents k steps ++ (queueRun k steps).toList := by
  induction steps generalizing k with
  | nil => exact append_nil _
  | cons st steps ih =>
    calc k.toList ++ acceptedEvents k (st :: steps)
        = (k.toList ++ st.accepted k) ++ acceptedEvents (st.next k) steps :=
          (append_assoc ..).symm
      _ = st.read k ++ ((st.next k).toList ++ acceptedEvents (st.next k) steps) := by
          rw [st.conserves, append_assoc]
      _ = st.read k ++ (readEvents (st.next k) steps ++ (queueRun (st.next k) steps).toList) := by
          rw [ih]
      _ = readEvents k (st :: steps) ++ (queueRun k (st :: steps)).toList :=
          (append_assoc ..).symm

/-- The queue at boot, over whatever stands in its array. -/
def bootQueue (buffer : ℕ → KeyboardEvent) : Keyboard :=
  ⟨buffer, 0, 0, Nat.zero_lt_succ _, Nat.zero_lt_succ _⟩

/-- **The event queue is a bounded FIFO.** After every interleaving of pushes and reads, the events
that got in are the events read, in the same order, followed by the unread ones; the next push is
dropped exactly when 127 events are unread, and then leaves the queue as it was; and the next read
returns the oldest unread event, or nothing when there is none. -/
theorem event_queue_fifo (buffer : ℕ → KeyboardEvent) (steps : List QueueStep) :
    ∃ unread, acceptedEvents (bootQueue buffer) steps
        = readEvents (bootQueue buffer) steps ++ unread ∧
      (∀ e, (QueueStep.push e).accepted (queueRun (bootQueue buffer) steps)
        = if unread.length = 127 then [] else [e]) ∧
      (∀ e, keyboardEventPush (queueRun (bootQueue buffer) steps) e
        = queueRun (bootQueue buffer) steps ↔ unread.length = 127) ∧
      (keyboardTryReadEvent (queueRun (bootQueue buffer) steps) true).1 = unread.head? := by
  have hboot : (bootQueue buffer).toList = [] := rfl
  have hlaw := acceptedEvents_eq (bootQueue buffer) steps
  rw [hboot, nil_append] at hlaw
  refine ⟨_, hlaw, fun e => ?_, fun e => ?_, RingBuffer.pop_fst _⟩
  · rw [RingBuffer.length_toList]
    exact QueueStep.accepted_push _ e
  · rw [RingBuffer.length_toList]
    generalize queueRun (bootQueue buffer) steps = k
    have hhead : (k.push e).head = k.head ↔ k.count + 1 = 128 :=
      RingBuffer.head_push_eq_iff (by decide) k e
    have hroom : k.count + 1 < 128 ↔ (k.head + 1) % 128 ≠ k.tail := k.count_succ_lt_iff
    constructor
    · intro hsame
      have := hhead.mp (congrArg RingBuffer.head hsame)
      omega
    · intro hfull
      exact if_pos (not_not.mp (mt hroom.mpr (by omega)))

end MyOS.Input
