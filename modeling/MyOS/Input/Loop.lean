import MyOS.Input.Interleave

/-!
# The event loop of the GUI

`GuiSystem::run` polls before it tests the limit of its batch: `while (input_poll_event(&event) &&
drained < 64)`. When 64 events have been handled one more is taken from the drivers, and nobody
handles it (`batch_lost`).

A round is given by what the calls of `input_poll_event` return in it, so interrupts may come
between the calls and inside them. A round passes on everything it obtains exactly when one of its
first 65 calls reports no event (`loop_handles_iff`). Without interrupts, 60 queued keys are not too
many (`batch_complete_of_quiet`).
-/

namespace MyOS.Input

open List

/-- The limit of a batch. -/
def batchLimit : ℕ := 64

/-- What a batch took from the drivers, what it passed to `handle_event`, and the variable `event`
after it. -/
structure Batch where
  obtained : List GuiEvent
  handled : List GuiEvent
  event : GuiEvent
deriving DecidableEq, Repr

/-- The `while` loop of `GuiSystem::run`: `left` events may still be handled, the next call is the
`k`-th. -/
def drainBatch (poll : ℕ → Option GuiEvent) : (left k : ℕ) → GuiEvent → Batch
  | left, k, event =>
    match poll k with
    | none => ⟨[], [], { event with type := .none }⟩
    | some e =>
      match left with
      | 0 => ⟨[e], [], e⟩
      | left + 1 =>
        let rest := drainBatch poll left (k + 1) e
        ⟨e :: rest.obtained, e :: rest.handled, rest.event⟩

/-- A round of the loop: the results of its calls of `input_poll_event`, the uninitialised variable
`event`, and the timer if the second has changed. -/
structure Round where
  poll : ℕ → Option GuiEvent
  event : GuiEvent
  second : Option UInt32

/-- A call of `handle_event`. -/
inductive Handled where
  | polled (e : GuiEvent)
  | timer (e : GuiEvent)
deriving DecidableEq, Repr

/-- The batch of a round. -/
def Round.batch (r : Round) : Batch := drainBatch r.poll batchLimit 0 r.event

/-- The calls of `handle_event` in a round. -/
def Round.handled (r : Round) : List Handled :=
  r.batch.handled.map .polled ++
    match r.second with
    | none => []
    | some ticks => [.timer { r.batch.event with type := .timerTick, ticks := ticks }]

/-- The calls of `handle_event` in a sequence of rounds. -/
def guiRun (rounds : List Round) : List Handled := rounds.flatMap Round.handled

/-- The events that `GuiSystem::run` obtains in a sequence of rounds. -/
def guiObtained (rounds : List Round) : List GuiEvent := rounds.flatMap (fun r => r.batch.obtained)

/-- The events among the calls that came from `input_poll_event`. -/
def polledEvents (l : List Handled) : List GuiEvent :=
  l.filterMap fun
    | .polled e => some e
    | .timer _ => none

/-! ### One batch -/

/-- A batch handles what it obtains, or all but the last. -/
theorem drainBatch_cases (poll : ℕ → Option GuiEvent) (left k : ℕ) (event : GuiEvent) :
    ((drainBatch poll left k event).handled = (drainBatch poll left k event).obtained ∧
      ∃ j ≤ left, poll (k + j) = none) ∨
    ((∃ e, (drainBatch poll left k event).obtained
        = (drainBatch poll left k event).handled ++ [e]) ∧
      ∀ j ≤ left, poll (k + j) ≠ none) := by
  induction left generalizing k event with
  | zero =>
    unfold drainBatch
    cases hp : poll k with
    | none => exact .inl ⟨rfl, 0, le_refl _, hp⟩
    | some e =>
      refine .inr ⟨⟨e, rfl⟩, fun j hj => ?_⟩
      obtain rfl : j = 0 := Nat.le_zero.mp hj
      rw [Nat.add_zero, hp]
      simp
  | succ left ih =>
    unfold drainBatch
    cases hp : poll k with
    | none => exact .inl ⟨rfl, 0, Nat.zero_le _, hp⟩
    | some e =>
      dsimp only
      rcases ih (k + 1) e with ⟨heq, j, hj, hnone⟩ | ⟨⟨e', heq⟩, hall⟩
      · refine .inl ⟨by rw [heq], j + 1, by omega, ?_⟩
        rw [← hnone]
        congr 1
        omega
      · refine .inr ⟨⟨e', by rw [heq]; rfl⟩, fun j hj => ?_⟩
        cases j with
        | zero => rw [Nat.add_zero, hp]; simp
        | succ j =>
          have := hall j (by omega)
          rwa [show k + 1 + j = k + (j + 1) by omega] at this

/-! ### The loop -/

theorem polledEvents_append (l l' : List Handled) :
    polledEvents (l ++ l') = polledEvents l ++ polledEvents l' := List.filterMap_append

theorem polledEvents_handled (r : Round) : polledEvents r.handled = r.batch.handled := by
  unfold Round.handled
  rw [polledEvents_append]
  have hmap : polledEvents (r.batch.handled.map .polled) = r.batch.handled := by
    unfold polledEvents
    rw [filterMap_map]
    exact filterMap_some
  rw [hmap]
  cases r.second <;> simp [polledEvents]

/-- A round loses nothing exactly when one of its first 65 calls reports no event. -/
theorem round_complete_iff (r : Round) :
    r.batch.handled = r.batch.obtained ↔ ∃ k ≤ batchLimit, r.poll k = none := by
  unfold Round.batch
  rcases drainBatch_cases r.poll batchLimit 0 r.event with
    ⟨heq, k, hk, hnone⟩ | ⟨⟨e, heq⟩, hall⟩
  · rw [Nat.zero_add] at hnone
    exact ⟨fun _ => ⟨k, hk, hnone⟩, fun _ => heq⟩
  · refine ⟨fun h => ?_, fun ⟨k, hk, hnone⟩ => absurd hnone ?_⟩
    · rw [heq] at h
      have := congrArg length h
      simp at this
    · have := hall k hk
      rwa [Nat.zero_add] at this

theorem length_handled_le (r : Round) : r.batch.handled.length ≤ r.batch.obtained.length := by
  unfold Round.batch
  rcases drainBatch_cases r.poll batchLimit 0 r.event with ⟨heq, -⟩ | ⟨⟨e, heq⟩, -⟩
  · rw [heq]
  · rw [heq]
    simp

theorem length_flatMap_handled_le (rounds : List Round) :
    (rounds.flatMap fun r => r.batch.handled).length ≤ (guiObtained rounds).length := by
  induction rounds with
  | nil => exact le_refl _
  | cons r rounds ih =>
    change (r.batch.handled ++ _).length ≤ (r.batch.obtained ++ guiObtained rounds).length
    rw [length_append, length_append]
    exact Nat.add_le_add (length_handled_le r) ih

theorem polledEvents_guiRun (rounds : List Round) :
    polledEvents (guiRun rounds) = rounds.flatMap fun r => r.batch.handled := by
  induction rounds with
  | nil => rfl
  | cons r rounds ih =>
    change polledEvents (r.handled ++ guiRun rounds) = _
    rw [polledEvents_append, ih, polledEvents_handled]
    rfl

/-- **The loop passes on every event it obtains, in order and once, exactly when in every round one
of the first 65 calls of `input_poll_event` reports no event.** -/
theorem loop_handles_iff (rounds : List Round) : polledEvents (guiRun rounds) = guiObtained rounds ↔
      ∀ r ∈ rounds, ∃ k ≤ batchLimit, r.poll k = none := by
  rw [polledEvents_guiRun]
  simp only [← round_complete_iff]
  constructor
  · intro h
    induction rounds with
    | nil => exact fun r hr => absurd hr not_mem_nil
    | cons r rounds ih =>
      change r.batch.handled ++ (rounds.flatMap fun r => r.batch.handled)
        = r.batch.obtained ++ guiObtained rounds at h
      -- the lengths add up only if no round falls short
      have hle := length_handled_le r
      have hrest := length_flatMap_handled_le rounds
      have hlen := congrArg length h
      rw [length_append, length_append] at hlen
      obtain ⟨hr, htail⟩ := append_inj h (by omega)
      exact forall_mem_cons.mpr ⟨hr, ih htail⟩
  · intro h
    unfold guiObtained
    rw [flatMap_congr h]

/-- **Without interrupts a batch with at most 60 queued keys is complete**: the mouse adds four
events at most. -/
theorem batch_complete_of_quiet (s : InputState) (hkeys : s.keyboard.count ≤ 60) (r : Round)
    (hpoll : ∀ k, r.poll k = (inputPollEvent (polls s k)).1) :
    r.batch.handled = r.batch.obtained := by
  obtain ⟨k, hk, -, hnone, -⟩ := drain s
  have hle := backlog_le s
  have hlimit : k ≤ batchLimit := by
    unfold batchLimit
    omega
  exact (round_complete_iff r).mpr ⟨k, hlimit, (hpoll k).trans hnone⟩

/-! ### A batch that loses an event -/

/-- A keyboard with `n` key events queued, numbered by their keycodes. -/
def keysQueued (n : ℕ) : Keyboard :=
  (List.range n).foldl (fun k i => keyboardEventPush k ⟨UInt16.ofNat i, 97, true, 0⟩)
    ⟨fun _ => ⟨0, 0, false, 0⟩, 0, 0, by decide, by decide⟩

/-- A mouse at rest in the middle of a screen of 640 by 480 pixels. -/
def restingMouse : Mouse where
  cursorX := 320
  cursorY := 240
  boundWidth := 640
  boundHeight := 480
  leftDown := false
  rightDown := false
  middleDown := false
  clickPending := false
  clickX := 0
  clickY := 0
  wheelDelta := 0
  movementGeneration := 1
  packet := fun _ => 0
  packetIndex := 0
  packetSize := 3

/-- The state after 65 keys have arrived, and the round that reads it without further interrupts. -/
def busyInput : InputState := ⟨keysQueued 65, restingMouse, false, 320, 240, 1⟩

/-- The round of the loop that finds it. -/
def busyRound : Round :=
  ⟨fun k => (inputPollEvent (polls busyInput k)).1, ⟨.none, 0, 0, 0, 0, 0, 0, 0, 0, false, 0⟩, none⟩

/-- **The 65th key is taken from the queue and dropped.** The next round finds the queue empty. -/
theorem batch_lost : busyRound.batch.obtained.length = 65 ∧ busyRound.batch.handled.length = 64 ∧
    (polls busyInput 65).keyboard.count = 0 ∧
    polledEvents (guiRun [busyRound]) ≠ guiObtained [busyRound] := by
  decide +kernel

end MyOS.Input
