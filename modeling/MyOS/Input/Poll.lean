import MyOS.Input.Drivers

/-!
# Polling for input

`input_poll_event` reports one event a call: a key, else the wheel, else a change of the left
button, else a click that was pressed and released between two calls, else a move. `inputPollEvent`
is the function as it runs when no interrupt comes in between; `MyOS.Input.Interleave` takes it
apart.

Without further interrupts every reported event lowers `backlog`, the queued keys, one for the
wheel, and at most three for the button, a pending click and the position; and a call that reports
nothing finds everything settled (`poll_cases`). So the calls run out of events (`drain`).
-/

namespace MyOS.Input

/-- `enum gui_event_type`. -/
inductive GuiEventType where
  | none | key | mouseMove | mouseButton | mouseScroll | timerTick
deriving DecidableEq, Repr

/-- `struct gui_event`. -/
structure GuiEvent where
  type : GuiEventType
  x : Int32
  y : Int32
  dx : Int32
  dy : Int32
  wheelDelta : Int32
  key : UInt8
  keycode : UInt16
  modifiers : UInt8
  pressed : Bool
  ticks : UInt32
deriving DecidableEq, Repr

/-- The drivers, and the variables of `input.c`. -/
structure InputState where
  keyboard : Keyboard
  mouse : Mouse
  lastLeftDown : Bool
  lastMouseX : Int32
  lastMouseY : Int32
  lastMouseGeneration : UInt32

/-- What a call has read of the mouse. -/
structure Sample where
  generation : UInt32
  leftDown : Bool
  x : Int32
  y : Int32

/-- The event for a key. -/
def keyEvent (s : InputState) (k : KeyboardEvent) : GuiEvent :=
  { type := .key, x := s.lastMouseX, y := s.lastMouseY, dx := 0, dy := 0, wheelDelta := 0
    key := k.ascii, keycode := k.keycode, modifiers := k.modifiers,
    pressed := k.pressed, ticks := 0 }

/-- The event for the wheel. -/
def scrollEvent (p : Sample) (wheel : Int32) : GuiEvent :=
  { type := .mouseScroll, x := p.x, y := p.y, dx := 0, dy := 0, wheelDelta := wheel
    key := 0, keycode := 0, modifiers := 0, pressed := p.leftDown, ticks := 0 }

/-- The event for a button or a move. -/
def pointerEvent (s : InputState) (type : GuiEventType) (x y : Int32) (pressed : Bool) :
    GuiEvent :=
  { type := type, x := x, y := y, dx := x - s.lastMouseX, dy := y - s.lastMouseY, wheelDelta := 0
    key := 0, keycode := 0, modifiers := 0, pressed := pressed, ticks := 0 }

/-- The position and the generation are reported. -/
def InputState.reported (s : InputState) (p : Sample) (x y : Int32) : InputState :=
  { s with lastMouseX := x, lastMouseY := y, lastMouseGeneration := p.generation }

/-- The last test of `input_poll_event`. -/
def pollMove (s : InputState) (p : Sample) : Option GuiEvent × InputState :=
  if p.generation ≠ s.lastMouseGeneration ∨ p.x ≠ s.lastMouseX ∨ p.y ≠ s.lastMouseY then
    (some (pointerEvent s .mouseMove p.x p.y p.leftDown), s.reported p p.x p.y)
  else (none, s)

/-- `mouse_consume_click`: the position of the click, if one is pending. -/
def mouseConsumeClick (m : Mouse) : Option (Int32 × Int32) × Mouse :=
  if m.clickPending then (some (m.clickX, m.clickY), { m with clickPending := false })
  else (none, m)

/-- What `input_poll_event` reads of the mouse. -/
def Mouse.sample (m : Mouse) : Sample := ⟨m.movementGeneration, m.leftDown, m.cursorX, m.cursorY⟩

/-- `input_poll_event` after the keyboard and the wheel. -/
def pollButton (s : InputState) (p : Sample) : Option GuiEvent × InputState :=
  if p.leftDown ≠ s.lastLeftDown then
    let mouse := if p.leftDown then s.mouse else (mouseConsumeClick s.mouse).2
    (some (pointerEvent s .mouseButton p.x p.y p.leftDown),
      { s.reported p p.x p.y with mouse := mouse, lastLeftDown := p.leftDown })
  else
    match mouseConsumeClick s.mouse with
    | (some (x, y), mouse) =>
      (some (pointerEvent s .mouseButton x y false),
        { s.reported p x y with mouse := mouse, lastLeftDown := false })
    | (none, _) => pollMove s p

/-- `mouse_consume_wheel_delta`, in the state. -/
def InputState.clearWheel (s : InputState) : InputState :=
  { s with mouse := { s.mouse with wheelDelta := 0 } }

/-- `input_poll_event` after the keyboard. -/
def pollMouse (s : InputState) : Option GuiEvent × InputState :=
  let p := s.mouse.sample
  let wheel := s.mouse.wheelDelta
  if wheel ≠ 0 then
    (some (scrollEvent p wheel), { s.clearWheel with lastMouseGeneration := p.generation })
  else pollButton s.clearWheel p

/-- `input_poll_event`. -/
def inputPollEvent (s : InputState) : Option GuiEvent × InputState :=
  match keyboardEventPop s.keyboard with
  | (some k, keyboard) => (some (keyEvent s k), { s with keyboard := keyboard })
  | (none, _) => pollMouse s

/-- The state after a number of calls. -/
def polls (s : InputState) : ℕ → InputState
  | 0 => s
  | k + 1 => polls (inputPollEvent s).2 k

/-! ### Running out of events -/

/-- The position has changed since it was last reported. -/
def InputState.Moved (s : InputState) : Prop :=
  s.mouse.movementGeneration ≠ s.lastMouseGeneration ∨ s.mouse.cursorX ≠ s.lastMouseX ∨
    s.mouse.cursorY ≠ s.lastMouseY

instance (s : InputState) : Decidable s.Moved := inferInstanceAs (Decidable (_ ∨ _))

/-- The events that the button, a pending click and the position still cause. A click that is
reported while the button is down has to be followed by the press, and one that is reported late
leaves the position behind. -/
def InputState.pointerBacklog (s : InputState) : ℕ :=
  if s.mouse.clickPending then
    if s.mouse.leftDown = s.lastLeftDown then 2 else if s.mouse.leftDown then 3 else 1
  else if s.mouse.leftDown ≠ s.lastLeftDown ∨ s.Moved then 1 else 0

/-- The events that are still to be reported. -/
def InputState.backlog (s : InputState) : ℕ :=
  s.keyboard.count + (if s.mouse.wheelDelta ≠ 0 then 1 else 0) + s.pointerBacklog

theorem backlog_le (s : InputState) : s.backlog ≤ s.keyboard.count + 4 := by
  have hpointer : s.pointerBacklog ≤ 3 := by
    unfold InputState.pointerBacklog
    split_ifs <;> omega
  unfold InputState.backlog
  split <;> omega

/-- Everything the mouse did has been reported. -/
structure InputState.Settled (s : InputState) : Prop where
  button : s.lastLeftDown = s.mouse.leftDown
  x : s.lastMouseX = s.mouse.cursorX
  y : s.lastMouseY = s.mouse.cursorY
  click : s.mouse.clickPending = false
  wheel : s.mouse.wheelDelta = 0

/-- Nothing is left for the pointer exactly when all of it has been reported. -/
theorem pointerBacklog_eq_zero {s : InputState} (h : s.pointerBacklog = 0) :
    s.mouse.clickPending = false ∧ s.mouse.leftDown = s.lastLeftDown ∧ ¬ s.Moved := by
  unfold InputState.pointerBacklog at h
  cases hclick : s.mouse.clickPending with
  | true =>
    rw [hclick, if_pos rfl] at h
    split_ifs at h
  | false =>
    rw [hclick, if_neg Bool.false_ne_true] at h
    split_ifs at h with hor
    rw [not_or, not_not] at hor
    exact ⟨rfl, hor⟩

/-- After the wheel: an event is reported and less is left, or nothing was left. The cases are the
states of the button, of its last report and of the pending click. -/
theorem pollButton_cases (s : InputState) : ((pollButton s s.mouse.sample).1.isSome = true ∧
      (pollButton s s.mouse.sample).2.pointerBacklog < s.pointerBacklog) ∨
    (pollButton s s.mouse.sample = (none, s) ∧ s.pointerBacklog = 0) := by
  obtain ⟨keyboard, ⟨cx, cy, bw, bh, left, right, middle, click, clickX, clickY, wheel, generation,
    packet, index, size⟩, last, lx, ly, lg⟩ := s
  cases click <;> cases left <;> cases last <;>
    simp only [pollButton, pollMove, mouseConsumeClick, Mouse.sample, InputState.reported,
      InputState.pointerBacklog, InputState.Moved, ne_eq, Bool.false_eq_true, Bool.true_eq_false,
      not_true, not_false_eq_true, if_true, if_false, false_or, true_or, or_self]
  all_goals try split_ifs
  all_goals simp_all

/-- What is left for the pointer depends on the position only through `Moved`. -/
theorem pointerBacklog_mono {s t : InputState}
    (hclick : t.mouse.clickPending = s.mouse.clickPending)
    (hleft : t.mouse.leftDown = s.mouse.leftDown) (hlast : t.lastLeftDown = s.lastLeftDown)
    (hmoved : t.Moved → s.Moved) : t.pointerBacklog ≤ s.pointerBacklog := by
  unfold InputState.pointerBacklog
  rw [hclick, hleft, hlast]
  by_cases ht : t.Moved
  · have hs := hmoved ht
    simp [ht, hs]
  · split_ifs <;> simp_all

/-- Clearing an empty delta changes nothing. -/
theorem clearWheel_eq {s : InputState} (h : s.mouse.wheelDelta = 0) : s.clearWheel = s := by
  obtain ⟨keyboard, mouse, last, lx, ly, lg⟩ := s
  obtain ⟨cx, cy, bw, bh, left, right, middle, click, clickX, clickY, wheel, generation, packet,
    index, size⟩ := mouse
  obtain rfl : wheel = 0 := h
  rfl

theorem pollButton_keeps (s : InputState) (p : Sample) : (pollButton s p).2.keyboard = s.keyboard ∧
    (pollButton s p).2.mouse.wheelDelta = s.mouse.wheelDelta := by
  unfold pollButton pollMove mouseConsumeClick
  split_ifs <;> exact ⟨rfl, rfl⟩

/-- A call that finds no key. -/
theorem pollMouse_cases (s : InputState) :
    ((pollMouse s).1.isSome = true ∧ (pollMouse s).2.backlog < s.backlog) ∨
    ((pollMouse s).1 = none ∧ (pollMouse s).2.Settled) := by
  unfold pollMouse
  by_cases hwheel : s.mouse.wheelDelta = 0
  · rw [if_neg (not_not.mpr hwheel), clearWheel_eq hwheel]
    obtain ⟨hkeyboard, hdelta⟩ := pollButton_keeps s s.mouse.sample
    rcases pollButton_cases s with ⟨hsome, hlt⟩ | ⟨hnone, hzero⟩
    · left
      refine ⟨hsome, ?_⟩
      unfold InputState.backlog
      rw [hkeyboard, hdelta]
      omega
    · right
      rw [hnone]
      obtain ⟨hclick, hleft, hmoved⟩ := pointerBacklog_eq_zero hzero
      unfold InputState.Moved at hmoved
      push Not at hmoved
      exact ⟨rfl, hleft.symm, hmoved.2.1.symm, hmoved.2.2.symm, hclick, hwheel⟩
  · left
    rw [if_pos hwheel]
    refine ⟨rfl, ?_⟩
    -- the generation is reported too, which at most makes a move unnecessary
    have hpointer : InputState.pointerBacklog { s.clearWheel with
        lastMouseGeneration := s.mouse.sample.generation } ≤ s.pointerBacklog := by
      refine pointerBacklog_mono rfl rfl rfl ?_
      rintro (h | h | h)
      · exact absurd rfl h
      · exact .inr (.inl h)
      · exact .inr (.inr h)
    have hafter : InputState.backlog { s.clearWheel with
        lastMouseGeneration := s.mouse.sample.generation } ≤ s.keyboard.count + s.pointerBacklog :=
      Nat.add_le_add_left hpointer _
    have hbefore : s.backlog = s.keyboard.count + 1 + s.pointerBacklog := by
      unfold InputState.backlog
      rw [if_pos hwheel]
    rw [hbefore]
    exact lt_of_le_of_lt hafter (by omega)

/-- **A call that reports an event leaves less to report, and one that reports nothing finds
everything settled.** -/
theorem poll_cases (s : InputState) :
    ((inputPollEvent s).1.isSome = true ∧ (inputPollEvent s).2.backlog < s.backlog) ∨
    ((inputPollEvent s).1 = none ∧ (inputPollEvent s).2.Settled) := by
  unfold inputPollEvent keyboardEventPop
  by_cases hkeys : s.keyboard.count = 0
  · rw [RingBuffer.pop_nil hkeys]
    exact pollMouse_cases s
  · left
    have hcount := RingBuffer.count_pop hkeys
    cases hlist : s.keyboard.toList with
    | nil => exact absurd (by rw [← RingBuffer.length_toList, hlist]; rfl) hkeys
    | cons k l =>
      have hpop : s.keyboard.pop = (some k, s.keyboard.pop.2) :=
        Prod.ext (RingBuffer.pop_cons hlist).1 rfl
      rw [hpop]
      refine ⟨rfl, ?_⟩
      change s.keyboard.pop.2.count + (if s.mouse.wheelDelta ≠ 0 then 1 else 0) + s.pointerBacklog
        < s.backlog
      unfold InputState.backlog
      omega

/-- **The calls run out of events**, and then everything is settled. -/
theorem drain (s : InputState) : ∃ k ≤ s.backlog,
    (∀ j < k, (inputPollEvent (polls s j)).1.isSome = true) ∧
    (inputPollEvent (polls s k)).1 = none ∧ (polls s (k + 1)).Settled := by
  generalize hn : s.backlog = n
  induction n using Nat.strongRecOn generalizing s with
  | ind n ih =>
    rcases poll_cases s with ⟨hsome, hlt⟩ | ⟨hnone, hsettled⟩
    · obtain ⟨k, hk, hbefore, hend⟩ := ih _ (hn ▸ hlt) (inputPollEvent s).2 rfl
      refine ⟨k + 1, by omega, fun j hj => ?_, hend⟩
      cases j with
      | zero => exact hsome
      | succ j => exact hbefore j (by omega)
    · exact ⟨0, Nat.zero_le _, fun j hj => absurd hj (Nat.not_lt_zero j), hnone, hsettled⟩

end MyOS.Input
