import MyOS.Input.Poll

/-!
# Polling under interrupts

Interrupts are enabled while `input_poll_event` runs, so bytes of mouse packets and key events can
arrive between any two of its accesses to the drivers. `Machine` is a call in progress: each
`advance` makes one access, and the other steps are interrupts. `Quiet` says what comes of accesses
without interrupts: a call is then `inputPollEvent` (`quiet_call`), and a call that was interrupted
returns from any phase (`quiet_return`).

Button events alternate because a press is only reported when the last report was a release
(`Held`). A release of the button leaves a click pending, and from then on (`Owed`) a call ends with
a key, a wheel event or the release that is due. With the drain of `MyOS.Input.Poll` this is
`mouse_events_converge`.
-/

namespace MyOS.Input

open List

/-- Where a call of `input_poll_event` stands, with its local variables. -/
inductive Phase where
  | idle
  | generation
  | leftDown (generation : UInt32)
  | cursorX (generation : UInt32) (leftDown : Bool)
  | cursorY (generation : UInt32) (leftDown : Bool) (x : Int32)
  | wheel (p : Sample)
  | wheelClear (p : Sample) (delta : Int32)
  /-- `mouse_consume_click` on the way to the report of a release. -/
  | dropTest (p : Sample) (up : p.leftDown = false)
  | dropClear (p : Sample) (up : p.leftDown = false)
  /-- `mouse_consume_click` when the button has not changed. -/
  | clickTest (p : Sample)
  | clickClear (p : Sample)
  | clickX (p : Sample)
  | clickY (p : Sample) (x : Int32)

/-- The input state with a call in progress. -/
structure Machine where
  input : InputState
  phase : Phase

/-- The call goes on. -/
def Machine.go (m : Machine) (phase : Phase) : Option (Option GuiEvent) × Machine :=
  (none, { m with phase := phase })

/-- The call returns. -/
def returns (r : Option GuiEvent × InputState) : Option (Option GuiEvent) × Machine :=
  (some r.1, ⟨r.2, .idle⟩)

/-- The report of a change of the button. -/
def reportButton (s : InputState) (p : Sample) : Option GuiEvent × InputState :=
  (some (pointerEvent s .mouseButton p.x p.y p.leftDown), s.reported p p.x p.y)

/-- The next access of the call, and its result if it returns. -/
def Machine.advance (m : Machine) : Option (Option GuiEvent) × Machine :=
  let s := m.input
  match m.phase with
  | .idle =>
    match keyboardEventPop s.keyboard with
    | (some k, keyboard) => returns (some (keyEvent s k), { s with keyboard := keyboard })
    | (none, _) => m.go .generation
  | .generation => m.go (.leftDown s.mouse.movementGeneration)
  | .leftDown generation => m.go (.cursorX generation s.mouse.leftDown)
  | .cursorX generation leftDown => m.go (.cursorY generation leftDown s.mouse.cursorX)
  | .cursorY generation leftDown x => m.go (.wheel ⟨generation, leftDown, x, s.mouse.cursorY⟩)
  | .wheel p => m.go (.wheelClear p s.mouse.wheelDelta)
  | .wheelClear p delta =>
    let s := s.clearWheel
    if delta ≠ 0 then
      returns (some (scrollEvent p delta), { s with lastMouseGeneration := p.generation })
    else if p.leftDown ≠ s.lastLeftDown then
      let s := { s with lastLeftDown := p.leftDown, lastMouseGeneration := p.generation }
      if h : p.leftDown = false then Machine.go ⟨s, m.phase⟩ (.dropTest p h)
      else returns (reportButton s p)
    else Machine.go ⟨s, m.phase⟩ (.clickTest p)
  | .dropTest p up =>
    if s.mouse.clickPending then m.go (.dropClear p up) else returns (reportButton s p)
  | .dropClear p _ =>
    returns (reportButton { s with mouse := { s.mouse with clickPending := false } } p)
  | .clickTest p => if s.mouse.clickPending then m.go (.clickClear p) else returns (pollMove s p)
  | .clickClear p =>
    Machine.go ⟨{ s with mouse := { s.mouse with clickPending := false } }, m.phase⟩ (.clickX p)
  | .clickX p => m.go (.clickY p s.mouse.clickX)
  | .clickY p x =>
    let y := s.mouse.clickY
    returns (some (pointerEvent s .mouseButton x y false),
      { s.reported p x y with lastLeftDown := false })

/-- A step: an interrupt of the mouse or of the keyboard, or the next access of the call. -/
inductive Step where
  | byte (data : UInt8)
  | key (e : KeyboardEvent)
  | advance

/-- One step, and the result of the call if it returns. -/
def Machine.step (m : Machine) : Step → Option (Option GuiEvent) × Machine
  | .byte data =>
    (none, { m with input := { m.input with mouse := mouseHandleInterrupt m.input.mouse data } })
  | .key e =>
    (none, { m with input := { m.input with keyboard := keyboardEventPush m.input.keyboard e } })
  | .advance => m.advance

/-- The state after a sequence of steps. -/
def run (m : Machine) (steps : List Step) : Machine := steps.foldl (fun m st => (m.step st).2) m

/-- The results of the calls that return in a sequence of steps. -/
def results : Machine → List Step → List (Option GuiEvent)
  | _, [] => []
  | m, st :: steps => (m.step st).1.toList ++ results (m.step st).2 steps

theorem run_append (m : Machine) (l l' : List Step) : run m (l ++ l') = run (run m l) l' :=
  foldl_append

theorem results_append (m : Machine) (l l' : List Step) :
    results m (l ++ l') = results m l ++ results (run m l) l' := by
  induction l generalizing m with
  | nil => rfl
  | cons st l ih =>
    rw [cons_append, results, results, ih, append_assoc]
    rfl

/-! ### Without interrupts -/

/-- Without interrupts the next `n` accesses give the results `l` and lead to `m'`. -/
def Quiet (n : ℕ) (m : Machine) (l : List (Option GuiEvent)) (m' : Machine) : Prop :=
  results m (replicate n .advance) = l ∧ run m (replicate n .advance) = m'

section Quiet

variable {m m' m'' : Machine} {l l' : List (Option GuiEvent)} {n n' : ℕ}

theorem Quiet.trans (h : Quiet n m l m') (h' : Quiet n' m' l' m'') :
    Quiet (n + n') m (l ++ l') m'' := by
  obtain ⟨hres, hrun⟩ := h
  rw [Quiet, replicate_add, results_append, run_append, hres, hrun, h'.1]
  exact ⟨rfl, h'.2⟩

theorem Quiet.advance {o : Option (Option GuiEvent)} (h : m.advance = (o, m')) :
    Quiet 1 m o.toList m' := by
  have hstep : m.step .advance = (o, m') := h
  constructor
  · rw [replicate_one, results, hstep]
    exact append_nil _
  · rw [replicate_one, run, foldl_cons, hstep]
    rfl

/-- A bound on the accesses that a call in this phase still makes. -/
def Phase.left : Phase → ℕ
  | .idle => 0
  | .generation => 10
  | .leftDown _ => 9
  | .cursorX _ _ => 8
  | .cursorY _ _ _ => 7
  | .wheel _ => 6
  | .wheelClear _ _ => 5
  | .clickTest _ | .dropTest _ _ => 4
  | .clickClear _ | .dropClear _ _ => 3
  | .clickX _ => 2
  | .clickY _ _ => 1

end Quiet

/-! ### Presses and releases -/

/-- The result is a press. -/
def IsPress (r : Option GuiEvent) : Prop :=
  ∃ e, r = some e ∧ e.type = .mouseButton ∧ e.pressed = true

/-- The result is a release. -/
def IsRelease (r : Option GuiEvent) : Prop :=
  ∃ e, r = some e ∧ e.type = .mouseButton ∧ e.pressed = false

/-- The result is a key or a wheel event. -/
def IsKeyOrScroll (r : Option GuiEvent) : Prop :=
  ∃ e, r = some e ∧ (e.type = .key ∨ e.type = .mouseScroll)

/-- The call is about to report a release that it has already noted. -/
def Phase.Dropping : Phase → Prop
  | .dropTest _ _ => True
  | .dropClear _ _ => True
  | _ => False

/-- The call is about to report a click. -/
def Phase.Clicking : Phase → Prop
  | .clickClear _ => True
  | .clickX _ => True
  | .clickY _ _ => True
  | _ => False

/-- What a step does to the button: which of its reports it makes, and what it leaves alone. -/
inductive Does (m : Machine) : Option (Option GuiEvent) × Machine → Prop
  /-- Nothing is reported yet. A click stays pending unless it is about to be reported. -/
  | goes {m' : Machine} (last : m'.input.lastLeftDown = m.input.lastLeftDown)
      (click : m.input.mouse.clickPending = true →
        m'.input.mouse.clickPending = true ∨ m'.phase.Clicking)
      (drop : m.phase.Dropping → m'.phase.Dropping)
      (clicking : m.phase.Clicking → m'.phase.Clicking) : Does m (none, m')
  | notesRelease {m' : Machine} (drop : m'.phase.Dropping) : Does m (none, m')
  | keyOrScroll {r : Option GuiEvent} {m' : Machine} (hr : IsKeyOrScroll r)
      (last : m'.input.lastLeftDown = m.input.lastLeftDown)
      (click : m'.input.mouse.clickPending = m.input.mouse.clickPending)
      (drop : ¬ m.phase.Dropping) (clicking : ¬ m.phase.Clicking) : Does m (some r, m')
  | press {r : Option GuiEvent} {m' : Machine} (hr : IsPress r)
      (before : m.input.lastLeftDown = false) (after : m'.input.lastLeftDown = true)
      (drop : ¬ m.phase.Dropping) (clicking : ¬ m.phase.Clicking) : Does m (some r, m')
  | release {r : Option GuiEvent} {m' : Machine} (hr : IsRelease r) : Does m (some r, m')
  /-- A move, or no event at all. -/
  | other {r : Option GuiEvent} {m' : Machine} (hr : ∀ e, r = some e → e.type ≠ .mouseButton)
      (last : m'.input.lastLeftDown = m.input.lastLeftDown)
      (click : m.input.mouse.clickPending = false)
      (drop : ¬ m.phase.Dropping) (clicking : ¬ m.phase.Clicking) : Does m (some r, m')

theorem pollMove_type (s : InputState) (p : Sample) :
    ∀ e, (pollMove s p).1 = some e → e.type ≠ .mouseButton := by
  intro e he
  unfold pollMove at he
  split at he
  · rw [← Option.some.inj he]
    exact (by decide : GuiEventType.mouseMove ≠ .mouseButton)
  · cases he

theorem pollMove_lastLeftDown (s : InputState) (p : Sample) :
    (pollMove s p).2.lastLeftDown = s.lastLeftDown := by
  unfold pollMove
  split <;> rfl

/-- The next access of a call. -/
theorem advance_does (m : Machine) : Does m m.advance := by
  obtain ⟨s, phase⟩ := m
  -- most phases read one field of the driver into a local variable
  cases phase with
  | idle =>
    unfold Machine.advance
    dsimp only
    split
    · -- a key ends the call before the mouse is looked at
      exact .keyOrScroll ⟨_, rfl, .inl rfl⟩ rfl rfl id id
    · exact .goes rfl .inl id id
  | generation | leftDown | cursorX | cursorY | wheel | clickX => exact .goes rfl .inl id id
  | wheelClear p delta =>
    unfold Machine.advance
    dsimp only
    split
    · exact .keyOrScroll ⟨_, rfl, .inr rfl⟩ rfl rfl id id
    · split
      · rename_i hchange
        split
        · exact .notesRelease trivial
        · -- the button is down and was reported up
          rename_i hdown
          rw [Bool.not_eq_false] at hdown
          refine .press ⟨_, rfl, rfl, hdown⟩ ?_ hdown id id
          cases hlast : s.lastLeftDown with
          | false => rfl
          | true => exact absurd (hdown.trans hlast.symm) hchange
      · exact .goes rfl .inl id id
  | dropTest p up =>
    unfold Machine.advance
    dsimp only
    split
    · exact .goes rfl .inl id id
    · exact .release ⟨_, rfl, rfl, up⟩
  | dropClear p up => exact .release ⟨_, rfl, rfl, up⟩
  | clickTest p =>
    unfold Machine.advance
    dsimp only
    split
    · exact .goes rfl .inl id fun _ => trivial
    · rename_i hclick
      rw [Bool.not_eq_true] at hclick
      exact .other (pollMove_type s p) (pollMove_lastLeftDown s p) hclick id id
  | clickClear p => exact .goes rfl (fun _ => .inr trivial) id id
  | clickY p x => exact .release ⟨_, rfl, rfl, rfl⟩

/-- **What a step does.** Interrupts report nothing and take no click back. -/
theorem step_does (m : Machine) (st : Step) : Does m (m.step st) := by
  cases st with
  | byte data => exact .goes rfl (fun h => .inl (mouseHandleInterrupt_click h)) id id
  | key e => exact .goes rfl .inl id id
  | advance => exact advance_does m

/-- The last report of the button was a press, or the report of a release is on its way. -/
def Machine.Held (m : Machine) : Prop := m.input.lastLeftDown = true ∨ m.phase.Dropping

/-- A release has to be reported next. -/
def Machine.Owed (m : Machine) : Prop :=
  (m.input.lastLeftDown = true ∧ m.input.mouse.clickPending = true) ∨ m.phase.Dropping ∨
    m.phase.Clicking

variable {r : Option GuiEvent}

theorem IsRelease.not_press (h : IsRelease r) : ¬ IsPress r := by
  rintro ⟨e, he, -, hp⟩
  obtain ⟨e', he', -, hp'⟩ := h
  obtain rfl := Option.some.inj (he.symm.trans he')
  exact nomatch hp.symm.trans hp'

theorem IsKeyOrScroll.not_button (h : IsKeyOrScroll r) :
    ∀ e, r = some e → e.type ≠ .mouseButton := by
  rintro e he htype
  obtain ⟨e', he', ht⟩ := h
  obtain rfl := Option.some.inj (he.symm.trans he')
  rcases ht with ht | ht <;> exact nomatch ht.symm.trans htype

theorem not_press_of_type (h : ∀ e, r = some e → e.type ≠ .mouseButton) :
    ¬ IsPress r := by
  rintro ⟨e, he, htype, -⟩
  exact h e he htype

section Steps

variable {m m' : Machine} {r : Option GuiEvent} {out : Option (Option GuiEvent)}

/-- **While the button is held** a step reports a release, or no press. -/
theorem Machine.Held.does (hm : m.Held) (h : Does m (out, m')) :
    (∃ r, out = some r ∧ IsRelease r) ∨ (m'.Held ∧ ∀ r, out = some r → ¬ IsPress r) := by
  cases h with
  | goes last click drop =>
    exact .inr ⟨hm.imp (fun hl => last.trans hl) drop, nofun⟩
  | notesRelease drop => exact .inr ⟨.inr drop, nofun⟩
  | keyOrScroll hk last _ drop =>
    refine .inr ⟨.inl (last.trans (hm.resolve_right drop)), fun r hr => ?_⟩
    rw [← Option.some.inj hr]
    exact not_press_of_type hk.not_button
  | press _ before _ drop =>
    exact nomatch before.symm.trans (hm.resolve_right drop)
  | release hrel => exact .inl ⟨_, rfl, hrel⟩
  | other ho last _ drop =>
    refine .inr ⟨.inl (last.trans (hm.resolve_right drop)), fun r hr => ?_⟩
    rw [← Option.some.inj hr]
    exact not_press_of_type ho

/-- **While a release is owed** a step reports it, or a key or the wheel. -/
theorem Machine.Owed.does (hm : m.Owed) (h : Does m (out, m')) :
    (∃ r, out = some r ∧ IsRelease r) ∨ (m'.Owed ∧ ∀ r, out = some r → IsKeyOrScroll r) := by
  cases h with
  | goes last click drop clicking =>
    refine .inr ⟨?_, nofun⟩
    rcases hm with ⟨hl, hc⟩ | hd | hc
    · exact (click hc).elim (fun h' => .inl ⟨last.trans hl, h'⟩) fun h' => .inr (.inr h')
    · exact .inr (.inl (drop hd))
    · exact .inr (.inr (clicking hc))
  | notesRelease drop => exact .inr ⟨.inr (.inl drop), nofun⟩
  | keyOrScroll hk last click drop clicking =>
    obtain ⟨hl, hc⟩ := hm.resolve_right fun hor => hor.elim drop clicking
    refine .inr ⟨.inl ⟨last.trans hl, click.trans hc⟩, fun r hr => ?_⟩
    rw [← Option.some.inj hr]
    exact hk
  | press _ before _ drop clicking =>
    obtain ⟨hl, -⟩ := hm.resolve_right fun hor => hor.elim drop clicking
    exact nomatch before.symm.trans hl
  | release hrel => exact .inl ⟨_, rfl, hrel⟩
  | other _ _ click drop clicking =>
    obtain ⟨-, hc⟩ := hm.resolve_right fun hor => hor.elim drop clicking
    exact nomatch click.symm.trans hc

end Steps

/-! ### Whole runs -/

section Runs

variable {m : Machine} {steps : List Step} {l1 l2 : List (Option GuiEvent)} {r : Option GuiEvent}

/-- The results of a run begin with the result of its first step. -/
theorem results_cons (st : Step) : results m (st :: steps)
    = (m.step st).1.toList ++ results (m.step st).2 steps := rfl

/-- What holds of the results as long as no release is reported, when every step keeps `P`. -/
theorem results_until_release {P : Machine → Prop} {Q : Option GuiEvent → Prop}
    (hstep : ∀ {m m' out}, P m → Does m (out, m') →
      (∃ r, out = some r ∧ IsRelease r) ∨ (P m' ∧ ∀ r, out = some r → Q r))
    (hm : P m) (h : results m steps = l1 ++ r :: l2) (hno : ∀ x ∈ l1, ¬ IsRelease x) :
    Q r ∨ IsRelease r := by
  induction steps generalizing m l1 with
  | nil => exact absurd h (by simp [results])
  | cons st steps ih =>
    have hdoes := step_does m st
    rcases hout : m.step st with ⟨out, m'⟩
    rw [hout] at hdoes
    rw [results_cons, hout] at h
    cases out with
    | none =>
      rcases hstep hm hdoes with ⟨_, hx, -⟩ | ⟨hm', -⟩
      · cases hx
      · exact ih hm' h hno
    | some x =>
      cases l1 with
      | nil =>
        obtain rfl := (List.cons.inj h).1
        rcases hstep hm hdoes with ⟨y, hy, hrel⟩ | ⟨-, hq⟩
        · exact .inr (Option.some.inj hy ▸ hrel)
        · exact .inl (hq _ rfl)
      | cons y l1 =>
        obtain ⟨rfl, hrest⟩ := List.cons.inj h
        rcases hstep hm hdoes with ⟨z, hz, hrel⟩ | ⟨hm', -⟩
        · rw [← Option.some.inj hz] at hrel
          exact absurd hrel (hno x mem_cons_self)
        · exact ih hm' hrest fun z hz => hno z (mem_cons_of_mem _ hz)

/-- **While the button is held, a press is preceded by a release.** -/
theorem Machine.Held.results (hm : m.Held) (h : results m steps = l1 ++ r :: l2) (hr : IsPress r) :
    ∃ x ∈ l1, IsRelease x := by
  by_contra hnone
  push Not at hnone
  rcases results_until_release (fun hm => Held.does hm) hm h hnone with hno | hrel
  · exact hno hr
  · exact hrel.not_press hr

/-- **While a release is owed** the results up to it are keys and the wheel. -/
theorem Machine.Owed.results (hm : m.Owed) (h : Input.results m steps = l1 ++ r :: l2)
    (hno : ∀ x ∈ l1, ¬ IsRelease x) : IsKeyOrScroll r ∨ IsRelease r :=
  results_until_release (fun hm => Owed.does hm) hm h hno

/-- The button stays held as long as no release is reported. -/
theorem Machine.Held.run (hm : m.Held) (hno : ∀ x ∈ Input.results m steps, ¬ IsRelease x) :
    (Input.run m steps).Held := by
  induction steps generalizing m with
  | nil => exact hm
  | cons st steps ih =>
    have hdoes := step_does m st
    rw [results_cons] at hno
    change (Input.run (m.step st).2 steps).Held
    rcases hstep : m.step st with ⟨out, m'⟩
    rw [hstep] at hdoes hno
    rcases hm.does hdoes with ⟨x, rfl, hrel⟩ | ⟨hheld, -⟩
    · exact absurd hrel (hno x (mem_append_left _ (by simp)))
    · exact ih hheld fun x hx => hno x (mem_append_right _ hx)

end Runs

end MyOS.Input
