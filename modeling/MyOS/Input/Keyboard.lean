import MyOS.Input.Queue
import MyOS.Lib.Lockstep

/-!
# The keyboard interrupt

`keyboard_handle_interrupt` of `keyboard.c`: scancode set 1, one byte per interrupt. Every byte but
the marker `0xE0` of an extended code pushes exactly one event (`decodeScancode_report`), with the
modifiers as they are after the byte.

`HeldKeys` is what a stream of scancodes says about the keyboard itself: which of the two shift keys
is down, and whether caps lock is on. An extended `0x2A` or `0x36` is not a shift key; keyboards
send it around the keys of the cursor block. The driver keeps one flag for both shift keys and does
not look at the marker, so the flag follows the keys only along some streams.

The argument is a simulation. `Matches` relates the driver's flags to the keys, a byte is reported
correctly from matching states exactly when it is `Regular` (`follows_iff`), and a regular byte
leads to matching states again (`Matches.next`). So the first byte that is not regular is reported
wrongly, and the characterisation over whole streams (`modifiers_follow_iff`) is exact.
-/

namespace MyOS.Input

/-! ### The tables -/

/-- `scancode_ascii`, without the zeros at its end. -/
def scancodeAsciiTable : List Char :=
  ['\x00', '\x1b', '1', '2', '3', '4', '5', '6',
    '7', '8', '9', '0', '-', '=', '\x08', '\t',
    'q', 'w', 'e', 'r', 't', 'y', 'u', 'i',
    'o', 'p', '[', ']', '\n', '\x00', 'a', 's',
    'd', 'f', 'g', 'h', 'j', 'k', 'l', ';',
    '\x27', '\x60', '\x00', '\\', 'z', 'x', 'c', 'v',
    'b', 'n', 'm', ',', '.', '/', '\x00', '*',
    '\x00', ' ', '\x00', '\x00']

/-- `scancode_ascii_shift`, without the zeros at its end. -/
def scancodeAsciiShiftTable : List Char :=
  ['\x00', '\x1b', '!', '@', '#', '$', '%', '^',
    '&', '*', '(', ')', '_', '+', '\x08', '\t',
    'Q', 'W', 'E', 'R', 'T', 'Y', 'U', 'I',
    'O', 'P', '\x7b', '\x7d', '\n', '\x00', 'A', 'S',
    'D', 'F', 'G', 'H', 'J', 'K', 'L', ':',
    '\x22', '~', '\x00', '|', 'Z', 'X', 'C', 'V',
    'B', 'N', 'M', '<', '>', '?', '\x00', '*',
    '\x00', ' ', '\x00', '\x00']

/-- `scancode_ascii[code]`. -/
def scancodeAscii (code : UInt8) : UInt8 :=
  UInt8.ofNat (scancodeAsciiTable.getD code.toNat '\x00').toNat

/-- `scancode_ascii_shift[code]`. -/
def scancodeAsciiShift (code : UInt8) : UInt8 :=
  UInt8.ofNat (scancodeAsciiShiftTable.getD code.toNat '\x00').toNat

/-- `is_letter`. -/
def isLetter (c : UInt8) : Bool := decide (97 ≤ c) && decide (c ≤ 122)

/-- The `GUI_KEY_*` that a code is reported as, with the state of the control key. -/
def guiKey (ctrlDown : Bool) (code : UInt8) : Option UInt8 :=
  if code = 0x49 then some 22
  else if code = 0x51 then some 23
  else if code = 0x48 then some 24
  else if code = 0x50 then some 25
  else if code = 0x3B then some 16
  else if code = 0x3C then some 17
  else if code = 0x3D then some 18
  else if code = 0x3E then some 19
  else if code = 0x3F then some 20
  else if ctrlDown ∧ code = 0x1F then some 21
  else none

/-! ### The driver -/

/-- The flags of `keyboard.c`. -/
structure KeyFlags where
  shiftDown : Bool
  ctrlDown : Bool
  altDown : Bool
  capsLock : Bool
  extendedScancode : Bool
deriving DecidableEq, Repr

/-- `KEYBOARD_MOD_SHIFT`. -/
def keyboardModShift : UInt8 := 0x01

/-- `current_modifiers`. -/
def currentModifiers (f : KeyFlags) : UInt8 :=
  (if f.shiftDown then keyboardModShift else 0) ||| (if f.ctrlDown then 0x02 else 0) |||
    (if f.altDown then 0x04 else 0) ||| (if f.capsLock then 0x08 else 0)

/-- What one interrupt pushes: an event, and for some keys a character. -/
structure KeyReport where
  event : KeyboardEvent
  char : Option UInt8
deriving DecidableEq, Repr

/-- The event of `keyboard_event_push(keycode, ascii, pressed)`, after `keyboard_buffer_push(char)`
if there is a character. -/
def KeyFlags.report (f : KeyFlags) (keycode : UInt16) (ascii : UInt8) (pressed : Bool)
    (char : Option UInt8) : KeyReport :=
  ⟨⟨keycode, ascii, pressed, currentModifiers f⟩, char⟩

/-- `(scancode & 0x80) != 0`. -/
def isRelease (scancode : UInt8) : Bool := scancode &&& 0x80 != 0

/-- `(uint8_t) (scancode & 0x7F)`. -/
def codeOf (scancode : UInt8) : UInt8 := scancode &&& 0x7F

/-- The part of `keyboard_handle_interrupt` for a press that changes no flag. -/
def decodePress (f : KeyFlags) (keycode : UInt16) (code : UInt8) : KeyReport :=
  match guiKey f.ctrlDown code with
  | some key => f.report keycode key true (some key)
  | none =>
    let c := if f.shiftDown then scancodeAsciiShift code else scancodeAscii code
    if c = 0 then f.report keycode 0 true none
    else
      let c := if isLetter (scancodeAscii code) ∧ f.capsLock ≠ f.shiftDown then
          scancodeAscii code - 97 + 65 else c
      f.report keycode c true (some c)

/-- `keyboard_handle_interrupt` without its queues: the flags after a scancode, and what is
pushed. -/
def decodeScancode (f : KeyFlags) (scancode : UInt8) : KeyFlags × Option KeyReport :=
  if scancode = 0xE0 then ({ f with extendedScancode := true }, none)
  else
    let release := isRelease scancode
    let code := codeOf scancode
    let keycode : UInt16 :=
      if f.extendedScancode then 0xE000 ||| code.toUInt16 else code.toUInt16
    let f := { f with extendedScancode := false }
    if code = 0x2A ∨ code = 0x36 then
      let f := { f with shiftDown := !release }
      (f, some (f.report keycode 0 (!release) none))
    else if code = 0x1D then
      let f := { f with ctrlDown := !release }
      (f, some (f.report keycode 0 (!release) none))
    else if code = 0x38 then
      let f := { f with altDown := !release }
      (f, some (f.report keycode 0 (!release) none))
    else if release then (f, some (f.report keycode 0 false none))
    else if code = 0x3A then
      let f := { f with capsLock := !f.capsLock }
      (f, some (f.report keycode 0 true none))
    else (f, some (decodePress f keycode code))

/-- `KEYBOARD_BUFFER_SIZE`. -/
abbrev keyboardBufferSize : ℕ := 128

/-- The variables of `keyboard.c`: the flags, the character queue and the event queue. -/
structure KeyboardDriver where
  flags : KeyFlags
  keys : RingBuffer UInt8 keyboardBufferSize
  events : Keyboard

/-- `keyboard_handle_interrupt`, for the byte it reads from the data port. -/
def keyboardHandleInterrupt (d : KeyboardDriver) (scancode : UInt8) : KeyboardDriver :=
  let (flags, report) := decodeScancode d.flags scancode
  match report with
  | none => { d with flags := flags }
  | some r =>
    { flags := flags
      keys := match r.char with
        | none => d.keys
        | some c => d.keys.push c
      events := keyboardEventPush d.events r.event }

/-- The driver after a stream of scancodes. -/
def keyboardRun (d : KeyboardDriver) (stream : List UInt8) : KeyboardDriver :=
  stream.foldl keyboardHandleInterrupt d

/-- The driver at boot: no flag is set. The queues may hold anything. -/
def bootKeyboard (keys : RingBuffer UInt8 keyboardBufferSize) (events : Keyboard) :
    KeyboardDriver :=
  ⟨⟨false, false, false, false, false⟩, keys, events⟩

/-! ### What a scancode does -/

theorem currentModifiers_shift (f : KeyFlags) :
    currentModifiers f &&& keyboardModShift ≠ 0 ↔ f.shiftDown = true := by
  obtain ⟨shift, ctrl, alt, caps, ext⟩ := f
  cases shift <;> cases ctrl <;> cases alt <;> cases caps <;> decide +revert

/-- The flags after a byte that is not the marker. -/
theorem decodeScancode_flags (f : KeyFlags) {s : UInt8} (hs : s ≠ 0xE0) :
    (decodeScancode f s).1 =
      { shiftDown := if codeOf s = 0x2A ∨ codeOf s = 0x36 then !isRelease s else f.shiftDown
        ctrlDown := if codeOf s = 0x1D then !isRelease s else f.ctrlDown
        altDown := if codeOf s = 0x38 then !isRelease s else f.altDown
        capsLock := if codeOf s = 0x3A ∧ isRelease s = false then !f.capsLock else f.capsLock
        extendedScancode := false } := by
  unfold decodeScancode
  rw [if_neg hs]
  dsimp only
  split_ifs <;> simp_all

theorem decodePress_modifiers (f : KeyFlags) (keycode : UInt16) (code : UInt8) :
    (decodePress f keycode code).event.modifiers = currentModifiers f := by
  unfold decodePress
  split
  · rfl
  · dsimp only
    split <;> split <;> rfl

/-- **One event for every byte but the marker**, with the modifiers as they are after the byte. -/
theorem decodeScancode_report (f : KeyFlags) {s : UInt8} (hs : s ≠ 0xE0) :
    ∃ r, (decodeScancode f s).2 = some r ∧
      r.event.modifiers = currentModifiers (decodeScancode f s).1 := by
  unfold decodeScancode
  rw [if_neg hs]
  by_cases hshift : codeOf s = 0x2A ∨ codeOf s = 0x36
  · rw [if_pos hshift]; exact ⟨_, rfl, rfl⟩
  rw [if_neg hshift]
  by_cases hctrl : codeOf s = 0x1D
  · rw [if_pos hctrl]; exact ⟨_, rfl, rfl⟩
  rw [if_neg hctrl]
  by_cases halt : codeOf s = 0x38
  · rw [if_pos halt]; exact ⟨_, rfl, rfl⟩
  rw [if_neg halt]
  by_cases hrelease : isRelease s = true
  · rw [if_pos hrelease]; exact ⟨_, rfl, rfl⟩
  rw [if_neg hrelease]
  by_cases hcaps : codeOf s = 0x3A
  · rw [if_pos hcaps]; exact ⟨_, rfl, rfl⟩
  rw [if_neg hcaps]
  exact ⟨_, rfl, decodePress_modifiers _ _ _⟩

/-! ### Letters -/

/-- The codes of the 26 letter keys: three rows of the keyboard. -/
def isLetterKey (code : UInt8) : Bool :=
  decide (0x10 ≤ code ∧ code ≤ 0x19) || decide (0x1E ≤ code ∧ code ≤ 0x26) ||
    decide (0x2C ≤ code ∧ code ≤ 0x32)

/-- An upper case letter. -/
def isUpper (c : UInt8) : Bool := decide (65 ≤ c) && decide (c ≤ 90)

/-- What the tables say about a letter key: none of the special codes is one, the plain table has
the small letter and the other one its capital. -/
structure LetterEntry (code : UInt8) : Prop where
  not_shift : ¬ (code = 0x2A ∨ code = 0x36)
  not_ctrl : code ≠ 0x1D
  not_alt : code ≠ 0x38
  not_caps : code ≠ 0x3A
  guiKey_eq : ∀ ctrl : Bool,
    guiKey ctrl code = if ctrl ∧ code = 0x1F then some 21 else none
  ne_zero : scancodeAscii code ≠ 0 ∧ scancodeAsciiShift code ≠ 0
  letter : isLetter (scancodeAscii code) = true
  plain : isUpper (scancodeAscii code) = false
  shifted : isUpper (scancodeAsciiShift code) = true
  raised : isUpper (scancodeAscii code - 97 + 65) = true

theorem letterEntry {code : UInt8} (h : isLetterKey code = true) : LetterEntry code := by
  have hcodes : ∀ n < 256, isLetterKey (UInt8.ofNat n) = true →
      ¬ (UInt8.ofNat n = 0x2A ∨ UInt8.ofNat n = 0x36) ∧ UInt8.ofNat n ≠ 0x1D ∧
      UInt8.ofNat n ≠ 0x38 ∧ UInt8.ofNat n ≠ 0x3A ∧ guiKey false (UInt8.ofNat n) = none ∧
      guiKey true (UInt8.ofNat n) = if UInt8.ofNat n = 0x1F then some 21 else none := by
    decide +kernel
  have hchars : ∀ n < 256, isLetterKey (UInt8.ofNat n) = true →
      (scancodeAscii (UInt8.ofNat n) ≠ 0 ∧ scancodeAsciiShift (UInt8.ofNat n) ≠ 0) ∧
      isLetter (scancodeAscii (UInt8.ofNat n)) = true ∧
      isUpper (scancodeAscii (UInt8.ofNat n)) = false ∧
      isUpper (scancodeAsciiShift (UInt8.ofNat n)) = true ∧
      isUpper (scancodeAscii (UInt8.ofNat n) - 97 + 65) = true := by
    decide +kernel
  have hcode := hcodes code.toNat code.toNat_lt
  have hchar := hchars code.toNat code.toNat_lt
  rw [UInt8.ofNat_toNat] at hcode hchar
  obtain ⟨hshift, hctrl, halt, hcaps, hup, hdown⟩ := hcode h
  obtain ⟨hzero, hletter, hplain, hshifted, hraised⟩ := hchar h
  refine ⟨hshift, hctrl, halt, hcaps, fun ctrl => ?_, hzero, hletter, hplain, hshifted, hraised⟩
  cases ctrl with
  | false => rw [hup, if_neg (by simp)]
  | true => rw [hdown]; simp only [true_and]

/-- **The character of a letter key**: in upper case when shift or caps lock is active, also when
both are; but control and S is reported as a key of its own. -/
theorem decodePress_letter (f : KeyFlags) (keycode : UInt16) {code : UInt8}
    (h : isLetterKey code = true) :
    ∃ c, (decodePress f keycode code).char = some c ∧
      (isUpper c = true ↔ ¬ (f.ctrlDown = true ∧ code = 0x1F) ∧
        (f.shiftDown = true ∨ f.capsLock = true)) := by
  have he := letterEntry h
  unfold decodePress
  rw [he.guiKey_eq]
  by_cases hsave : f.ctrlDown = true ∧ code = 0x1F
  · rw [if_pos hsave]
    exact ⟨21, rfl, nofun, fun h => absurd hsave h.1⟩
  · rw [if_neg hsave]
    cases hshift : f.shiftDown with
    | false =>
      simp only [Bool.false_eq_true, if_false, he.ne_zero.1, he.letter, true_and]
      cases hcaps : f.capsLock with
      | false => exact ⟨_, rfl, by simp [he.plain]⟩
      | true => exact ⟨_, rfl, by simp [he.raised, hsave]⟩
    | true =>
      simp only [if_true, he.ne_zero.2, if_false, he.letter, true_and]
      cases hcaps : f.capsLock with
      | false => exact ⟨_, rfl, by simp [he.raised, hsave]⟩
      | true => exact ⟨_, rfl, by simp [he.shifted, hsave]⟩

theorem decodeScancode_letter (f : KeyFlags) {s : UInt8} (hs : s ≠ 0xE0)
    (hrelease : isRelease s = false) (h : isLetterKey (codeOf s) = true) :
    ∃ keycode, (decodeScancode f s).2
      = some (decodePress { f with extendedScancode := false } keycode (codeOf s)) := by
  have he := letterEntry h
  unfold decodeScancode
  rw [if_neg hs]
  rw [if_neg he.not_shift, if_neg he.not_ctrl, if_neg he.not_alt, hrelease, if_neg (by decide),
    if_neg he.not_caps]
  exact ⟨_, rfl⟩

/-! ### The keys -/

/-- What a stream of scancodes says about the keyboard: the shift keys that are down, whether caps
lock is on, whether the last byte of a control key was a press, and whether the next code is an
extended one. -/
structure HeldKeys where
  leftShift : Bool
  rightShift : Bool
  capsLock : Bool
  ctrl : Bool
  extended : Bool
deriving DecidableEq, Repr

namespace HeldKeys

/-- No key is down. -/
def none : HeldKeys := ⟨false, false, false, false, false⟩

/-- At least one of the two shift keys is down. -/
def shift (k : HeldKeys) : Bool := k.leftShift || k.rightShift

/-- The keys after a scancode. Caps lock is switched by each of its presses. -/
def next (k : HeldKeys) (s : UInt8) : HeldKeys :=
  if s = 0xE0 then { k with extended := true }
  else
    { leftShift := if codeOf s = 0x2A ∧ k.extended = false then !isRelease s else k.leftShift
      rightShift := if codeOf s = 0x36 ∧ k.extended = false then !isRelease s else k.rightShift
      capsLock := if codeOf s = 0x3A ∧ isRelease s = false then !k.capsLock else k.capsLock
      ctrl := if codeOf s = 0x1D then !isRelease s else k.ctrl
      extended := false }

/-- The keys after a stream of scancodes that begins with no key down. -/
def after (stream : List UInt8) : HeldKeys := stream.foldl next none

/-- The scancode is the press of a letter key. -/
def LetterPress (k : HeldKeys) (s : UInt8) : Prop :=
  s ≠ 0xE0 ∧ k.extended = false ∧ isRelease s = false ∧ isLetterKey (codeOf s) = true

instance (k : HeldKeys) (s : UInt8) : Decidable (k.LetterPress s) := by
  unfold LetterPress; infer_instance

/-- The byte moves the driver's one shift flag as the two shift keys move: a shift key is released
only while the other one is up, and an extended `0x2A` or `0x36` comes as a press while a shift key
is down, or as a release while none is. -/
def ShiftRegular (k : HeldKeys) (s : UInt8) : Prop :=
  (k.extended = true → codeOf s = 0x2A ∨ codeOf s = 0x36 → k.shift = !isRelease s) ∧
  (k.extended = false → isRelease s = true →
    (codeOf s = 0x2A → k.rightShift = false) ∧ (codeOf s = 0x36 → k.leftShift = false))

/-- A letter is not typed with both shift and caps lock, nor S with control and one of the two. -/
def LetterRegular (k : HeldKeys) (s : UInt8) : Prop :=
  (k.ctrl = true ∧ codeOf s = 0x1F → k.shift = k.capsLock) ∧
  (¬ (k.ctrl = true ∧ codeOf s = 0x1F) → ¬ (k.shift = true ∧ k.capsLock = true))

/-- The bytes that the driver reports as the keys are. -/
def Regular (k : HeldKeys) (s : UInt8) : Prop :=
  (s ≠ 0xE0 → k.ShiftRegular s) ∧ (k.LetterPress s → k.LetterRegular s)

end HeldKeys

/-- What an interrupt pushes follows the keys: the shift modifier of the event is set when a shift
key is down, and the character of a letter key is in upper case when one but not both of shift and
caps lock is active. -/
def Follows (f : KeyFlags) (k : HeldKeys) (s : UInt8) : Prop :=
  ∀ r, (decodeScancode f s).2 = some r →
    (r.event.modifiers &&& keyboardModShift ≠ 0 ↔ (k.next s).shift = true) ∧
    (k.LetterPress s → ∃ c, r.char = some c ∧
      (isUpper c = true ↔ (k.next s).shift ≠ (k.next s).capsLock))

/-- The driver's flags stand for the keys. -/
structure Matches (f : KeyFlags) (k : HeldKeys) : Prop where
  shift : f.shiftDown = k.shift
  caps : f.capsLock = k.capsLock
  ctrl : f.ctrlDown = k.ctrl
  extended : f.extendedScancode = k.extended

/-! ### Reports and keys -/

section Step

variable {f : KeyFlags} {k : HeldKeys} {s : UInt8}

/-- The one flag for both shift keys is right after a byte exactly when the byte is regular for
shift. -/
theorem shift_next_iff (k : HeldKeys) (hs : s ≠ 0xE0) :
    (if codeOf s = 0x2A ∨ codeOf s = 0x36 then !isRelease s else k.shift) = (k.next s).shift ↔
      k.ShiftRegular s := by
  obtain ⟨left, right, caps, ctrl, ext⟩ := k
  unfold HeldKeys.ShiftRegular HeldKeys.next HeldKeys.shift
  rw [if_neg hs]
  have hdiff : (0x2A : UInt8) ≠ 0x36 := by decide
  by_cases h1 : codeOf s = 0x2A
  · rw [h1]
    cases ext <;> cases isRelease s <;> cases left <;> cases right <;> simp
  · by_cases h2 : codeOf s = 0x36
    · rw [h2]
      cases ext <;> cases isRelease s <;> cases left <;> cases right <;> simp
    · simp [h1, h2]

/-- A letter key changes neither the shift keys nor caps lock. -/
theorem LetterPress.next_eq (h : k.LetterPress s) :
    (k.next s).shift = k.shift ∧ (k.next s).capsLock = k.capsLock := by
  obtain ⟨hs, hext, -, hletter⟩ := h
  have he := letterEntry hletter
  obtain ⟨h1, h2⟩ := not_or.mp he.not_shift
  unfold HeldKeys.next HeldKeys.shift
  rw [if_neg hs]
  simp [h1, h2, he.not_caps]

/-- The character of a letter key follows the keys exactly when the byte is regular for letters. -/
theorem letter_follows_iff (h : Matches f k) (hl : k.LetterPress s) {r : KeyReport}
    (hr : (decodeScancode f s).2 = some r) :
    (∃ c, r.char = some c ∧ (isUpper c = true ↔ (k.next s).shift ≠ (k.next s).capsLock)) ↔
      k.LetterRegular s := by
  obtain ⟨hshift, hcaps⟩ := LetterPress.next_eq hl
  obtain ⟨hs, -, hrelease, hletter⟩ := hl
  obtain ⟨keycode, hpress⟩ := decodeScancode_letter f hs hrelease hletter
  obtain rfl := Option.some.inj (hpress.symm.trans hr)
  obtain ⟨c, hc, hupper⟩ :=
    decodePress_letter { f with extendedScancode := false } keycode hletter
  rw [h.shift, h.caps, h.ctrl] at hupper
  rw [hshift, hcaps, hc]
  -- the character is unique, so the existential is about `c`
  have hex : (∃ c', some c = some c' ∧ (isUpper c' = true ↔ k.shift ≠ k.capsLock)) ↔
      (isUpper c = true ↔ k.shift ≠ k.capsLock) :=
    ⟨fun ⟨c', hc', h'⟩ => Option.some.inj hc' ▸ h', fun h' => ⟨c, rfl, h'⟩⟩
  rw [hex, hupper, HeldKeys.LetterRegular]
  by_cases hsave : k.ctrl = true ∧ codeOf s = 0x1F
  · simp [hsave]
  · simp only [hsave, false_implies, true_and, not_false_eq_true, true_implies]
    cases k.shift <;> cases k.capsLock <;> decide

/-- **A byte is reported as the keys are exactly when it is regular**, from matching states. -/
theorem follows_iff (h : Matches f k) : Follows f k s ↔ k.Regular s := by
  by_cases hs : s = 0xE0
  · -- the marker pushes nothing
    have hnone : (decodeScancode f s).2 = none := by rw [decodeScancode, if_pos hs]
    refine ⟨fun _ => ⟨fun hne => absurd hs hne, fun hl => absurd hs hl.1⟩, fun _ r hr => ?_⟩
    rw [hnone] at hr
    cases hr
  · obtain ⟨r, hr, hmods⟩ := decodeScancode_report f hs
    have hflag : (decodeScancode f s).1.shiftDown = (k.next s).shift ↔ k.ShiftRegular s := by
      rw [decodeScancode_flags f hs, h.shift]
      exact shift_next_iff k hs
    have hshift : (r.event.modifiers &&& keyboardModShift ≠ 0 ↔ (k.next s).shift = true) ↔
        k.ShiftRegular s := by
      rw [hmods, currentModifiers_shift, ← Bool.eq_iff_iff]
      exact hflag
    constructor
    · intro hf
      obtain ⟨hfs, hfl⟩ := hf r hr
      exact ⟨fun _ => hshift.mp hfs, fun hl => (letter_follows_iff h hl hr).mp (hfl hl)⟩
    · rintro ⟨hrs, hrl⟩ r' hr'
      obtain rfl := Option.some.inj (hr.symm.trans hr')
      exact ⟨hshift.mpr (hrs hs), fun hl => (letter_follows_iff h hl hr).mpr (hrl hl)⟩

/-- **A regular byte keeps the flags and the keys together.** -/
theorem Matches.next (h : Matches f k) (hreg : k.Regular s) :
    Matches (decodeScancode f s).1 (k.next s) := by
  by_cases hs : s = 0xE0
  · unfold decodeScancode HeldKeys.next
    rw [if_pos hs, if_pos hs]
    exact ⟨h.shift, h.caps, h.ctrl, rfl⟩
  · rw [decodeScancode_flags f hs]
    refine ⟨?_, ?_, ?_, ?_⟩
    · rw [h.shift]
      exact (shift_next_iff k hs).mpr (hreg.1 hs)
    all_goals
      unfold HeldKeys.next
      rw [if_neg hs]
    · rw [h.caps]
    · rw [h.ctrl]

end Step

/-! ### Streams -/

theorem flags_keyboardHandleInterrupt (d : KeyboardDriver) (s : UInt8) :
    (keyboardHandleInterrupt d s).flags = (decodeScancode d.flags s).1 := by
  unfold keyboardHandleInterrupt
  dsimp only
  split <;> rfl

/-- **Modifiers follow the keys exactly along regular streams.** For every stream of scancodes from
boot, the events and characters pushed for all its bytes follow the keys if and only if each byte is
regular for the keys that the bytes before it leave. -/
theorem modifiers_follow_iff (keys : RingBuffer UInt8 keyboardBufferSize) (events : Keyboard)
    (stream : List UInt8) :
    (∀ pre s post, stream = pre ++ s :: post →
      Follows (keyboardRun (bootKeyboard keys events) pre).flags (HeldKeys.after pre) s) ↔
    (∀ pre s post, stream = pre ++ s :: post → (HeldKeys.after pre).Regular s) := by
  have hkeep : ∀ (d : KeyboardDriver) (k : HeldKeys) (s : UInt8), Matches d.flags k → k.Regular s →
      Matches (keyboardHandleInterrupt d s).flags (k.next s) := by
    intro d k s h hreg
    rw [flags_keyboardHandleInterrupt]
    exact h.next hreg
  have hboot : Matches (bootKeyboard keys events).flags HeldKeys.none := ⟨rfl, rfl, rfl, rfl⟩
  exact Lockstep.agree_iff_regular (fun d k s h => follows_iff (f := d.flags) h) hkeep hboot stream

/-- The driver at boot with empty queues. -/
def freshKeyboard : KeyboardDriver :=
  bootKeyboard ⟨fun _ => 0, 0, 0, by decide, by decide⟩ (bootQueue fun _ => ⟨0, 0, false, 0⟩)

/-- **A held shift key is lost, and caps lock does not undo shift.** Both shift keys are pressed and
the left one is released: the event of the release has no shift modifier, and A is typed as a small
letter, while the right shift key is still down. And with shift and caps lock both active A is typed
as a capital. -/
theorem shift_lost_and_caps_ignored :
    ((HeldKeys.after [0x2A, 0x36, 0xAA]).rightShift = true ∧
      (keyboardRun freshKeyboard [0x2A, 0x36, 0xAA, 0x1E]).events.toList
        = [⟨0x2A, 0, true, 1⟩, ⟨0x36, 0, true, 1⟩, ⟨0x2A, 0, false, 0⟩, ⟨0x1E, 97, true, 0⟩] ∧
      ¬ Follows (keyboardRun freshKeyboard [0x2A, 0x36]).flags (HeldKeys.after [0x2A, 0x36]) 0xAA) ∧
    ((keyboardRun freshKeyboard [0x3A, 0xBA, 0x2A, 0x1E]).keys.toList = [65] ∧
      ¬ Follows (keyboardRun freshKeyboard [0x3A, 0xBA, 0x2A]).flags
        (HeldKeys.after [0x3A, 0xBA, 0x2A]) 0x1E) := by
  refine ⟨⟨by decide +kernel, by decide +kernel, fun h => ?_⟩, by decide +kernel, fun h => ?_⟩
  · have hshift := (h ⟨⟨0x2A, 0, false, 0⟩, none⟩ (by decide +kernel)).1
    exact absurd hshift (by decide +kernel)
  · obtain ⟨c, hc, hupper⟩ := (h ⟨⟨0x1E, 65, true, 9⟩, some 65⟩ (by decide +kernel)).2
      (by decide +kernel)
    cases hc
    exact absurd hupper (by decide +kernel)

end MyOS.Input
