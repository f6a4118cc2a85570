import MyOS.Input.Drivers
import MyOS.Lib.Lockstep
import Mathlib.Algebra.Ring.Int.Defs
import Mathlib.Algebra.Ring.Nat

/-!
# The cursor and the mouse

A PS/2 packet gives each movement in nine bits: the low eight in a byte of its own, the sign in the
first byte. `mouse_handle_interrupt` takes the low byte for a signed one and does not look at the
sign, so a movement by more than 127 goes the other way.

`Packet.move` is what a packet means for a position on the screen. The interrupts of a packet do the
same (`feed_packet`) as long as the movement fits in a signed byte, and in a few positions at the
edge where the clamping hides the difference (`axis_eq_iff`). The position stays on the screen
either way, so the characterisation carries over to streams of packets (`cursor_follows_iff`).
-/

namespace MyOS.Input

open List

/-- `mouse_set_bounds`. -/
def mouseSetBounds (m : Mouse) (width height : Int32) : Mouse :=
  if width ≤ 0 ∨ height ≤ 0 then m
  else
    { m with
      boundWidth := width
      boundHeight := height
      cursorX := width / 2
      cursorY := height / 2
      movementGeneration := m.movementGeneration + 1 }

/-! ### Packets -/

/-- A well-formed packet: the first byte has the bit that is always set, and no overflow bit. The
wheel byte is there in packets of four bytes only. -/
structure Packet where
  flags : UInt8
  x : UInt8
  y : UInt8
  wheel : UInt8
  sync : flags &&& 0x08 ≠ 0
  no_overflow : flags &&& 0xC0 = 0

/-- A number of nine bits in two's complement. -/
def nineBit (negative : Bool) (low : UInt8) : ℤ := low.toNat - if negative then 256 else 0

/-- The coordinate of the screen closest to `v`. -/
def clampTo (bound v : ℤ) : ℤ := max 0 (min v (bound - 1))

namespace Packet

/-- The bytes of the packet, for a mouse with packets of `size` bytes. -/
def bytes (p : Packet) (size : ℕ) : List UInt8 :=
  if size = 4 then [p.flags, p.x, p.y, p.wheel] else [p.flags, p.x, p.y]

/-- The movement to the right. -/
def dx (p : Packet) : ℤ := nineBit (p.flags &&& 0x10 != 0) p.x

/-- The movement upwards. -/
def dy (p : Packet) : ℤ := nineBit (p.flags &&& 0x20 != 0) p.y

/-- What the packet does to a position on a screen of the given width and height. -/
def move (width height : ℤ) (pos : ℤ × ℤ) (p : Packet) : ℤ × ℤ :=
  (clampTo width (pos.1 + p.dx), clampTo height (pos.2 - p.dy))

/-- The packets that the driver handles so: both movements fit in a signed byte and lead to a
coordinate of 31 bits; or the screen has one column or row, or the cursor stands at the edge that a
movement by -256 leads to. -/
def Regular (width height : ℤ) (pos : ℤ × ℤ) (p : Packet) : Prop :=
  ((-128 ≤ p.dx ∧ p.dx < 128 ∧ pos.1 + p.dx < 2 ^ 31) ∨ width = 1 ∨ (p.dx = -256 ∧ pos.1 = 0)) ∧
  ((-128 ≤ p.dy ∧ p.dy < 128 ∧ pos.2 - p.dy < 2 ^ 31) ∨ height = 1 ∨
    (p.dy = -256 ∧ pos.2 = height - 1))

instance (width height : ℤ) (pos : ℤ × ℤ) (p : Packet) :
    Decidable (p.Regular width height pos) := by
  unfold Regular; infer_instance

end Packet

namespace Mouse

/-- The position of the cursor. -/
def position (m : Mouse) : ℤ × ℤ := (m.cursorX.toInt, m.cursorY.toInt)

/-- The mouse after the bytes of some packets. -/
def feed (m : Mouse) (packets : List Packet) : Mouse :=
  (packets.flatMap (Packet.bytes · m.packetSize)).foldl mouseHandleInterrupt m

/-- The mouse stands between two packets, with the cursor on the screen. -/
structure Ready (m : Mouse) : Prop where
  index : m.packetIndex = 0
  size : m.packetSize = 3 ∨ m.packetSize = 4
  x_nonneg : 0 ≤ m.cursorX.toInt
  x_lt : m.cursorX.toInt < m.boundWidth.toInt
  y_nonneg : 0 ≤ m.cursorY.toInt
  y_lt : m.cursorY.toInt < m.boundHeight.toInt

end Mouse

/-- `mouse_set_bounds` puts the cursor on the screen, whatever it is called with. -/
theorem mouseSetBounds_ready {m : Mouse} (h : m.Ready) (width height : Int32) :
    (mouseSetBounds m width height).Ready := by
  unfold mouseSetBounds
  split
  · exact h
  · rename_i hpos
    obtain ⟨hw, hh⟩ := not_or.mp hpos
    have half : ∀ v : Int32, ¬ v ≤ 0 → 0 ≤ (v / 2).toInt ∧ (v / 2).toInt < v.toInt := by
      intro v hv
      have hlt := v.toInt_lt
      rw [Int32.le_iff_toInt_le, Int32.toInt_zero] at hv
      rw [Int32.toInt_div]
      change 0 ≤ (v.toInt.tdiv 2).bmod (2 ^ 32) ∧ (v.toInt.tdiv 2).bmod (2 ^ 32) < v.toInt
      rw [Int.tdiv_eq_ediv_of_nonneg (by omega), Int.bmod_def]
      split <;> omega
    exact ⟨h.index, h.size, (half width hw).1, (half width hw).2, (half height hh).1,
      (half height hh).2⟩

/-! ### One axis -/

/-- A byte taken as a signed number. -/
theorem toInt_signed (b : UInt8) :
    b.toInt8.toInt32.toInt = if b.toNat < 128 then (b.toNat : ℤ) else b.toNat - 256 := by
  rw [Int8.toInt_toInt32]
  change b.toBitVec.toInt = _
  rw [BitVec.toInt_eq_toNat_cond]
  change (if 2 * b.toNat < 2 ^ 8 then (b.toNat : ℤ) else b.toNat - (2 ^ 8 : ℕ)) = _
  split <;> split <;> omega

/-- The clamping of the driver, as a function of integers. -/
theorem toInt_clampCursor (v : Int32) {bound : Int32} (h : 0 < bound.toInt) :
    (clampCursor v bound).toInt = clampTo bound.toInt v.toInt := by
  have hlt := bound.toInt_lt
  have hsub : (bound - 1).toInt = bound.toInt - 1 := by
    rw [Int32.toInt_sub]
    change (bound.toInt - 1).bmod (2 ^ 32) = _
    rw [Int.bmod_def]
    split <;> omega
  have hneg : v < 0 ↔ v.toInt < 0 := Int32.lt_iff_toInt_lt
  unfold clampCursor clampTo
  by_cases hv : v < 0
  · have := hneg.mp hv
    have hbound : ¬ bound ≤ 0 := by rw [Int32.le_iff_toInt_le, Int32.toInt_zero]; omega
    rw [if_pos hv, if_neg hbound, Int32.toInt_zero]
    omega
  · have := mt hneg.mpr hv
    rw [if_neg hv]
    by_cases hge : v ≥ bound
    · have := Int32.le_iff_toInt_le.mp hge
      rw [if_pos hge, hsub]
      omega
    · have := mt Int32.le_iff_toInt_le.mpr hge
      rw [if_neg hge]
      omega

/-- **One axis.** The driver adds `d` to a coordinate in 32-bit arithmetic where `e` is meant, and
the two differ by 256 or not at all. The clamped results agree when `e` is `d` and the sum does not
overflow, and else only where both stay at the same edge. -/
theorem axis_eq_iff {x bound d e : ℤ} (hx : 0 ≤ x) (hlt : x < bound) (hbound : bound < 2 ^ 31)
    (hd : -128 ≤ d ∧ d ≤ 128) (he : e = d ∨ (e = d - 256 ∧ 0 ≤ d) ∨ (e = d + 256 ∧ d ≤ 0)) :
    clampTo bound ((x + d).bmod (2 ^ 32)) = clampTo bound (x + e) ↔
      (e = d ∧ x + d < 2 ^ 31) ∨ bound = 1 ∨
        (d = 0 ∧ ((e < 0 ∧ x = 0) ∨ (0 < e ∧ x = bound - 1))) := by
  -- the sum is at least -128, so it only ever wraps from the top
  have hwrap : (x + d).bmod (2 ^ 32) = if x + d < 2 ^ 31 then x + d else x + d - 2 ^ 32 := by
    rw [Int.bmod_def]
    split <;> split <;> omega
  rw [hwrap]
  unfold clampTo
  rcases he with rfl | ⟨rfl, hsign⟩ | ⟨rfl, hsign⟩
  · split <;> omega
  · split <;> omega
  · split <;> omega

/-- The horizontal axis of a packet. -/
theorem clampCursor_dx_iff (p : Packet) {x bound : Int32} (hx : 0 ≤ x.toInt)
    (hlt : x.toInt < bound.toInt) :
    (clampCursor (x + p.x.toInt8.toInt32) bound).toInt = clampTo bound.toInt (x.toInt + p.dx) ↔
      (-128 ≤ p.dx ∧ p.dx < 128 ∧ x.toInt + p.dx < 2 ^ 31) ∨ bound.toInt = 1 ∨
        (p.dx = -256 ∧ x.toInt = 0) := by
  have hsigned := toInt_signed p.x
  have hbyte := p.x.toNat_lt
  rw [toInt_clampCursor _ (by omega), Int32.toInt_add]
  unfold Packet.dx nineBit
  rw [axis_eq_iff hx hlt bound.toInt_lt]
  · cases p.flags &&& 0x10 != 0 <;> simp only [Bool.false_eq_true, if_false, if_true] <;>
      rw [hsigned] <;> split <;> omega
  · rw [hsigned]; split <;> omega
  · cases p.flags &&& 0x10 != 0 <;> simp only [Bool.false_eq_true, if_false, if_true] <;>
      rw [hsigned] <;> split <;> omega

/-- The vertical axis of a packet, on which up is down. -/
theorem clampCursor_dy_iff (p : Packet) {y bound : Int32} (hy : 0 ≤ y.toInt)
    (hlt : y.toInt < bound.toInt) :
    (clampCursor (y - p.y.toInt8.toInt32) bound).toInt = clampTo bound.toInt (y.toInt - p.dy) ↔
      (-128 ≤ p.dy ∧ p.dy < 128 ∧ y.toInt - p.dy < 2 ^ 31) ∨ bound.toInt = 1 ∨
        (p.dy = -256 ∧ y.toInt = bound.toInt - 1) := by
  have hsigned := toInt_signed p.y
  have hbyte := p.y.toNat_lt
  rw [toInt_clampCursor _ (by omega), Int32.toInt_sub, Int.sub_eq_add_neg,
    Int.sub_eq_add_neg (a := y.toInt)]
  unfold Packet.dy nineBit
  rw [axis_eq_iff hy hlt bound.toInt_lt]
  · cases p.flags &&& 0x20 != 0 <;> simp only [Bool.false_eq_true, if_false, if_true] <;>
      rw [hsigned] <;> split <;> omega
  · rw [hsigned]; split <;> omega
  · cases p.flags &&& 0x20 != 0 <;> simp only [Bool.false_eq_true, if_false, if_true] <;>
      rw [hsigned] <;> split <;> omega

/-! ### One packet -/

section Packet

variable {m : Mouse} {data : UInt8}

/-- The byte is put into the packet. -/
def Mouse.collect (m : Mouse) (data : UInt8) : Mouse :=
  { m with
    packet := Function.update m.packet m.packetIndex data
    packetIndex := m.packetIndex + 1 }

theorem mouseHandleInterrupt_collect (hsync : m.packetIndex = 0 → data &&& 0x08 ≠ 0)
    (h : m.packetIndex + 1 < m.packetSize) : mouseHandleInterrupt m data = m.collect data := by
  unfold mouseHandleInterrupt
  rw [if_neg fun hskip => hsync hskip.1 hskip.2]
  exact if_pos h

theorem mouseHandleInterrupt_complete (hsync : m.packetIndex = 0 → data &&& 0x08 ≠ 0)
    (h : m.packetIndex + 1 = m.packetSize) :
    mouseHandleInterrupt m data = decodePacket (m.collect data) := by
  unfold mouseHandleInterrupt
  rw [if_neg fun hskip => hsync hskip.1 hskip.2]
  exact if_neg (Nat.not_lt.mpr (Nat.le_of_eq h.symm))

/-- The cursor, the screen and the place in the packet are the same. -/
structure Mouse.SameCursor (m m' : Mouse) : Prop where
  cursorX : m.cursorX = m'.cursorX
  cursorY : m.cursorY = m'.cursorY
  boundWidth : m.boundWidth = m'.boundWidth
  boundHeight : m.boundHeight = m'.boundHeight
  packetIndex : m.packetIndex = m'.packetIndex
  packetSize : m.packetSize = m'.packetSize

theorem decodeWheel_sameCursor (m : Mouse) : (decodeWheel m).SameCursor m := by
  unfold decodeWheel
  split <;> exact ⟨rfl, rfl, rfl, rfl, rfl, rfl⟩

theorem decodeClick_sameCursor (wasLeft : Bool) (m : Mouse) :
    (decodeClick wasLeft m).SameCursor m := by
  unfold decodeClick
  split <;> exact ⟨rfl, rfl, rfl, rfl, rfl, rfl⟩

/-- The wheel and the buttons leave the cursor alone. -/
theorem decodePacket_sameCursor (m : Mouse) : (decodePacket m).SameCursor (decodeMotion m) := by
  have hclick := decodeClick_sameCursor m.leftDown (decodeWheel (decodeMotion m))
  have hwheel := decodeWheel_sameCursor (decodeMotion m)
  exact ⟨hclick.1.trans hwheel.1, hclick.2.trans hwheel.2, hclick.3.trans hwheel.3,
    hclick.4.trans hwheel.4, hclick.5.trans hwheel.5, hclick.6.trans hwheel.6⟩

/-- The bytes behind the first one are collected, whatever they are, and decoded with the last. -/
theorem foldl_mouseHandleInterrupt (ds : List UInt8) (d : UInt8) (hindex : m.packetIndex ≠ 0)
    (h : m.packetIndex + ds.length + 1 = m.packetSize) :
    (ds ++ [d]).foldl mouseHandleInterrupt m
      = decodePacket ((ds ++ [d]).foldl Mouse.collect m) := by
  induction ds generalizing m with
  | nil => exact mouseHandleInterrupt_complete (fun h0 => absurd h0 hindex) h
  | cons c ds ih =>
    rw [length_cons] at h
    rw [cons_append, foldl_cons, foldl_cons,
      mouseHandleInterrupt_collect (fun h0 => absurd h0 hindex) (by omega)]
    exact ih (Nat.succ_ne_zero _) (show m.packetIndex + 1 + ds.length + 1 = m.packetSize by omega)

/-- **The interrupts of one packet**: the bytes are collected and decoded once. -/
theorem feed_packet (h : m.Ready) (p : Packet) :
    ∃ q : Mouse, (p.bytes m.packetSize).foldl mouseHandleInterrupt m = decodePacket q ∧
      q.packet 1 = p.x ∧ q.packet 2 = p.y ∧ q.cursorX = m.cursorX ∧ q.cursorY = m.cursorY ∧
      q.boundWidth = m.boundWidth ∧ q.boundHeight = m.boundHeight ∧
      q.packetSize = m.packetSize := by
  have hindex := h.index
  have hsize := h.size
  have hfirst : mouseHandleInterrupt m p.flags = m.collect p.flags :=
    mouseHandleInterrupt_collect (fun _ => p.sync) (by omega)
  rcases hsize with hsize | hsize
  · have hbytes : p.bytes m.packetSize = p.flags :: ([p.x] ++ [p.y]) := if_neg (by omega)
    rw [hbytes, foldl_cons, hfirst, foldl_mouseHandleInterrupt _ _ (Nat.succ_ne_zero _)
      (show m.packetIndex + 1 + 1 + 1 = m.packetSize by omega)]
    refine ⟨_, rfl, ?_, ?_, ?_⟩ <;> simp [Mouse.collect, hindex]
  · have hbytes : p.bytes m.packetSize = p.flags :: ([p.x, p.y] ++ [p.wheel]) := if_pos hsize
    rw [hbytes, foldl_cons, hfirst, foldl_mouseHandleInterrupt _ _ (Nat.succ_ne_zero _)
      (show m.packetIndex + 1 + 2 + 1 = m.packetSize by omega)]
    refine ⟨_, rfl, ?_, ?_, ?_⟩ <;> simp [Mouse.collect, hindex]

end Packet

/-! ### Streams of packets -/

/-- The mouse stands between two packets at the position `pos` of its screen. -/
structure Mouse.At (m0 m : Mouse) (pos : ℤ × ℤ) : Prop where
  ready : m.Ready
  size : m.packetSize = m0.packetSize
  width : m.boundWidth = m0.boundWidth
  height : m.boundHeight = m0.boundHeight
  position : m.position = pos

theorem clampTo_mem {bound : ℤ} (v : ℤ) (h : 0 < bound) :
    0 ≤ clampTo bound v ∧ clampTo bound v < bound := by
  unfold clampTo
  omega

/-- What the interrupts of a packet do to the cursor, and that they end between two packets. -/
theorem feed_packet_position {m : Mouse} (h : m.Ready) (p : Packet) :
    ((p.bytes m.packetSize).foldl mouseHandleInterrupt m).position
      = ((clampCursor (m.cursorX + p.x.toInt8.toInt32) m.boundWidth).toInt,
        (clampCursor (m.cursorY - p.y.toInt8.toInt32) m.boundHeight).toInt) ∧
    m.At ((p.bytes m.packetSize).foldl mouseHandleInterrupt m)
      ((p.bytes m.packetSize).foldl mouseHandleInterrupt m).position := by
  obtain ⟨q, hq, hx, hy, hcx, hcy, hw, hh, hs⟩ := feed_packet h p
  obtain ⟨hX, hY, hW, hH, hI, hS⟩ := decodePacket_sameCursor q
  unfold decodeMotion at hX hY hW hH hI hS
  dsimp only at hX hY hW hH hI hS
  rw [hx, hcx, hw] at hX
  rw [hy, hcy, hh] at hY
  have hwidth : 0 < m.boundWidth.toInt := Int.lt_of_le_of_lt h.x_nonneg h.x_lt
  have hheight : 0 < m.boundHeight.toInt := Int.lt_of_le_of_lt h.y_nonneg h.y_lt
  have hxin := clampTo_mem (m.cursorX + p.x.toInt8.toInt32).toInt hwidth
  have hyin := clampTo_mem (m.cursorY - p.y.toInt8.toInt32).toInt hheight
  rw [← toInt_clampCursor _ hwidth, ← hX] at hxin
  rw [← toInt_clampCursor _ hheight, ← hY] at hyin
  rw [hq]
  have hready : (decodePacket q).Ready := by
    refine ⟨hI, ?_, hxin.1, ?_, hyin.1, ?_⟩
    · rw [hS, hs]; exact h.size
    · rw [hW, hw]; exact hxin.2
    · rw [hH, hh]; exact hyin.2
  constructor
  · unfold Mouse.position
    rw [hX, hY]
  · exact ⟨hready, hS.trans hs, hW.trans hw, hH.trans hh, rfl⟩

/-- **One packet.** -/
theorem packet_moves_iff {m : Mouse} (h : m.Ready) (p : Packet) :
    ((p.bytes m.packetSize).foldl mouseHandleInterrupt m).position
      = p.move m.boundWidth.toInt m.boundHeight.toInt m.position ↔
    p.Regular m.boundWidth.toInt m.boundHeight.toInt m.position := by
  rw [(feed_packet_position h p).1]
  unfold Packet.move Packet.Regular Mouse.position
  rw [Prod.mk.injEq, clampCursor_dx_iff p h.x_nonneg h.x_lt, clampCursor_dy_iff p h.y_nonneg h.y_lt]

/-- **The cursor follows the mouse exactly along regular streams.** For every stream of packets, in
every state between two packets with the cursor on the screen, the cursor is where the movements
lead after each packet if and only if each packet is regular at the position the movements before it
lead to. -/
theorem cursor_follows_iff (m : Mouse) (h : m.Ready) (packets : List Packet) :
    (∀ pre p post, packets = pre ++ p :: post → (m.feed (pre ++ [p])).position
        = (pre ++ [p]).foldl (Packet.move m.boundWidth.toInt m.boundHeight.toInt) m.position) ↔
    (∀ pre p post, packets = pre ++ p :: post → p.Regular m.boundWidth.toInt m.boundHeight.toInt
        (pre.foldl (Packet.move m.boundWidth.toInt m.boundHeight.toInt) m.position)) := by
  have hstep : ∀ (m' : Mouse) (pos : ℤ × ℤ) (p : Packet), m.At m' pos →
      (((p.bytes m.packetSize).foldl mouseHandleInterrupt m').position
        = p.move m.boundWidth.toInt m.boundHeight.toInt pos ↔
      p.Regular m.boundWidth.toInt m.boundHeight.toInt pos) := by
    rintro m' pos p ⟨hready, hsize, hwidth, hheight, rfl⟩
    rw [← hsize, ← hwidth, ← hheight]
    exact packet_moves_iff hready p
  have hkeep : ∀ (m' : Mouse) (pos : ℤ × ℤ) (p : Packet), m.At m' pos →
      p.Regular m.boundWidth.toInt m.boundHeight.toInt pos →
      m.At ((p.bytes m.packetSize).foldl mouseHandleInterrupt m')
        (p.move m.boundWidth.toInt m.boundHeight.toInt pos) := by
    intro m' pos p hat hreg
    obtain ⟨hr, hs, hw, hh, -⟩ := (feed_packet_position hat.ready p).2
    rw [hat.size] at hr hs hw hh
    exact ⟨hr, hs, hw.trans hat.width, hh.trans hat.height, (hstep m' pos p hat).mpr hreg⟩
  have hrun := Lockstep.agree_iff_regular hstep hkeep (⟨h, rfl, rfl, rfl, rfl⟩ : m.At m m.position)
    packets
  rw [← hrun]
  unfold Mouse.feed
  simp only [foldl_flatMap, foldl_append, foldl_cons, foldl_nil]

/-- The variables of `mouse.c` at boot, for a mouse without a wheel. -/
def bootMouse : Mouse where
  cursorX := 160
  cursorY := 100
  boundWidth := 320
  boundHeight := 200
  leftDown := false
  rightDown := false
  middleDown := false
  clickPending := false
  clickX := 0
  clickY := 0
  wheelDelta := 0
  movementGeneration := 0
  packet := fun _ => 0
  packetIndex := 0
  packetSize := 3

theorem bootMouse_ready : bootMouse.Ready := by
  refine ⟨rfl, .inl rfl, ?_, ?_, ?_, ?_⟩ <;> decide

/-- The mouse on a screen of 1024 by 768 pixels, with the cursor in the middle. -/
def screenMouse : Mouse := mouseSetBounds bootMouse 1024 768

/-- A movement by 100 to the right and 10 upwards. -/
def slowPacket : Packet := ⟨0x08, 100, 10, 0, by decide, by decide⟩

/-- The movement back. -/
def backPacket : Packet := ⟨0x38, 156, 246, 0, by decide, by decide⟩

/-- A movement by 200 to the right. -/
def fastPacket : Packet := ⟨0x08, 200, 0, 0, by decide, by decide⟩

/-- There and back. -/
theorem cursor_follows_slow : screenMouse.Ready ∧
    (screenMouse.feed [slowPacket]).position = (612, 374) ∧
    (screenMouse.feed [slowPacket, backPacket]).position = (512, 384) := by
  have hready : screenMouse.Ready := by
    exact mouseSetBounds_ready bootMouse_ready 1024 768
  have hfollow := (cursor_follows_iff screenMouse hready [slowPacket, backPacket]).mpr
    fun pre p post hsplit => ?_
  · exact ⟨hready, (hfollow [] _ _ rfl).trans (by decide +kernel),
      (hfollow [_] _ [] rfl).trans (by decide +kernel)⟩
  · -- each packet is regular where it finds the cursor
    match pre, p, post, hsplit with
    | [], _, _, rfl => decide +kernel
    | [_], _, _, rfl => decide +kernel
    | _ :: _ :: _, _, _, hsplit => simp at hsplit

/-- **A fast movement goes the wrong way.** The cursor is 200 pixels further to the right by the
packet, and the driver moves it 56 pixels to the left. -/
theorem fast_packet_goes_left : fastPacket.dx = 200 ∧
    fastPacket.move 1024 768 screenMouse.position = (712, 384) ∧
    (screenMouse.feed [fastPacket]).position = (456, 384) := by
  decide +kernel

end MyOS.Input
