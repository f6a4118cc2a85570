import MyOS.Shell.Truncate
import Mathlib.Data.Nat.Digits.Lemmas

/-!
# Decimal numbers

`u32_to_dec` of `lib/libk/runtime.c` beside `parse_u32` of the shell. The digits are produced from
the last one in a temporary array and copied backwards to the caller's buffer, as far as that has
room for them and the NUL. The temporary array holds the digits of the number in the sense of
`Nat.digits` (`decDigits_eq`), so what Mathlib knows about those applies to the text. A 32-bit
number has at most ten of them, which is why a buffer of eleven bytes is always enough. The texts
that the terminal prints are these (`u32ToDec_text`).
-/

namespace MyOS.Libk

open Gui Shell Function List

/-! ### The function -/

/-- `(char) ('0' + digit)`. -/
def digitByte (digit : ℕ) : UInt8 := UInt8.ofNat (48 + digit)

/-- The first loop of `u32_to_dec`: the contents of `temp`, for `room` more bytes in it. -/
def decDigits : (room : ℕ) → UInt32 → List UInt8
  | 0, _ => []
  | room + 1, value =>
    if value = 0 then [] else digitByte (value % 10).toNat :: decDigits room (value / 10)

/-- The second loop of `u32_to_dec`, over what is left of `temp`: the buffer, and the index behind
the last byte written. -/
def copyDigits (outSize : ℕ) : List UInt8 → (ℕ → UInt8) → ℕ → (ℕ → UInt8) × ℕ
  | [], out, i => (out, i)
  | c :: temp, out, i =>
    if i + 1 < outSize then copyDigits outSize temp (update out i c) (i + 1) else (out, i)

/-- `u32_to_dec`: the memory at `out` afterwards. -/
def u32ToDec (value : UInt32) (out : ℕ → UInt8) (outSize : ℕ) : ℕ → UInt8 :=
  if outSize = 0 then out
  else if value = 0 then
    let out := update out 0 48
    if outSize > 1 then update out 1 0 else out
  else
    let copied := copyDigits outSize (decDigits 21 value).reverse out 0
    update copied.1 copied.2 0

/-! ### Digits -/

/-- The temporary array holds the digits of the number, the last one first. -/
theorem decDigits_eq {room : ℕ} {value : UInt32} (h : value.toNat < 10 ^ room) :
    decDigits room value = (Nat.digits 10 value.toNat).map digitByte := by
  induction room generalizing value with
  | zero =>
    have hzero : value.toNat = 0 := by omega
    rw [hzero, Nat.digits_zero]
    rfl
  | succ room ih =>
    unfold decDigits
    by_cases h0 : value = 0
    · rw [if_pos h0, h0, UInt32.toNat_zero, Nat.digits_zero, map_nil]
    · have hpos : 0 < value.toNat :=
        Nat.pos_of_ne_zero fun hz => h0 (UInt32.toNat_inj.mp (hz.trans UInt32.toNat_zero.symm))
      have hmod : (value % 10).toNat = value.toNat % 10 := UInt32.toNat_mod _ _
      have hdiv : (value / 10).toNat = value.toNat / 10 := UInt32.toNat_div _ _
      rw [if_neg h0, Nat.digits_def' (by decide) hpos, map_cons, hmod,
        ih (by rw [hdiv]; omega), hdiv]

/-- A 32-bit number has at most ten digits. -/
theorem length_digits_le (value : UInt32) : (Nat.digits 10 value.toNat).length ≤ 10 := by
  rw [Nat.digits_length_le_iff (by decide)]
  have := value.toNat_lt
  omega

theorem digitByte_toNat {digit : ℕ} (h : digit < 10) : (digitByte digit).toNat = 48 + digit := by
  unfold digitByte
  rw [UInt8.toNat_ofNat']
  omega

theorem isDigit_digitByte {digit : ℕ} (h : digit < 10) : isDigit (digitByte digit) = true := by
  have hval := digitByte_toNat h
  unfold isDigit
  rw [Bool.and_eq_true, decide_eq_true_eq, decide_eq_true_eq, UInt8.le_iff_toNat_le,
    UInt8.le_iff_toNat_le, hval]
  exact ⟨Nat.le_add_right 48 digit, by change 48 + digit ≤ 57; omega⟩

theorem digitChar_byte {digit : ℕ} (h : digit < 10) :
    digit.digitChar.toNat.toUInt8 = digitByte digit := by
  have key : ∀ d < 10, (Nat.digitChar d).toNat.toUInt8 = digitByte d := by decide
  exact key digit h

/-- The text of a number, from `Nat.toDigits` and from `Nat.digits`. -/
theorem toDigits_eq_digits {n : ℕ} (hn : n ≠ 0) :
    (Nat.toDigits 10 n).map (fun c => c.toNat.toUInt8) =
      ((Nat.digits 10 n).map digitByte).reverse := by
  induction n using Nat.strong_induction_on with
  | _ n ih =>
    by_cases hlt : n < 10
    · rw [Nat.toDigits_of_lt_base hlt, Nat.digits_of_lt 10 n hn hlt]
      exact congrArg (fun c => [c]) (digitChar_byte hlt)
    · rw [Nat.toDigits_of_base_le (by decide) (by omega),
        Nat.digits_def' (by decide) (Nat.pos_of_ne_zero hn), map_append,
        ih (n / 10) (by omega) (by omega), map_singleton, map_cons, reverse_cons,
        digitChar_byte (Nat.mod_lt n (by decide))]

/-- The text that the terminal prints for a number. -/
theorem u32ToDec_text {value : UInt32} (h0 : value ≠ 0) :
    Gui.u32ToDec value = (decDigits 21 value).reverse := by
  have hne : value.toNat ≠ 0 :=
    fun hz => h0 (UInt32.toNat_inj.mp (hz.trans UInt32.toNat_zero.symm))
  have hlt := value.toNat_lt
  rw [decDigits_eq (by omega)]
  exact toDigits_eq_digits hne

/-! ### The buffer -/

/-- Copied bytes stand where they belong, and nothing else is written. -/
theorem copyDigits_eq {outSize : ℕ} {text : List UInt8} {out : ℕ → UInt8} {i : ℕ}
    (h : i + text.length < outSize) :
    (copyDigits outSize text out i).2 = i + text.length ∧
    ∀ k, (copyDigits outSize text out i).1 k =
      if i ≤ k ∧ k < i + text.length then text.getD (k - i) 0 else out k := by
  induction text generalizing out i with
  | nil => exact ⟨rfl, fun k => (if_neg (by rw [length_nil]; omega)).symm⟩
  | cons c text ih =>
    rw [length_cons] at h
    unfold copyDigits
    rw [if_pos (by omega)]
    obtain ⟨hend, hbytes⟩ := @ih (update out i c) (i + 1) (by omega)
    refine ⟨by rw [hend, length_cons]; omega, fun k => ?_⟩
    rw [hbytes k, length_cons]
    by_cases hk : k = i
    · -- the byte of this round, which later rounds do not touch
      rw [hk, if_neg (by omega), if_pos (by omega), update_self, Nat.sub_self, getD_cons_zero]
    · rw [update_of_ne hk]
      by_cases hin : i + 1 ≤ k ∧ k < i + 1 + text.length
      · rw [if_pos hin, if_pos (by omega), show k - i = k - (i + 1) + 1 by omega,
          getD_cons_succ]
      · rw [if_neg hin, if_neg (by omega)]

/-- **What `u32_to_dec` writes** to a buffer that is large enough: the text, a NUL, and nothing
else. -/
theorem u32ToDec_bytes (value : UInt32) (out : ℕ → UInt8) {outSize : ℕ} (h : 11 ≤ outSize) (k : ℕ) :
    u32ToDec value out outSize k =
      if k < (Gui.u32ToDec value).length then (Gui.u32ToDec value).getD k 0
      else if k = (Gui.u32ToDec value).length then 0 else out k := by
  unfold u32ToDec
  rw [if_neg (by omega)]
  by_cases h0 : value = 0
  · have htext : Gui.u32ToDec value = [48] := by rw [h0]; decide
    rw [if_pos h0, htext, if_pos (by omega), length_singleton]
    by_cases hk : k = 1
    · rw [hk, update_self]; rfl
    · rw [update_of_ne hk, if_neg hk]
      by_cases hk0 : k = 0
      · rw [hk0, update_self]; rfl
      · rw [update_of_ne hk0, if_neg (by omega)]
  · have hlen : (decDigits 21 value).reverse.length ≤ 10 := by
      have hlt := value.toNat_lt
      rw [length_reverse, decDigits_eq (by omega), length_map]
      exact length_digits_le value
    rw [if_neg h0, u32ToDec_text h0]
    obtain ⟨hend, hbytes⟩ := @copyDigits_eq outSize _ out 0
      (show 0 + (decDigits 21 value).reverse.length < outSize by omega)
    rw [hend, Nat.zero_add]
    by_cases hk : k = (decDigits 21 value).reverse.length
    · rw [hk, update_self, if_neg (lt_irrefl _), if_pos rfl]
    · rw [update_of_ne hk, hbytes k, if_neg hk, Nat.zero_add, Nat.sub_zero]
      simp only [Nat.zero_le, true_and]

/-- The bytes of the buffer are the text, a NUL, and some rest. -/
theorem u32ToDec_buffer (value : UInt32) (out : ℕ → UInt8) {outSize : ℕ} (h : 11 ≤ outSize)
    (hlen : (Gui.u32ToDec value).length < outSize) :
    ∃ rest, (List.range outSize).map (u32ToDec value out outSize) =
      Gui.u32ToDec value ++ 0 :: rest := by
  have hbytes := u32ToDec_bytes value out h
  generalize Gui.u32ToDec value = text at hbytes hlen
  obtain ⟨m, rfl⟩ : ∃ m, outSize = text.length + (m + 1) := ⟨outSize - text.length - 1, by omega⟩
  rw [range_add, map_append, range_succ_eq_map, map_cons, map_cons]
  refine ⟨_, congr_arg₂ (· ++ ·) ?_ (congr_arg₂ List.cons ?_ rfl)⟩
  · refine ext_getElem (by simp) fun k h1 h2 => ?_
    rw [getElem_map, getElem_range, hbytes, if_pos h2, getD_eq_getElem _ _ h2]
  · rw [hbytes, if_neg (by omega), if_pos (by omega)]

/-! ### Reading the number back -/

/-- What is known of the text of a number: digits, no leading zero, and their value. -/
structure Numeral (text : List UInt8) (value : UInt32) : Prop where
  length_le : text.length ≤ 10
  ne_nil : text ≠ []
  digits : ∀ c ∈ text, isDigit c = true
  no_leading_zero : text.head? = some 48 → text = [48]
  parse : parseU32 text = value

/-- The value of digits in reading order is the number they are the digits of. -/
theorem foldl_digits (n : ℕ) : ((Nat.digits 10 n).map digitByte).reverse.foldl
    (fun n c => n * 10 + (c.toNat - 48)) 0 = n := by
  have hval : ∀ ds : List ℕ, (∀ d ∈ ds, d < 10) →
      (ds.map digitByte).foldr (fun c n => n * 10 + (c.toNat - 48)) 0 = Nat.ofDigits 10 ds := by
    intro ds hds
    induction ds with
    | nil => rfl
    | cons d ds ih =>
      have hd := digitByte_toNat (hds d mem_cons_self)
      rw [map_cons, foldr_cons, ih fun e he => hds e (mem_cons_of_mem d he), hd, Nat.ofDigits_cons]
      omega
  rw [foldl_reverse, hval _ fun d hd => Nat.digits_lt_base (by decide) hd, Nat.ofDigits_digits]

/-- **The text of a number** in all that matters. -/
theorem u32ToDec_numeral (value : UInt32) : Numeral (Gui.u32ToDec value) value := by
  by_cases h0 : value = 0
  · have htext : Gui.u32ToDec value = [48] := by rw [h0]; decide
    rw [htext, h0]
    refine ⟨by decide, by decide, fun c hc => ?_, fun _ => rfl, by decide +kernel⟩
    rw [mem_singleton.mp hc]
    decide
  · have hne : value.toNat ≠ 0 :=
      fun hz => h0 (UInt32.toNat_inj.mp (hz.trans UInt32.toNat_zero.symm))
    have htext : Gui.u32ToDec value = ((Nat.digits 10 value.toNat).map digitByte).reverse :=
      toDigits_eq_digits hne
    have hnil : Nat.digits 10 value.toNat ≠ [] := Nat.digits_ne_nil_iff_ne_zero.mpr hne
    have hdigits : ∀ c ∈ ((Nat.digits 10 value.toNat).map digitByte).reverse, isDigit c = true := by
      intro c hc
      obtain ⟨d, hd, rfl⟩ := mem_map.mp (mem_reverse.mp hc)
      exact isDigit_digitByte (Nat.digits_lt_base (by decide) hd)
    rw [htext]
    refine ⟨?_, ?_, hdigits, fun hhead => ?_, ?_⟩
    · rw [length_reverse, length_map]
      exact length_digits_le value
    · simpa using hnil
    · -- the first digit of the text is the last one of `Nat.digits`, which is not zero
      have hlast := Nat.getLast_digit_ne_zero 10 hne
      rw [List.head?_reverse, List.getLast?_map, List.getLast?_eq_some_getLast hnil] at hhead
      have hlt := Nat.digits_lt_base (b := 10) (by decide) (getLast_mem hnil)
      have hval := congrArg UInt8.toNat (Option.some.inj hhead)
      rw [digitByte_toNat hlt] at hval
      change 48 + _ = 48 at hval
      omega
    · have hwhile := takeWhile_eq_self_iff.mpr hdigits
      have hlt := value.toNat_lt
      apply UInt32.toNat_inj.mp
      rw [parseU32_toNat, number, hwhile, foldl_digits, Nat.mod_eq_of_lt (by omega)]

/-- **Decimal printing and parsing are inverse.** A buffer of at least eleven bytes receives the
digits of the number without leading zeros, then a NUL, and nothing else is written; and
`parse_u32` reads the number back from the buffer. -/
theorem u32ToDec_parseU32 (value : UInt32) (out : ℕ → UInt8) (outSize : ℕ) (h : 11 ≤ outSize) :
    ∃ digits : List UInt8, digits ≠ [] ∧ (∀ c ∈ digits, isDigit c = true) ∧
      (digits.head? = some 48 → digits = [48]) ∧ digits.length < outSize ∧
      (∀ k, u32ToDec value out outSize k =
        if k < digits.length then digits.getD k 0 else if k = digits.length then 0 else out k) ∧
      parseU32 ((List.range outSize).map (u32ToDec value out outSize)) = value := by
  have hnum := u32ToDec_numeral value
  have hlen := hnum.length_le
  refine ⟨Gui.u32ToDec value, hnum.ne_nil, hnum.digits, hnum.no_leading_zero, by omega,
    u32ToDec_bytes value out h, ?_⟩
  obtain ⟨rest, hrest⟩ := u32ToDec_buffer value out h (by omega)
  rw [hrest, parseU32_append, hnum.parse]

/-- The largest number in the smallest such buffer. -/
theorem u32ToDec_parseU32_max : (List.range 11).map (u32ToDec 4294967295 (fun _ => 7) 11)
      = [52, 50, 57, 52, 57, 54, 55, 50, 57, 53, 0] ∧
    parseU32 ((List.range 11).map (u32ToDec 4294967295 (fun _ => 7) 11)) = 4294967295 := by
  obtain ⟨_, -, -, -, -, -, hparse⟩ := u32ToDec_parseU32 4294967295 (fun _ => 7) 11 (by decide)
  exact ⟨by decide +kernel, hparse⟩

end MyOS.Libk
