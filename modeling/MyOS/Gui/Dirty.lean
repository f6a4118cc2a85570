import MyOS.Gui.Surface

/-!
# Dirty rectangles

`mark_dirty`, `invalidate_rect` and the part of `flush_dirty` that brings the back buffer to the
screen. Between two flushes the desktop keeps one rectangle and a flag for a repaint of everything.
The invariant `Covers` says that the invalidated points on the screen are in the rectangle, or the
flag is set. So every point that has been invalidated is copied by the next flush, and nothing
outside of the screen is (`flush_covers`).

The arithmetic is that of integers: it is the arithmetic of `int32_t` as long as `x + w` and `y + h`
do not overflow.
-/

namespace MyOS.Gui

/-- `Rect::empty`. -/
def Rect.empty (r : Rect) : Bool := decide (r.w ≤ 0) || decide (r.h ≤ 0)

theorem Rect.empty_iff {r : Rect} : r.empty = true ↔ r.w ≤ 0 ∨ r.h ≤ 0 := by
  simp only [Rect.empty, Bool.or_eq_true, decide_eq_true_eq]

theorem Rect.not_empty_of_contains {r : Rect} {px py : ℤ} (h : r.contains px py = true) :
    ¬ r.empty = true := by
  rw [Rect.contains_iff] at h
  rw [Rect.empty_iff]
  omega

/-! ### Clipping -/

/-- The steps with which `invalidate_rect` and `cursor_overlay_rect_at` cut a rectangle off at the
edges of the screen; `none` where they give up. -/
def Rect.clip (m : Metrics) (r : Rect) : Option Rect :=
  let r := if r.x < 0 then { r with w := r.w + r.x, x := 0 } else r
  let r := if r.y < 0 then { r with h := r.h + r.y, y := 0 } else r
  if r.x ≥ m.width ∨ r.y ≥ m.height then none
  else
    let r := if r.x + r.w > m.width then { r with w := m.width - r.x } else r
    let r := if r.y + r.h > m.height then { r with h := m.height - r.y } else r
    some r

/-- The point is on the screen. -/
def Metrics.Has (m : Metrics) (px py : ℤ) : Prop := 0 ≤ px ∧ px < m.width ∧ 0 ≤ py ∧ py < m.height

/-- The rectangle lies on the screen. -/
structure Rect.Inside (m : Metrics) (r : Rect) : Prop where
  left : 0 ≤ r.x
  top : 0 ≤ r.y
  right : r.x + r.w ≤ m.width
  bottom : r.y + r.h ≤ m.height

/-- What is left of a side `[a, a + b)` on an edge of length `n`. -/
theorem clipSide (n : ℕ) (a b : ℤ) (p : ℤ) :
    let a' := if a < 0 then 0 else a
    let b' := if a < 0 then b + a else b
    (a' ≥ n → ¬ (a ≤ p ∧ p < a + b ∧ 0 ≤ p ∧ p < n)) ∧
      (a' ≤ p ∧ p < a' + (if a' + b' > n then n - a' else b') ↔ a ≤ p ∧ p < a + b ∧ 0 ≤ p ∧ p < n) ∧
      0 ≤ a' ∧ a' + (if a' + b' > n then n - a' else b') ≤ n := by
  refine ⟨?_, ⟨?_, ?_⟩, ?_, ?_⟩ <;> split_ifs <;> omega

/-- The sides of a clipped rectangle. -/
theorem clip_eq (m : Metrics) (r : Rect) : r.clip m =
      let x := if r.x < 0 then 0 else r.x
      let y := if r.y < 0 then 0 else r.y
      let w := if r.x < 0 then r.w + r.x else r.w
      let h := if r.y < 0 then r.h + r.y else r.h
      if x ≥ m.width ∨ y ≥ m.height then none
      else some ⟨x, y, if x + w > m.width then m.width - x else w,
        if y + h > m.height then m.height - y else h⟩ := by
  unfold Rect.clip
  dsimp only
  split_ifs <;> rfl

/-- **Clipping keeps the points on the screen**, and gives up only if there are none. -/
theorem clip_spec (m : Metrics) (r : Rect) :
    (r.clip m = none → ∀ px py, r.contains px py = true → ¬ m.Has px py) ∧
      ∀ c, r.clip m = some c → c.Inside m ∧
        ∀ px py, c.contains px py = true ↔ r.contains px py = true ∧ m.Has px py := by
  rw [clip_eq]
  constructor
  · intro hnone px py hr hm
    rw [Rect.contains_iff] at hr
    obtain ⟨hx0, hx1, hy0, hy1⟩ := hm
    rw [ite_eq_left_iff] at hnone
    by_cases hout : (if r.x < 0 then 0 else r.x) ≥ m.width ∨ (if r.y < 0 then 0 else r.y) ≥ m.height
    · rcases hout with hout | hout
      · exact (clipSide m.width r.x r.w px).1 hout (by omega)
      · exact (clipSide m.height r.y r.h py).1 hout (by omega)
    · exact nomatch hnone hout
  · intro c hc
    rw [Option.ite_none_left_eq_some] at hc
    obtain ⟨-, hc⟩ := hc
    cases hc
    obtain ⟨-, hx, hx0, hx1⟩ := clipSide m.width r.x r.w 0
    obtain ⟨-, hy, hy0, hy1⟩ := clipSide m.height r.y r.h 0
    refine ⟨⟨hx0, hy0, hx1, hy1⟩, fun px py => ?_⟩
    have hx := (clipSide m.width r.x r.w px).2.1
    have hy := (clipSide m.height r.y r.h py).2.1
    simp only [Rect.contains_iff, Metrics.Has]
    rw [← and_assoc, hx, hy]
    constructor
    · rintro ⟨⟨h1, h2, h3, h4⟩, h5, h6, h7, h8⟩
      exact ⟨⟨h1, h2, h5, h6⟩, h3, h4, h7, h8⟩
    · rintro ⟨⟨h1, h2, h5, h6⟩, h3, h4, h7, h8⟩
      exact ⟨⟨h1, h2, h3, h4⟩, h5, h6, h7, h8⟩

/-! ### Marks -/

/-- The fields of `GuiSystem` that say what has to be repainted. -/
structure Dirty where
  dirty : Bool
  fullRepaint : Bool
  dirtyRect : Rect
deriving DecidableEq, Repr

namespace Dirty

/-- What `flush_dirty` leaves. -/
def clean : Dirty := ⟨false, false, ⟨0, 0, 0, 0⟩⟩

/-- What `GuiSystem::initialize` sets. -/
def started : Dirty := ⟨true, true, ⟨0, 0, 0, 0⟩⟩

/-- `GuiSystem::mark_dirty`. -/
def markDirty (d : Dirty) : Dirty := { d with dirty := true, fullRepaint := true }

/-- The rectangle around two. -/
def union (a b : Rect) : Rect :=
  let x1 := min a.x b.x
  let y1 := min a.y b.y
  let x2 := max (a.x + a.w) (b.x + b.w)
  let y2 := max (a.y + a.h) (b.y + b.h)
  ⟨x1, y1, x2 - x1, y2 - y1⟩

/-- `GuiSystem::invalidate_rect`; `invalidate_window` calls it with the rectangle of the window. -/
def invalidateRect (m : Metrics) (d : Dirty) (r : Rect) : Dirty :=
  if r.empty then d
  else match r.clip m with
    | none => d
    | some r =>
      if r.empty then d
      else
        { d with
          dirty := true
          dirtyRect :=
            if !d.dirty || d.fullRepaint || d.dirtyRect.empty then r else union d.dirtyRect r }

end Dirty

/-- A call between two flushes. -/
inductive Invalidation where
  | markDirty
  | invalidateRect (r : Rect)

/-- The points that a call invalidates. -/
def Invalidation.Marks (px py : ℤ) : Invalidation → Prop
  | .markDirty => True
  | .invalidateRect r => r.contains px py = true

namespace Dirty

def apply (m : Metrics) (d : Dirty) : Invalidation → Dirty
  | .markDirty => d.markDirty
  | .invalidateRect r => d.invalidateRect m r

/-- The marks of `d` cover the points `P` of the screen, and lie on it. -/
structure Covers (m : Metrics) (d : Dirty) (P : ℤ → ℤ → Prop) : Prop where
  covered : ∀ px py, m.Has px py → P px py →
    d.dirty = true ∧ (d.fullRepaint = true ∨ d.dirtyRect.contains px py = true)
  inside : d.dirty = true → d.fullRepaint = true ∨
    (d.dirtyRect.Inside m ∧ ¬ d.dirtyRect.empty = true)

variable {m : Metrics} {d : Dirty} {P : ℤ → ℤ → Prop} {a b : Rect}

theorem union_contains {px py : ℤ} (h : a.contains px py = true ∨ b.contains px py = true) :
    (union a b).contains px py = true := by
  simp only [Rect.contains_iff, union] at h ⊢
  omega

theorem union_inside (ha : a.Inside m) (hb : b.Inside m) : (union a b).Inside m := by
  obtain ⟨h1, h2, h3, h4⟩ := ha
  obtain ⟨h5, h6, h7, h8⟩ := hb
  constructor <;> simp only [union] <;> omega

theorem union_not_empty (hb : ¬ b.empty = true) : ¬ (union a b).empty = true := by
  simp only [Rect.empty_iff, union] at hb ⊢
  omega

/-- A rectangle that is not added has no point on the screen. -/
theorem Covers.keep (h : d.Covers m P) {r : Rect}
    (hr : ∀ px py, r.contains px py = true → ¬ m.Has px py) :
    d.Covers m fun px py => P px py ∨ r.contains px py = true where
  covered px py hm hp := h.covered px py hm (hp.resolve_right fun hc => hr px py hc hm)
  inside := h.inside

/-- **Step.** `invalidate_rect` covers the points of its rectangle as well. -/
theorem Covers.invalidateRect (h : d.Covers m P) (r : Rect) :
    (d.invalidateRect m r).Covers m fun px py => P px py ∨ r.contains px py = true := by
  unfold Dirty.invalidateRect
  split
  · rename_i hempty
    exact h.keep fun px py hc _ => Rect.not_empty_of_contains hc hempty
  · cases hclip : r.clip m with
    | none => exact h.keep ((clip_spec m r).1 hclip)
    | some c =>
      obtain ⟨hin, hpts⟩ := (clip_spec m r).2 c hclip
      dsimp only
      split_ifs with hempty hfresh
      · refine h.keep fun px py hc hm => ?_
        exact Rect.not_empty_of_contains ((hpts px py).mpr ⟨hc, hm⟩) hempty
      · -- nothing to join with: no mark so far, or everything is repainted
        refine ⟨fun px py hm hp => ⟨rfl, ?_⟩, fun _ => .inr ⟨hin, hempty⟩⟩
        rcases hp with hp | hp
        · obtain ⟨hdirty, hfull | hold⟩ := h.covered px py hm hp
          · exact .inl hfull
          · have hne := Rect.not_empty_of_contains hold
            rw [hdirty, Bool.not_true, Bool.false_or, Bool.or_eq_true] at hfresh
            exact .inl (hfresh.resolve_right hne)
        · exact .inr ((hpts px py).mpr ⟨hp, hm⟩)
      · simp only [Bool.or_eq_true, Bool.not_eq_true', not_or, Bool.not_eq_false,
          Bool.not_eq_true] at hfresh
        obtain ⟨⟨hdirty, hfull⟩, -⟩ := hfresh
        have hold := (h.inside hdirty).resolve_left (by rw [hfull]; exact Bool.false_ne_true)
        refine ⟨fun px py hm hp => ⟨rfl, .inr (union_contains ?_)⟩,
          fun _ => .inr ⟨union_inside hold.1 hin, union_not_empty hempty⟩⟩
        rcases hp with hp | hp
        · exact .inl ((h.covered px py hm hp).2.resolve_left
            (by rw [hfull]; exact Bool.false_ne_true))
        · exact .inr ((hpts px py).mpr ⟨hp, hm⟩)

theorem Covers.apply (h : d.Covers m P) (call : Invalidation) :
    (d.apply m call).Covers m fun px py => P px py ∨ call.Marks px py := by
  cases call with
  | markDirty => exact ⟨fun _ _ _ _ => ⟨rfl, .inl rfl⟩, fun _ => .inl rfl⟩
  | invalidateRect r => exact h.invalidateRect r

/-- **Run.** A sequence of calls covers what all of them invalidate. -/
theorem Covers.run (h : d.Covers m P) (calls : List Invalidation) :
    (calls.foldl (Dirty.apply m) d).Covers m fun px py =>
      P px py ∨ ∃ call ∈ calls, call.Marks px py := by
  induction calls generalizing d P with
  | nil => simpa using h
  | cons call calls ih =>
    have hrun := ih (h.apply call)
    refine ⟨fun px py hm hp => hrun.covered px py hm ?_, hrun.inside⟩
    simpa [or_assoc] using hp

theorem covers_clean (m : Metrics) : clean.Covers m fun _ _ => False :=
  ⟨fun _ _ _ h => h.elim, nofun⟩

end Dirty

/-! ### Flushing -/

/-- The screen and the back buffer, which `GuiSystem::initialize` makes like the screen. -/
structure DoubleBuffer where
  screen : Surface
  backbuffer : Surface
  same_width : backbuffer.width = screen.width
  same_height : backbuffer.height = screen.height
  same_format : backbuffer.format = screen.format

namespace DoubleBuffer

/-- The buffers that `GuiSystem::initialize` sets up. The back buffer is a block of the heap with
whatever pixels that holds, or the screen itself if `kmalloc` fails. -/
def buffersInitialize (screen : Surface) (block : Option (ℤ → ℤ → UInt32)) : DoubleBuffer where
  screen := screen
  backbuffer := { screen with pixel := block.getD screen.pixel }
  same_width := rfl
  same_height := rfl
  same_format := rfl

/-- The metrics that `initialize` takes from the screen. -/
def metrics (b : DoubleBuffer) : Metrics :=
  ⟨b.screen.width, b.screen.height, if b.screen.height ≥ 480 then 30 else 22⟩

/-- What `flush_dirty` copies to the screen. -/
def flushRegion (b : DoubleBuffer) (d : Dirty) : Rect :=
  if !d.dirty then ⟨0, 0, 0, 0⟩
  else if d.fullRepaint || d.dirtyRect.empty then
    ⟨0, 0, (min b.screen.width b.backbuffer.width : ℕ),
      (min b.screen.height b.backbuffer.height : ℕ)⟩
  else b.screen.blitRegion b.backbuffer d.dirtyRect.x d.dirtyRect.y d.dirtyRect.w d.dirtyRect.h

/-- `GuiSystem::flush_dirty`, between the removal of the cursor and its return; the windows have
been drawn to the back buffer. -/
def flushDirty (b : DoubleBuffer) (d : Dirty) : Surface × Dirty :=
  if d.dirty then
    (if d.fullRepaint || d.dirtyRect.empty then b.screen.blit b.backbuffer
      else b.screen.blitRect b.backbuffer d.dirtyRect.x d.dirtyRect.y d.dirtyRect.w d.dirtyRect.h,
      Dirty.clean)
  else (b.screen, d)

/-- A flush copies the back buffer in the region. -/
theorem flushDirty_pixel (b : DoubleBuffer) (d : Dirty) (px py : ℤ) :
    (b.flushDirty d).1.pixel px py =
      if (b.flushRegion d).contains px py then b.backbuffer.pixel px py
      else b.screen.pixel px py := by
  unfold flushDirty flushRegion
  cases d.dirty
  · have hnone : Rect.contains ⟨0, 0, 0, 0⟩ px py = false := by
      rw [Bool.eq_false_iff, Ne, Rect.contains_iff]
      dsimp only
      omega
    simp [hnone]
  · have htransfer : b.screen.transfer b.backbuffer px py = b.backbuffer.pixel px py := by
      unfold Surface.transfer
      rw [if_pos b.same_format.symm]
    simp only [Bool.not_true, Bool.false_eq_true, if_false, if_true]
    by_cases hfull : (d.fullRepaint || d.dirtyRect.empty) = true
    · rw [if_pos hfull, if_pos hfull]
      unfold Surface.blit
      dsimp only
      rw [htransfer]
    · rw [if_neg hfull, if_neg hfull]
      unfold Surface.blitRect
      dsimp only
      rw [htransfer]

/-- **Step.** A flush copies all points that the marks cover. -/
theorem flushRegion_spec (b : DoubleBuffer) {d : Dirty} {P : ℤ → ℤ → Prop}
    (h : d.Covers b.metrics P) :
    (∀ px py, b.screen.Has px py → P px py → (b.flushRegion d).contains px py = true) ∧
      ∀ px py, (b.flushRegion d).contains px py = true → b.screen.Has px py := by
  have hw := b.same_width
  have hh := b.same_height
  have hlt := b.screen.width_lt
  have hlt' := b.screen.height_lt
  cases hdirty : d.dirty with
  | false =>
    constructor
    · intro px py hm hp
      exact nomatch hdirty.symm.trans (h.covered px py hm hp).1
    · intro px py hin
      simp only [flushRegion, hdirty, Bool.not_false, if_true, Rect.contains_iff] at hin
      omega
  | true =>
    have hinside := h.inside hdirty
    by_cases hfull : d.fullRepaint = true ∨ d.dirtyRect.empty = true
    · -- the whole screen
      have hregion : b.flushRegion d = ⟨0, 0, b.screen.width, b.screen.height⟩ := by
        simp only [flushRegion, hdirty, Bool.not_true, Bool.false_eq_true, if_false,
          Bool.or_eq_true, hfull, if_true, hw, hh, min_self]
      simp only [hregion, Rect.contains_iff, Surface.Has]
      exact ⟨fun px py hm _ => by omega, fun px py hin => by omega⟩
    · rw [not_or] at hfull
      obtain ⟨⟨h1, h2, h3, h4⟩, hne⟩ := hinside.resolve_left hfull.1
      have hregion : b.flushRegion d = b.screen.blitRegion b.backbuffer d.dirtyRect.x
          d.dirtyRect.y d.dirtyRect.w d.dirtyRect.h := by
        simp only [flushRegion, hdirty, Bool.not_true, Bool.false_eq_true, if_false,
          Bool.or_eq_true, hfull.1, hfull.2, or_self]
      have hsmall : Rect.Small ⟨d.dirtyRect.x, d.dirtyRect.y, d.dirtyRect.w, d.dirtyRect.h⟩ := by
        rw [Rect.empty_iff, not_or] at hne
        simp only [metrics] at h3 h4
        constructor <;> dsimp only <;> omega
      rw [hregion]
      refine ⟨fun px py hm hp => ?_, fun px py hin => ?_⟩
      · refine (Surface.blitRegion_contains hsmall).mpr ⟨?_, hm, ?_⟩
        · exact (h.covered px py hm hp).2.resolve_left hfull.1
        · obtain ⟨hx0, hx1, hy0, hy1⟩ := hm
          exact ⟨hx0, by omega, hy0, by omega⟩
      · exact ((Surface.blitRegion_contains hsmall).mp hin).2.1

/-- What a call leaves of the marks; `none` is a flush. -/
def call (b : DoubleBuffer) (d : Dirty) : Option Invalidation → Dirty
  | some call => d.apply b.metrics call
  | none => (b.flushDirty d).2

/-- A flush leaves nothing marked. -/
theorem flushDirty_clean (b : DoubleBuffer) {d : Dirty} (h : d.dirty = false → d = Dirty.clean) :
    (b.flushDirty d).2 = Dirty.clean := by
  unfold flushDirty
  cases hdirty : d.dirty
  · exact h hdirty
  · rfl

/-- **Run.** If nothing is dirty, nothing is marked. -/
theorem calls_clean (b : DoubleBuffer) {d : Dirty} (h : d.dirty = false → d = Dirty.clean)
    (calls : List (Option Invalidation)) :
    (calls.foldl b.call d).dirty = false → calls.foldl b.call d = Dirty.clean := by
  induction calls generalizing d with
  | nil => exact h
  | cons c calls ih =>
    refine ih ?_
    rcases c with _ | _ | r
    · exact fun _ => b.flushDirty_clean h
    · exact fun hd => absurd hd (by simp [call, Dirty.apply, Dirty.markDirty])
    · simp only [call, Dirty.apply, Dirty.invalidateRect]
      split
      · exact h
      · cases r.clip b.metrics with
        | none => exact h
        | some r =>
          dsimp only
          split
          · exact h
          · exact nofun

end DoubleBuffer

/-- **No invalidation is lost.** After any calls since the start and a flush, whatever is marked or
invalidated until the next flush: that flush copies the back buffer to the screen in a region and
leaves the rest of the screen alone; every point of the screen that one of the calls invalidates is
in the region and shows the back buffer afterwards; and the region lies on the screen. -/
theorem flush_covers (b : DoubleBuffer) (before : List (Option Invalidation))
    (calls : List Invalidation) :
    let d := calls.foldl (Dirty.apply b.metrics)
      (b.flushDirty (before.foldl b.call Dirty.started)).2
    (∀ px py, (b.flushDirty d).1.pixel px py =
      if (b.flushRegion d).contains px py then b.backbuffer.pixel px py
      else b.screen.pixel px py) ∧
    (∀ call ∈ calls, ∀ px py, b.screen.Has px py → call.Marks px py →
      (b.flushRegion d).contains px py = true ∧
        (b.flushDirty d).1.pixel px py = b.backbuffer.pixel px py) ∧
    ∀ px py, (b.flushRegion d).contains px py = true → b.screen.Has px py := by
  intro d
  have hclean : (b.flushDirty (before.foldl b.call Dirty.started)).2 = Dirty.clean :=
    b.flushDirty_clean (b.calls_clean (fun h => absurd h (by decide)) before)
  have hd : d = calls.foldl (Dirty.apply b.metrics) Dirty.clean := by rw [← hclean]
  rw [hd]
  -- the marks since the flush cover what the calls invalidate, and the flush copies what is marked
  obtain ⟨hcovers, hinside⟩ := b.flushRegion_spec ((Dirty.covers_clean b.metrics).run calls)
  refine ⟨b.flushDirty_pixel _, fun call hcall px py hm hp => ?_, hinside⟩
  have hin := hcovers px py hm (.inr ⟨call, hcall, hp⟩)
  exact ⟨hin, by rw [b.flushDirty_pixel, if_pos hin]⟩

/-- After a repaint of everything, two rectangles across opposite corners of the screen. -/
theorem flush_covers_corners :
    let b := DoubleBuffer.buffersInitialize vgaScreen (some fun _ _ => 7)
    let calls :=
      [Invalidation.invalidateRect ⟨-10, -10, 30, 30⟩, .invalidateRect ⟨600, 440, 90, 90⟩]
    let d := calls.foldl (Dirty.apply b.metrics)
      (b.flushDirty ([some .markDirty, none].foldl b.call Dirty.started)).2
    (b.flushDirty d).1.pixel 0 0 = 7 ∧ (b.flushDirty d).1.pixel 639 479 = 7 := by
  intro b calls d
  have hall := (flush_covers b [some .markDirty, none] calls).2.1
  have hfirst : vgaScreen.Has 0 0 := ⟨by decide, by decide, by decide, by decide⟩
  have hlast : vgaScreen.Has 639 479 := ⟨by decide, by decide, by decide, by decide⟩
  subst d
  exact ⟨(hall _ List.mem_cons_self 0 0 hfirst rfl).2,
    (hall _ (List.mem_cons_of_mem _ List.mem_cons_self) 639 479 hlast rfl).2⟩

end MyOS.Gui
