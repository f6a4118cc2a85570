import MyOS.Gui.Dirty

/-!
# The cursor overlay

The cursor is drawn on the screen itself. `redraw_cursor_overlay` saves a rectangle around the mouse
and draws the cursor, `restore_cursor_overlay` puts the rectangle back. The rectangle is placed with
one pair of reads of the mouse, the cursor with another one, and a mouse interrupt may come between
them. If the mouse has left the margin of 16 pixels, the cursor is drawn outside of the rectangle
and what it covers there is never restored (`cursor_trail`).

As long as the two pairs of reads are `Steady`, the screen without the cursor can be brought back at
any time (`cursor_no_trail`). The invariant is `Shows`: the screen differs from the one without the
cursor in the saved rectangle only, and the saved pixels are those of the latter.

Pixels are values here and coordinates integers, as in `MyOS.Gui.Surface`; the same drawing loop
down to the bytes is `MyOS.Assets.Cursor`.
-/

namespace MyOS.Gui

open List

/-! ### The bitmaps -/

/-- `struct asset_bitmap` of a cursor, in the format ARGB32. -/
structure AssetBitmap where
  width : ℕ
  height : ℕ
  hotspotX : ℤ
  hotspotY : ℤ
  pixels : ℕ → UInt32

/-- The pixels of the two cursors. -/
structure Cursors where
  pointer : ℕ → UInt32
  text : ℕ → UInt32

/-- The bitmap that is drawn; sizes and hotspots are those of `manifest.json`. -/
def Cursors.active (c : Cursors) : Bool → AssetBitmap
  | true => ⟨12, 16, 6, 8, c.text⟩
  | false => ⟨12, 16, 1, 1, c.pointer⟩

/-- `rgb565_to_rgb888`. -/
def rgb565ToRgb888 (value : UInt32) : UInt32 :=
  let r := (value >>> 11) &&& 0x1F
  let g := (value >>> 5) &&& 0x3F
  let b := value &&& 0x1F
  let r := (r <<< 3) ||| (r >>> 2)
  let g := (g <<< 2) ||| (g >>> 4)
  let b := (b <<< 3) ||| (b >>> 2)
  (r <<< 16) ||| (g <<< 8) ||| b

/-- `surface_color_to_rgb888`. -/
def surfaceColorToRgb888 (format : PixelFormat) (color : UInt32) : UInt32 :=
  match format with
  | .rgb565 => rgb565ToRgb888 (color &&& 0xFFFF)
  | .rgb888 | .xrgb8888 => color &&& 0x00FFFFFF
  | .indexed8 => color

/-- `blend_rgb`. -/
def blendRgb (dst src alpha : UInt32) : UInt32 :=
  let blend (shift : UInt32) : UInt32 :=
    (((src >>> shift) &&& 0xFF) * alpha + ((dst >>> shift) &&& 0xFF) * (255 - alpha)) / 255
  (blend 16 <<< 16) ||| (blend 8 <<< 8) ||| blend 0

/-- One round of the loops of `assets_draw_cursor`. -/
def drawCursorPixel (b : AssetBitmap) (x y : ℤ) (row : ℕ) (s : Surface) (col : ℕ) : Surface :=
  let px := x - b.hotspotX + col
  let py := y - b.hotspotY + row
  if px < 0 ∨ py < 0 ∨ px ≥ s.width ∨ py ≥ s.height then s
  else
    let argb := b.pixels (row * b.width + col)
    let alpha := argb >>> 24
    if alpha = 0 then s
    else
      let color := argb &&& 0x00FFFFFF
      let color :=
        if alpha < 255 then blendRgb (surfaceColorToRgb888 s.format (s.getPixel px py)) color alpha
        else color
      s.putPixel px py color

/-- `assets_draw_cursor`. -/
def assetsDrawCursor (s : Surface) (b : AssetBitmap) (x y : ℤ) : Surface :=
  (List.range b.height).foldl
    (fun s row => (List.range b.width).foldl (drawCursorPixel b x y row) s) s

/-- The rectangle of the bitmap. -/
def AssetBitmap.box (b : AssetBitmap) (x y : ℤ) : Rect :=
  ⟨x - b.hotspotX, y - b.hotspotY, b.width, b.height⟩

theorem drawCursorPixel_changesOnly (b : AssetBitmap) (x y : ℤ) {row col : ℕ}
    (hrow : row < b.height) (hcol : col < b.width) (s : Surface) :
    s.ChangesOnly (fun px py => (b.box x y).contains px py = true ∧ s.Has px py)
      (drawCursorPixel b x y row s col) := by
  have hlt := s.width_lt
  have hlt' := s.height_lt
  unfold drawCursorPixel
  dsimp only
  split_ifs with hout halpha
  all_goals try exact .refl _ s
  all_goals
    refine (s.putPixel_changesOnly _ _ _).mono fun px py hp => ?_
    rw [u32_eq (by omega) (by omega), u32_eq (by omega) (by omega)] at hp
    simp only [Rect.contains_iff, AssetBitmap.box, Surface.Has]
    omega

/-- The cursor is drawn in its rectangle, as far as that is on the screen. -/
theorem assetsDrawCursor_changesOnly (s : Surface) (b : AssetBitmap) (x y : ℤ) :
    s.ChangesOnly (fun px py => (b.box x y).contains px py = true ∧ s.Has px py)
      (assetsDrawCursor s b x y) := by
  refine Surface.foldl_changesOnly fun row hrow t hw hh => ?_
  refine Surface.foldl_changesOnly fun col hcol u hw' hh' => ?_
  refine (drawCursorPixel_changesOnly b x y (mem_range.mp hrow)
    (mem_range.mp hcol) u).mono
    fun px py hp => ⟨hp.1, ?_⟩
  obtain ⟨hx0, hx1, hy0, hy1⟩ := hp.2
  exact ⟨hx0, by omega, hy0, by omega⟩

/-! ### Saving and restoring -/

def cursorOverlayMargin : ℤ := 16
def cursorOverlayMaxW : ℤ := 64
def cursorOverlayMaxH : ℤ := 64

/-- The fields of `GuiSystem` for the overlay; the saved pixels are addressed from the corner of the
rectangle. -/
structure Overlay where
  saved : Bool
  textMode : Bool
  rect : Rect
  background : ℤ → ℤ → UInt32

/-- What `GuiSystem::initialize` sets. -/
def Overlay.none : Overlay := ⟨false, false, ⟨0, 0, 0, 0⟩, fun _ _ => 0⟩

/-- `GuiSystem::cursor_overlay_rect_at`; `cursor_width` and `cursor_height` are those of the bitmap
for the mode at that moment. -/
def cursorOverlayRectAt (m : Metrics) (b : AssetBitmap) (x y : ℤ) : Rect :=
  match Rect.clip m
    ⟨x - cursorOverlayMargin, y - cursorOverlayMargin, b.width + cursorOverlayMargin * 2,
      b.height + cursorOverlayMargin * 2⟩ with
  | .none => ⟨0, 0, 0, 0⟩
  | some r =>
    { r with
      w := if r.w > cursorOverlayMaxW then cursorOverlayMaxW else r.w
      h := if r.h > cursorOverlayMaxH then cursorOverlayMaxH else r.h }

/-- `GuiSystem::restore_cursor_overlay`. -/
def restoreCursorOverlay (s : Surface) (o : Overlay) : Surface × Overlay :=
  if !o.saved || o.rect.empty then (s, o)
  else
    ({ s with
        pixel := fun px py =>
          if o.rect.contains px py then o.background (px - o.rect.x) (py - o.rect.y)
          else s.pixel px py },
      { o with saved := false })

/-- What a call of `redraw_cursor_overlay` is given and reads: `text_mode`, the mode that
`cursor_width` and `cursor_height` see, the place of the mouse for the rectangle and its place for
the drawing. The source reads the mode once for the width and once for the height; `sizeMode` stands
for both, so a mode that changes between these two reads is not modelled. -/
structure Redraw where
  force : Bool
  textMode : Bool
  sizeMode : Bool
  x : ℤ
  y : ℤ
  drawX : ℤ
  drawY : ℤ

/-- `redraw_cursor_overlay` up to the drawing: on the left where it returns early. -/
def saveCursorOverlay (c : Cursors) (m : Metrics) (s : Surface) (o : Overlay) (r : Redraw) :
    (Surface × Overlay) ⊕ (Surface × Overlay) :=
  let next := cursorOverlayRectAt m (c.active r.sizeMode) r.x r.y
  if !r.force && o.saved && decide (o.textMode = r.textMode) && decide (o.rect = next) then
    .inl (s, o)
  else
    let (s, o) := restoreCursorOverlay s o
    if next.empty then .inl (s, o)
    else
      .inr (s,
        { saved := true
          textMode := r.textMode
          rect := next
          background := fun col row => s.pixel (next.x + col) (next.y + row) })

/-- `GuiSystem::redraw_cursor_overlay`. -/
def redrawCursorOverlay (c : Cursors) (m : Metrics) (s : Surface) (o : Overlay) (r : Redraw) :
    Surface × Overlay :=
  match saveCursorOverlay c m s o r with
  | .inl done => done
  | .inr (s, o) => (assetsDrawCursor s (c.active r.textMode) r.drawX r.drawY, o)

/-- A call; `none` is `restore_cursor_overlay`. -/
def overlayCall (c : Cursors) (m : Metrics) (st : Surface × Overlay) :
    Option Redraw → Surface × Overlay
  | .none => restoreCursorOverlay st.1 st.2
  | some r => redrawCursorOverlay c m st.1 st.2 r

/-! ### The screen without the cursor -/

/-- The screen `s` shows `base`, with the cursor on it if one is saved. -/
structure Shows (base s : Surface) (o : Overlay) : Prop where
  changes : base.ChangesOnly (fun px py => o.saved = true ∧ o.rect.contains px py = true) s
  background : o.saved = true → ∀ px py, o.rect.contains px py = true →
    o.background (px - o.rect.x) (py - o.rect.y) = base.pixel px py
  nonempty : o.saved = true → ¬ o.rect.empty = true

/-- The second pair of reads is close enough to the first one: the bitmap is in the margin on each
side, or the rectangle ends at the edge of the screen there. -/
def Redraw.Steady (c : Cursors) (m : Metrics) (r : Redraw) : Prop :=
  let left := r.drawX - (c.active r.textMode).hotspotX
  let top := r.drawY - (c.active r.textMode).hotspotY
  (r.x - 16 ≤ left ∨ r.x ≤ 16) ∧ (left + 12 ≤ r.x + 28 ∨ m.width ≤ r.x + 28) ∧
    (r.y - 16 ≤ top ∨ r.y ≤ 16) ∧ (top + 16 ≤ r.y + 32 ∨ m.height ≤ r.y + 32)

instance (c : Cursors) (m : Metrics) (r : Redraw) : Decidable (r.Steady c m) :=
  inferInstanceAs (Decidable (_ ∧ _ ∧ _ ∧ _))

variable {c : Cursors} {m : Metrics} {base s : Surface} {o : Overlay} {r : Redraw}

theorem active_size (c : Cursors) (mode : Bool) :
    (c.active mode).width = 12 ∧ (c.active mode).height = 16 := by
  cases mode <;> exact ⟨rfl, rfl⟩

/-- The saved rectangle is what is on the screen of the mouse's surroundings. The cap of 64 pixels
plays no part, as the bitmaps have 12×16 pixels. -/
theorem cursorOverlayRectAt_contains (c : Cursors) (m : Metrics) (mode : Bool) (x y px py : ℤ) :
    (cursorOverlayRectAt m (c.active mode) x y).contains px py = true ↔
      Rect.contains ⟨x - 16, y - 16, 44, 48⟩ px py = true ∧ m.Has px py := by
  obtain ⟨hw, hh⟩ := active_size c mode
  have hsides : ((12 : ℕ) : ℤ) + 16 * 2 = 44 ∧ ((16 : ℕ) : ℤ) + 16 * 2 = 48 := by decide
  rw [cursorOverlayRectAt, hw, hh, cursorOverlayMargin, cursorOverlayMaxW, cursorOverlayMaxH,
    hsides.1, hsides.2]
  cases hclip : Rect.clip m ⟨x - 16, y - 16, 44, 48⟩ with
  | none =>
    refine iff_of_false ?_ fun h => (clip_spec m _).1 hclip px py h.1 h.2
    rw [Rect.contains_iff]
    dsimp only
    omega
  | some r =>
    obtain ⟨-, hpts⟩ := (clip_spec m _).2 r hclip
    rw [← hpts px py]
    have hcap : r.w ≤ 44 ∧ r.h ≤ 48 := by
      rw [clip_eq, Option.ite_none_left_eq_some] at hclip
      obtain ⟨-, hclip⟩ := hclip
      cases hclip
      dsimp only
      constructor <;> split_ifs <;> omega
    dsimp only
    rw [if_neg (by omega), if_neg (by omega)]

/-- **Step.** The cursor is drawn inside of the saved rectangle. -/
theorem Redraw.Steady.box_subset (h : r.Steady c m) {px py : ℤ}
    (hbox : ((c.active r.textMode).box r.drawX r.drawY).contains px py = true) (hm : m.Has px py) :
    (cursorOverlayRectAt m (c.active r.sizeMode) r.x r.y).contains px py = true := by
  obtain ⟨hw, hh⟩ := active_size c r.textMode
  rw [cursorOverlayRectAt_contains]
  refine ⟨?_, hm⟩
  obtain ⟨hx0, hx1, hy0, hy1⟩ := hm
  obtain ⟨h1, h2, h3, h4⟩ := h
  rw [Rect.contains_iff, AssetBitmap.box, hw, hh] at hbox
  rw [Rect.contains_iff]
  dsimp only at hbox ⊢
  push_cast at hbox
  omega

theorem shows_none (base : Surface) : Shows base base Overlay.none :=
  ⟨.refl _ base, nofun, nofun⟩

/-- **Step.** Restoring brings the screen without the cursor back. -/
theorem Shows.restore (h : Shows base s o) :
    (restoreCursorOverlay s o).1 = base ∧ (restoreCursorOverlay s o).2.saved = false := by
  unfold restoreCursorOverlay
  cases hsaved : o.saved with
  | false =>
    refine ⟨Surface.ext h.changes.width h.changes.height h.changes.format ?_, hsaved⟩
    funext px py
    exact h.changes.pixel px py fun hp => absurd (hsaved.symm.trans hp.1) (by decide)
  | true =>
    have hne := h.nonempty hsaved
    rw [Bool.not_true, Bool.false_or, if_neg hne]
    refine ⟨Surface.ext h.changes.width h.changes.height h.changes.format ?_, rfl⟩
    funext px py
    dsimp only
    split_ifs with hin
    · exact h.background hsaved px py hin
    · exact h.changes.pixel px py fun hp => hin hp.2

/-- **Step.** What is saved is the screen without the cursor. -/
theorem Shows.save (h : Shows base s o) (c : Cursors) (m : Metrics) (r : Redraw) :
    (∀ st, saveCursorOverlay c m s o r = .inl st → Shows base st.1 st.2) ∧
    ∀ st, saveCursorOverlay c m s o r = .inr st → st.1 = base ∧ Shows base st.1 st.2 ∧
      st.2.rect = cursorOverlayRectAt m (c.active r.sizeMode) r.x r.y ∧ st.2.saved = true := by
  obtain ⟨hbase, hsaved⟩ := h.restore
  unfold saveCursorOverlay
  dsimp only
  split_ifs with hsame hempty
  · refine ⟨fun st hst => ?_, fun st hst => nomatch hst⟩
    cases hst
    exact h
  · refine ⟨fun st hst => ?_, fun st hst => nomatch hst⟩
    cases hst
    refine ⟨hbase ▸ .refl _ _, fun hs => ?_, fun hs => ?_⟩
    · exact nomatch hsaved.symm.trans hs
    · exact nomatch hsaved.symm.trans hs
  · refine ⟨fun st hst => (nomatch hst), fun st hst => ?_⟩
    cases hst
    refine ⟨hbase, ⟨hbase ▸ .refl _ _, fun _ px py _ => ?_, fun _ => hempty⟩, rfl, rfl⟩
    dsimp only
    rw [hbase, add_sub_cancel, add_sub_cancel]

section

variable (h : Shows base s o) (hm : m.width = base.width ∧ m.height = base.height)
  (hr : r.Steady c m)
include h hm hr

/-- What the drawing changes is inside of the rectangle saved just before. -/
theorem Shows.draw {st : Surface × Overlay} (hst : saveCursorOverlay c m s o r = .inr st) :
    st.1.ChangesOnly (fun px py => st.2.rect.contains px py = true)
      (assetsDrawCursor st.1 (c.active r.textMode) r.drawX r.drawY) := by
  obtain ⟨hbase, -, hrect, -⟩ := (h.save c m r).2 st hst
  refine (assetsDrawCursor_changesOnly st.1 (c.active r.textMode) r.drawX r.drawY).mono
    fun px py hp => ?_
  rw [hrect]
  refine hr.box_subset hp.1 ?_
  obtain ⟨hx0, hx1, hy0, hy1⟩ := hp.2
  rw [hbase] at hx1 hy1
  exact ⟨hx0, by omega, hy0, by omega⟩

theorem Shows.redraw :
    Shows base (redrawCursorOverlay c m s o r).1 (redrawCursorOverlay c m s o r).2 := by
  unfold redrawCursorOverlay
  cases hsave : saveCursorOverlay c m s o r with
  | inl st => exact (h.save c m r).1 st hsave
  | inr st =>
    obtain ⟨hbase, hshows, -, hsaved⟩ := (h.save c m r).2 st hsave
    have hdraw := h.draw hm hr hsave
    refine ⟨?_, hshows.background, hshows.nonempty⟩
    rw [hbase] at hdraw
    dsimp only
    rw [hbase]
    exact hdraw.mono fun px py hp => ⟨hsaved, hp⟩

end

/-- **Run.** -/
theorem Shows.run (hm : m.width = base.width ∧ m.height = base.height)
    (calls : List (Option Redraw))
    (hsteady : ∀ r, some r ∈ calls → r.Steady c m) {st : Surface × Overlay}
    (h : Shows base st.1 st.2) :
    Shows base (calls.foldl (overlayCall c m) st).1 (calls.foldl (overlayCall c m) st).2 := by
  induction calls generalizing st with
  | nil => exact h
  | cons call calls ih =>
    refine ih (fun r hr => hsteady r (mem_cons_of_mem _ hr)) ?_
    cases call with
    | none =>
      obtain ⟨hbase, hsaved⟩ := h.restore
      refine ⟨?_, fun hs => ?_, fun hs => ?_⟩
      · change base.ChangesOnly _ (restoreCursorOverlay st.1 st.2).1
        rw [hbase]
        exact .refl _ base
      · exact nomatch hsaved.symm.trans hs
      · exact nomatch hsaved.symm.trans hs
    | some r => exact h.redraw hm (hsteady r mem_cons_self)

/-- **The cursor leaves no trail while the reads are steady.** In every sequence of calls whose
reads are steady, what a redraw draws is inside of the rectangle saved just before, and after any
number of calls `restore_cursor_overlay` brings back the screen as it was before the cursor was
drawn. -/
theorem cursor_no_trail (c : Cursors) (m : Metrics) (base : Surface)
    (hm : m.width = base.width ∧ m.height = base.height) (calls : List (Option Redraw))
    (hsteady : ∀ r, some r ∈ calls → r.Steady c m) :
    (∀ before r after, calls = before ++ some r :: after →
      let st := before.foldl (overlayCall c m) (base, Overlay.none)
      ∀ saved, saveCursorOverlay c m st.1 st.2 r = .inr saved → ∀ px py,
        (assetsDrawCursor saved.1 (c.active r.textMode) r.drawX r.drawY).pixel px py ≠
            saved.1.pixel px py →
          saved.2.rect.contains px py = true) ∧
    let st := calls.foldl (overlayCall c m) (base, Overlay.none)
    (restoreCursorOverlay st.1 st.2).1 = base := by
  refine ⟨?_, (Shows.run hm calls hsteady (shows_none base)).restore.1⟩
  rintro before r after rfl st saved hsaved px py hchanged
  have hbefore : Shows base st.1 st.2 := Shows.run hm before
    (fun r hr => hsteady r (mem_append_left _ hr)) (shows_none base)
  have hr : r.Steady c m := hsteady r (mem_append_right _ mem_cons_self)
  by_contra hout
  exact hchanged ((hbefore.draw hm hr hsaved).pixel px py hout)

/-- Cursors without transparent pixels. -/
def solidCursors : Cursors := ⟨fun _ => 0xFFFFFFFF, fun _ => 0xFFFFFFFF⟩

/-- The mouse moves by five pixels between the reads. -/
theorem cursor_no_trail_slow :
    let st := [some (Redraw.mk true false false 100 100 105 95)].foldl
      (overlayCall solidCursors ⟨640, 480, 30⟩) (vgaScreen, Overlay.none)
    st.1.pixel 104 94 = 0xFFFFFF ∧ (restoreCursorOverlay st.1 st.2).1 = vgaScreen := by
  refine ⟨by decide +kernel, ?_⟩
  refine (cursor_no_trail solidCursors ⟨640, 480, 30⟩ vgaScreen ⟨rfl, rfl⟩ _ fun r hr => ?_).2
  obtain rfl := Option.some.inj (mem_singleton.mp hr)
  decide

/-- **A trail.** A mouse packet moves the mouse 100 pixels to the right between the reads: the
cursor is drawn outside of the saved rectangle and stays on the screen. -/
theorem cursor_trail :
    let st := redrawCursorOverlay solidCursors ⟨640, 480, 30⟩ vgaScreen Overlay.none
      ⟨true, false, false, 100, 100, 200, 100⟩
    st.1.pixel 200 100 = 0xFFFFFF ∧ vgaScreen.pixel 200 100 = 0 ∧
      st.2.rect.contains 200 100 = false ∧
      (restoreCursorOverlay st.1 st.2).1.pixel 200 100 = 0xFFFFFF := by
  decide +kernel

end MyOS.Gui
