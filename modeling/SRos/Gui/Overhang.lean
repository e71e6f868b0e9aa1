import SRos.Gui.Creation
import SRos.Gui.Partition

/-!
# Drawing outside of the own rectangle

The title text starts at the left edge and the close button is placed from the right edge. What
is left between them is computed with unsigned differences, and every store is clipped against
the screen only. So a narrow window draws next to itself, and its close button is where the
window is not.
-/

namespace SRos.Gui

open Stores

/-- A window that `wm_create_window` returns for a content area of this size. -/
def Window.Returned (w : Window) (contentW contentH : Nat) (title : CStr) : Prop :=
  ∃ fuel g x y object buffer g' win,
    wmCreateWindow fuel g x y contentW contentH title object buffer = some (g', some win) ∧
      g'.heap win = some w

/-- All edges of the window fit into an `i32`. -/
structure Window.Representable (w : Window) : Prop where
  left : -2 ^ 31 ≤ w.x
  top : -2 ^ 31 ≤ w.y
  right : w.x + w.width < 2 ^ 31
  bottom : w.y + w.height < 2 ^ 31

/-- Drawing the window changes no pixel outside of its rectangle, and its close button is in the
rectangle. -/
structure StaysInside (fb : Framebuffer) (w : Window) : Prop where
  frame : ∀ vram px py, px < fb.width → py < fb.height → ¬ w.Covers px py →
    perform (drawWindowFrame fb w) vram (fb.pixel px py) = vram (fb.pixel px py)
  content : ∀ vram px py, px < fb.width → py < fb.height → ¬ w.Covers px py →
    perform (drawWindowContent fb w) vram (fb.pixel px py) = vram (fb.pixel px py)
  closeBtn : ∀ g win px py, g.heap win = some w →
    wmIsInCloseBtn g (some win) px py = some true →
      w.x ≤ px ∧ px < w.x + w.width ∧ w.y ≤ py ∧ py < w.y + w.height

/-- The close button has place in the title bar, and so has the title, unless its limit is at work
or no row of it can be on the screen. -/
structure Roomy (contentW contentH : Nat) (title : CStr) : Prop where
  width : 15 ≤ contentW ∧ contentW + 4 < 2 ^ 32
  height : contentH + 22 < 2 ^ 32
  title : 24 ≤ contentW ∨ 2 + 8 * min title.bytes.length wmMaxTitleLen ≤ contentW ∨
    2 ^ 31 < contentH + 4

/-! ## The window that is returned -/

/-- What `wm_create_window` makes of its arguments, apart from the position. -/
structure Window.OfSize (w : Window) (contentW contentH : Nat) (title : CStr) : Prop where
  size : computeWindowSize w = w
  contentW : w.contentW = contentW
  contentH : w.contentH = contentH
  title : w.title = title.bytes.take wmMaxTitleLen

section Returned

variable {w w' : Window} {contentW contentH : Nat} {title : CStr}

theorem Window.OfSize.marked (h : w.OfSize contentW contentH title) (hmarked : w.Marked w') :
    w'.OfSize contentW contentH title := by
  obtain ⟨zOrder, focused, dirty, next, rfl⟩ := hmarked
  exact ⟨congrArg (fun v : Window => { v with zOrder, focused, dirty, next }) h.size, h.contentW,
    h.contentH, h.title⟩

theorem Window.OfSize.moved (h : w.OfSize contentW contentH title) (x y : Int) :
    Window.OfSize { w with x, y } contentW contentH title :=
  ⟨congrArg (fun v : Window => { v with x, y }) h.size, h.contentW, h.contentH, h.title⟩

theorem Window.OfSize.width_eq (h : w.OfSize contentW contentH title) :
    w.width = u32 (contentW + 4) := by
  rw [← h.contentW]
  exact (congrArg Window.width h.size).symm

theorem Window.OfSize.height_eq (h : w.OfSize contentW contentH title) :
    w.height = u32 (contentH + 22) := by
  rw [← h.contentH]
  exact (congrArg Window.height h.size).symm

theorem Window.OfSize.title_length (h : w.OfSize contentW contentH title) :
    w.title.length = min title.bytes.length wmMaxTitleLen := by
  rw [h.title, List.length_take, Nat.min_comm]

/-- Every window of the later state is one of the earlier state, up to its flags and its place in
the list. -/
def MarkedOnly (g g' : State) : Prop :=
  ∀ p w', g'.heap p = some w' → ∃ w, g.heap p = some w ∧ w.Marked w'

theorem markedOnly_frame : MarkFrame MarkedOnly where
  refl _ _ w hw := ⟨w, hw, .refl w⟩
  trans := by
    intro g g' g'' h h' p w'' hw''
    obtain ⟨w', hw', hmarked'⟩ := h' p w'' hw''
    obtain ⟨w, hw, hmarked⟩ := h p w' hw'
    exact ⟨w, hw, hmarked.trans hmarked'⟩
  wm _ _ _ w hw := ⟨w, hw, .refl w⟩
  mark := by
    intro g g' win f hf h p w' hw'
    obtain ⟨v, hv, h⟩ := Option.bind_eq_some_iff.mp h
    obtain rfl := Option.some.inj h
    dsimp only at hw'
    by_cases heq : p = win
    · subst heq
      rw [Function.update_self] at hw'
      obtain rfl := Option.some.inj hw'
      exact ⟨v, hv, hf v⟩
    · rw [Function.update_of_ne heq] at hw'
      exact ⟨w', hw', .refl w'⟩

theorem Window.Returned.ofSize (h : w.Returned contentW contentH title) :
    w.OfSize contentW contentH title := by
  obtain ⟨fuel, g, x, y, object, buffer, g', win, hcreate, hw⟩ := h
  unfold wmCreateWindow at hcreate
  split at hcreate
  · simp at hcreate
  split at hcreate
  · simp at hcreate
  split at hcreate
  · simp at hcreate
  obtain ⟨z, -, hcreate⟩ := Option.bind_eq_some_iff.mp hcreate
  obtain ⟨g₁, hg₁, hcreate⟩ := Option.bind_eq_some_iff.mp hcreate
  obtain ⟨g₂, hg₂, hcreate⟩ := Option.bind_eq_some_iff.mp hcreate
  obtain ⟨g₃, hg₃, hcreate⟩ := Option.bind_eq_some_iff.mp hcreate
  obtain ⟨rfl, hwin⟩ := Prod.mk.inj (Option.some.inj hcreate)
  obtain rfl := Option.some.inj hwin
  have hinserted := markedOnly_frame.trans
    (markedOnly_frame.mark (fun _ => ⟨_, _, _, _, rfl⟩) hg₁) (markedOnly_frame.insertSorted hg₂)
  obtain ⟨v, hv, hmarked⟩ := markedOnly_frame.focusWindow hg₃ _ w hw
  obtain ⟨v', hv', hmarked'⟩ := hinserted _ v hv
  dsimp only at hv'
  rw [Function.update_self] at hv'
  obtain rfl := Option.some.inj hv'
  exact Window.OfSize.marked ⟨rfl, rfl, rfl, rfl⟩ (hmarked'.trans hmarked)

/-- The first window after `wm_init`, when there is memory for it. -/
theorem exists_returned (contentW contentH : Nat) (title : CStr) :
    ∃ w : Window, w.Returned contentW contentH title :=
  ⟨_, 1, bootGui, 0, 0, some 1, some fun _ => 0, _, 1, rfl, rfl⟩

end Returned

/-! ## Wide windows -/

section Roomy

variable {fb : Framebuffer} {w : Window} {contentW contentH px py : Nat} {title : CStr}

/-- Stores that hit no other pixel of the screen than those of a window. -/
theorem unchanged_of_hits {ss : List Store} (h : Hits fb px py ss → w.Covers px py)
    (hout : ¬ w.Covers px py) (vram : Nat → Nat) :
    perform ss vram (fb.pixel px py) = vram (fb.pixel px py) :=
  perform_of_notMem fun hmem => hout (h hmem)

theorem Roomy.spans (h : Roomy contentW contentH title) (hw : w.OfSize contentW contentH title)
    (hrepr : w.Representable) : w.Spans where
  width := by rw [hw.width_eq, hw.contentW, u32_of_lt h.width.2]
  height := by rw [hw.height_eq, hw.contentH, u32_of_lt h.height]
  left := hrepr.left
  top := hrepr.top
  right := hrepr.right
  bottom := hrepr.bottom

/-- Without its limit the title is cut after 31 characters only. -/
theorem le_maxTitleChars (hlow : 19 ≤ w.width) (hhigh : w.width < 28) :
    wmMaxTitleLen ≤ maxTitleChars w := by
  unfold maxTitleChars wmMaxTitleLen wmBorderWidth wmCloseBtnW wmCloseBtnMarg fontCharWidth u32Sub u32
  omega

/-- The text of the title stays inside the rectangle. -/
theorem Roomy.covers_drawTitleText (h : Roomy contentW contentH title)
    (hw : w.OfSize contentW contentH title) (hrepr : w.Representable) (hfb : fb.Apart)
    (hpx : px < fb.width) (hpy : py < fb.height) (t v : Nat)
    (hit : Hits fb px py (drawTitleText fb w (i32 (w.y + wmBorderWidth)) t v)) :
    w.Covers px py := by
  have hspans := h.spans hw hrepr
  have hbounds := hspans.bounds
  have hcontentW := hw.contentW
  have hcontentH := hw.contentH
  by_cases hwide : 28 ≤ w.width
  · have htext := bounds_of_hits_drawTitleText hfb hspans hwide hpx hpy _ _ hit
    unfold Window.Covers
    omega
  · have hwidth := h.width.1
    have hlength := hw.title_length
    have hle : w.title.length ≤ wmMaxTitleLen := by omega
    have hlimit := le_maxTitleChars (w := w) (by omega) (by omega)
    rw [hits_drawTitleText hfb hspans (by unfold wmMaxTitleLen at hle; omega) hpx hpy] at hit
    obtain ⟨⟨ci, hci, col, hcol, hx⟩, htop, hbottom⟩ := hit
    have htitle := h.title
    unfold Window.Covers
    omega

/-- The points that `wm_is_in_close_btn` accepts. -/
theorem wmIsInCloseBtn_iff {g : State} {win : Ptr} {x y : Int} (hwin : g.heap win = some w)
    (hx : -2 ^ 31 ≤ w.x + w.width - 19 ∧ w.x + w.width < 2 ^ 31)
    (hy : -2 ^ 31 ≤ w.y ∧ w.y + 19 < 2 ^ 31) :
    wmIsInCloseBtn g (some win) x y = some true ↔
      (w.x + w.width - 19 ≤ x ∧ x < w.x + w.width - 5) ∧ w.y + 5 ≤ y ∧ y < w.y + 19 := by
  have hbtnX : i32 (w.x + int32 w.width - wmBorderWidth - wmCloseBtnMarg - wmCloseBtnW) =
      w.x + w.width - 19 := by
    unfold i32 int32 u32OfInt wmBorderWidth wmCloseBtnMarg wmCloseBtnW
    omega
  have hbtnY : i32 (w.y + wmBorderWidth + (wmTitleHeight - wmCloseBtnH) / 2) = w.y + 5 := by
    unfold wmBorderWidth wmTitleHeight wmCloseBtnH
    rw [i32_of_range (by omega) (by omega)]
    omega
  simp only [wmIsInCloseBtn, hwin, Option.bind_eq_bind, Option.bind_some, Option.pure_def,
    Option.some.injEq, hbtnX, hbtnY]
  rw [decide_eq_true_iff, i32_of_range (by unfold wmCloseBtnW; omega) (by unfold wmCloseBtnW; omega),
    i32_of_range (by unfold wmCloseBtnH; omega) (by unfold wmCloseBtnH; omega)]
  unfold wmCloseBtnW wmCloseBtnH
  omega

theorem Roomy.staysInside (h : Roomy contentW contentH title)
    (hw : w.OfSize contentW contentH title) (hrepr : w.Representable) (hfb : fb.Placed) :
    StaysInside fb w := by
  have hspans := h.spans hw hrepr
  have hbounds := hspans.bounds
  have hcontentW := hw.contentW
  have hwidth := h.width.1
  refine ⟨?_, ?_, ?_⟩
  · intro vram px py hpx hpy hout
    refine unchanged_of_hits (fun hit => ?_) hout vram
    have hfb := hfb.apart hpx hpy
    simp only [drawWindowFrame, hits_append, hits_drawBorder hfb hspans hpx hpy,
      hits_drawTitleBar hfb (w := w) (by omega) (by omega) (by omega) hpx hpy] at hit
    rcases hit with ((hit | hit) | hit) | hit
    · exact hit.1
    · unfold Window.Covers
      omega
    · exact h.covers_drawTitleText hw hrepr hfb hpx hpy _ _ hit
    · have hbutton := bounds_of_hits_drawCloseButton hfb hspans (by omega) hpx hpy _ _ hit
      unfold Window.Covers
      omega
  · intro vram px py hpx hpy hout
    refine unchanged_of_hits (fun hit => ?_) hout vram
    have hfb := hfb.apart hpx hpy
    cases hbuffer : w.buffer with
    | none =>
        rw [drawWindowContent, hbuffer] at hit
        exact absurd hit List.not_mem_nil
    | some buffer =>
        rw [hits_drawWindowContent hfb hspans (by rw [hbuffer]; rfl) hpx hpy] at hit
        unfold Window.Covers
        omega
  · intro g win px py hwin haccept
    rw [wmIsInCloseBtn_iff hwin (by omega) (by omega)] at haccept
    omega

end Roomy

/-! ## Small windows -/

section Small

variable {fb : Framebuffer} {w : Window} {contentW contentH px py : Nat} {title : CStr}

theorem not_staysInside_of_hits (hpx : px < fb.width) (hpy : py < fb.height)
    (hit : Hits fb px py (drawWindowFrame fb w)) (hout : ¬ w.Covers px py) :
    ¬ StaysInside fb w := by
  intro h
  have hzero := h.frame (fun _ => 0) px py hpx hpy hout
  have hone := h.frame (fun _ => 1) px py hpx hpy hout
  rw [perform_of_mem hit, hone] at hzero
  exact absurd hzero (by decide)

/-- The close button begins left of a window that is narrower than what is right of the left edge
of the button. -/
theorem not_staysInside_of_width (hwidth : w.width < 19) (hleft : -2 ^ 31 ≤ w.x + w.width - 19)
    (hright : w.x + w.width < 2 ^ 31) (hy : -2 ^ 31 ≤ w.y ∧ w.y + 19 < 2 ^ 31) :
    ¬ StaysInside fb w := by
  intro h
  let g : State := { bootGui with heap := fun _ => some w }
  have haccept : wmIsInCloseBtn g (some 1) (w.x + w.width - 19) (w.y + 5) = some true := by
    rw [wmIsInCloseBtn_iff rfl ⟨hleft, hright⟩ hy]
    omega
  have hinside := h.closeBtn g 1 _ _ rfl haccept
  omega

/-- The title bar has 20 rows also where the height has wrapped around. -/
theorem not_staysInside_of_height (hfb : fb.Placed) (hscreen : 2 < fb.width ∧ 21 < fb.height)
    (hwidth : 4 ≤ w.width) (hheight : w.height ≤ 21)
    (hx : (-2 ^ 31 ≤ w.x ∧ w.x ≤ 0) ∧ 4 < w.x + w.width ∧ w.x + w.width < 2 ^ 31)
    (hy : w.y = 0) : ¬ StaysInside fb w := by
  have hbar : Hits fb 2 21 (drawTitleBar fb w (i32 (w.y + wmBorderWidth))
      (colorToPixel (if w.focused then wmTitleActive else wmTitleInactive))) := by
    rw [hits_drawTitleBar (hfb.apart hscreen.1 hscreen.2) hwidth (by omega) (by omega) hscreen.1
      hscreen.2]
    omega
  refine not_staysInside_of_hits hscreen.1 hscreen.2 ?_ (by unfold Window.Covers; omega)
  simp only [drawWindowFrame, hits_append]
  exact .inl (.inl (.inr hbar))

/-- Where the limit of the title wraps around, the last character may be right of the window. -/
theorem not_staysInside_of_title (hfb : fb.Placed) (hw : w.Spans)
    (hscreen : 6 + 8 * w.title.length ≤ fb.width ∧ 19 < fb.height)
    (hlow : 19 ≤ w.width) (hhigh : w.width < 28) (htitle : w.title.length ≤ wmMaxTitleLen)
    (hlong : w.width < 6 + 8 * w.title.length) (hx : w.x = 0) (hy : -19 ≤ w.y ∧ w.y ≤ 0) :
    ¬ StaysInside fb w := by
  have hlimit := le_maxTitleChars hlow hhigh
  have hpx : 5 + 8 * w.title.length < fb.width := by omega
  have hpy : (w.y + 19).toNat < fb.height := by omega
  have htext : Hits fb (5 + 8 * w.title.length) (w.y + 19).toNat
      (drawTitleText fb w (i32 (w.y + wmBorderWidth)) (colorToPixel wmTitleText)
        (colorToPixel (if w.focused then wmTitleActive else wmTitleInactive))) := by
    rw [hits_drawTitleText (hfb.apart hpx hpy) hw (by unfold wmMaxTitleLen at htitle; omega) hpx hpy]
    exact ⟨⟨w.title.length - 1, by omega, 7, by omega, by omega⟩, by omega⟩
  refine not_staysInside_of_hits hpx hpy ?_ (by unfold Window.Covers; omega)
  simp only [drawWindowFrame, hits_append]
  exact .inl (.inr htext)

/-- A window that is too small has a position at which it draws outside of its rectangle. -/
theorem Window.OfSize.overhangs (h : w.OfSize contentW contentH title)
    (hsize : contentW < 2 ^ 32 ∧ contentH < 2 ^ 32) (hsmall : ¬ Roomy contentW contentH title) :
    ∃ x y, Window.Representable { w with x, y } ∧ ¬ StaysInside bootScreen { w with x, y } := by
  have hwidth := h.width_eq
  have hheight := h.height_eq
  have hlength := h.title_length
  unfold u32 at hwidth hheight
  by_cases hnarrow : w.width < 19
  · refine ⟨0, -2 ^ 31, ⟨?_, ?_, ?_, ?_⟩, not_staysInside_of_width hnarrow ?_ ?_ ?_⟩ <;>
      dsimp only <;> omega
  by_cases hflat : w.height ≤ 21
  · refine ⟨min 0 (2 ^ 31 - 1 - w.width), 0, ⟨?_, ?_, ?_, ?_⟩,
      not_staysInside_of_height bootScreen_placed (by decide) ?_ hflat ?_ rfl⟩ <;>
      dsimp only <;> omega
  -- no side has wrapped around, so that the title is too long
  have hlong : ¬ (24 ≤ contentW ∨ 2 + 8 * w.title.length ≤ contentW ∨ 2 ^ 31 < contentH + 4) := by
    intro htitle
    rw [hlength] at htitle
    exact hsmall ⟨by omega, by omega, htitle⟩
  have hle : w.title.length ≤ 31 := by
    rw [hlength]
    exact Nat.min_le_right _ _
  have hrepr : Window.Representable { w with x := 0, y := min 0 (2 ^ 31 - 1 - w.height) } := by
    constructor <;> dsimp only <;> omega
  refine ⟨_, _, hrepr, ?_⟩
  have hspans : Window.Spans { w with x := 0, y := min 0 (2 ^ 31 - 1 - w.height) } :=
    ⟨by rw [h.contentW]; dsimp only; omega, by rw [h.contentH]; dsimp only; omega, hrepr.left,
      hrepr.top, hrepr.right, hrepr.bottom⟩
  have hscreen : 6 + 8 * 31 ≤ bootScreen.width ∧ 19 < bootScreen.height := by decide
  apply not_staysInside_of_title bootScreen_placed hspans <;> dsimp only
  · omega
  · omega
  · omega
  · exact hle
  · omega
  · omega

end Small

/-- Every window that `wm_create_window` can return for a size and a title stays inside its
rectangle at every position exactly when there is room for the close button and the title. -/
theorem draws_inside_iff {contentW contentH : Nat} (hw : contentW < 2 ^ 32)
    (hh : contentH < 2 ^ 32) (title : CStr) :
    (∀ w : Window, w.Returned contentW contentH title → ∀ x y,
      Window.Representable { w with x, y } → ∀ fb : Framebuffer, fb.Placed →
        StaysInside fb { w with x, y }) ↔ Roomy contentW contentH title := by
  constructor
  · intro hinside
    by_contra hsmall
    obtain ⟨w, hw'⟩ := exists_returned contentW contentH title
    obtain ⟨x, y, hrepr, hout⟩ := hw'.ofSize.overhangs ⟨hw, hh⟩ hsmall
    exact hout (hinside w hw' x y hrepr bootScreen bootScreen_placed)
  · intro hroomy w hw' x y hrepr fb hfb
    exact hroomy.staysInside (hw'.ofSize.moved x y) hrepr hfb

/-- A content of 24 by 1 pixels is wide enough. -/
theorem draws_inside_wide : Roomy 24 1 CStr.empty ∧
    ∀ w : Window, w.Returned 24 1 CStr.empty → ∀ x y, Window.Representable { w with x, y } →
      ∀ fb : Framebuffer, fb.Placed → StaysInside fb { w with x, y } := by
  have hroomy : Roomy 24 1 CStr.empty := ⟨by decide, by decide, .inl (by decide)⟩
  exact ⟨hroomy, (draws_inside_iff (by decide) (by decide) CStr.empty).mpr hroomy⟩

/-- The close button of a window with a content of 1 by 1 pixels begins 14 pixels left of it. -/
theorem draws_outside : ∃ w : Window, w.Returned 1 1 CStr.empty ∧
    Window.Representable { w with x := 100, y := 100 } ∧
    ¬ StaysInside bootScreen { w with x := 100, y := 100 } := by
  obtain ⟨w, hw⟩ := exists_returned 1 1 CStr.empty
  have hwidth : w.width = 5 := hw.ofSize.width_eq
  have hheight : w.height = 23 := hw.ofSize.height_eq
  refine ⟨w, hw, ⟨?_, ?_, ?_, ?_⟩, not_staysInside_of_width ?_ ?_ ?_ ?_⟩ <;> dsimp only <;> omega

end SRos.Gui
