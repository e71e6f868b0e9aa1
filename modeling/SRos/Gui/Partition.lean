import SRos.Gui.Clipping

/-!
# Border, title bar and content of a window

`compute_window_size` adds one border to the height, while the content starts below the upper
border and the title bar. So the content reaches to the lower edge of the window, and its last two
rows are drawn over the lower border.
-/

namespace SRos.Gui

open Stores

/-! ## The values that are stored -/

/-- All stores have one value. -/
def Uniform (v : Nat) (ss : List Store) : Prop := ∀ s ∈ ss, s.2 = v

section Uniform

variable {fb : Framebuffer} {v px py : Nat} {ss ts : List Store}

theorem uniform_put (sx sy : Nat) : Uniform v (put fb sx sy v) := by
  intro s hs
  unfold put at hs
  split at hs
  · rw [List.mem_singleton.mp hs]
  · simp at hs

theorem Uniform.append (h : Uniform v ss) (h' : Uniform v ts) : Uniform v (ss ++ ts) := by
  intro s hs
  rcases List.mem_append.mp hs with hs | hs
  · exact h s hs
  · exact h' s hs

theorem uniform_flatMap {ns : List Nat} {f : Nat → List Store} (h : ∀ n, Uniform v (f n)) :
    Uniform v (ns.flatMap f) := by
  intro s hs
  obtain ⟨n, -, hn⟩ := List.mem_flatMap.mp hs
  exact h n s hn

theorem uniform_drawBorder (w : Window) : Uniform v (drawBorder fb w v) :=
  uniform_flatMap fun _ =>
    (((uniform_flatMap fun _ => uniform_put _ _).append
      (uniform_flatMap fun _ => uniform_put _ _)).append
      (uniform_flatMap fun _ => uniform_put _ _)).append
      (uniform_flatMap fun _ => uniform_put _ _)

theorem uniform_drawTitleBar (w : Window) (titleY : Int) :
    Uniform v (drawTitleBar fb w titleY v) :=
  uniform_flatMap fun _ => uniform_flatMap fun _ => uniform_put _ _

/-- A pixel that stores of one value hit shows that value. -/
theorem Uniform.perform (h : Uniform v ss) (hit : Hits fb px py ss) (m : Nat → Nat) :
    Stores.perform ss m (fb.pixel px py) = v := by
  obtain ⟨⟨a, u⟩, hs, ha⟩ := List.mem_map.mp hit
  obtain rfl : u = v := h _ hs
  obtain rfl : a = fb.pixel px py := ha
  exact perform_of_forall hs fun u' hu' => h _ hu'

end Uniform

/-! ## The parts of a window -/

/-- The two outermost pixels of the rectangle on every side. -/
def Window.Border (w : Window) (px py : Nat) : Prop :=
  w.Covers px py ∧
    (px < w.x + 2 ∨ w.x + w.width - 2 ≤ px ∨ py < w.y + 2 ∨ w.y + w.height - 2 ≤ py)

def Window.TitleBar (w : Window) (px py : Nat) : Prop :=
  w.x + 2 ≤ px ∧ px < w.x + w.width - 2 ∧ w.y + 2 ≤ py ∧ py < w.y + 22

def Window.Content (w : Window) (px py : Nat) : Prop :=
  w.x + 2 ≤ px ∧ px < w.x + 2 + w.contentW ∧ w.y + 22 ≤ py ∧ py < w.y + 22 + w.contentH

/-- Border, title bar and content area partition the rectangle of the window. -/
structure Window.Partitioned (w : Window) : Prop where
  covers : ∀ px py, w.Covers px py ↔ w.Border px py ∨ w.TitleBar px py ∨ w.Content px py
  titleBar : ∀ px py, w.Border px py → ¬ w.TitleBar px py
  content : ∀ px py, w.Content px py → ¬ w.Border px py ∧ ¬ w.TitleBar px py

def Window.borderPixel (w : Window) : Nat :=
  colorToPixel (if w.focused then wmBorderActive else wmBorderInactive)

/-- The border shows its color, and the content pixel `(rx, ry)` is shown at
`(x + 2 + rx, y + 22 + ry)`. -/
structure PartsShown (fb : Framebuffer) (w : Window) (buffer screen : Nat → Nat) : Prop where
  border : ∀ px py, w.Border px py → screen (fb.pixel px py) = w.borderPixel
  content : ∀ rx ry, rx < w.contentW → ry < w.contentH → ∃ px py : Nat,
    ((px : Int) = w.x + 2 + rx ∧ (py : Int) = w.y + 22 + ry) ∧ (px < fb.width ∧ py < fb.height) ∧
      screen (fb.pixel px py) = buffer (ry * w.contentW + rx)

/-- The sizes that `wm_create_window` gives a window. -/
structure Window.Created (w : Window) : Prop where
  size : computeWindowSize w = w
  contentW : 24 ≤ w.contentW ∧ w.contentW < 2 ^ 32
  contentH : 1 ≤ w.contentH ∧ w.contentH < 2 ^ 32

theorem newWindow_created {contentW contentH : Nat} (hw : 24 ≤ contentW ∧ contentW < 2 ^ 32)
    (hh : 1 ≤ contentH ∧ contentH < 2 ^ 32) (x y : Int) (title : CStr) (old : Nat → Nat) :
    (newWindow x y contentW contentH title old).Created where
  size := rfl
  contentW := hw
  contentH := hh

/-- The whole window is on the screen. -/
def Window.Inside (w : Window) (fb : Framebuffer) : Prop :=
  (0 ≤ w.x ∧ w.x + w.width ≤ fb.width) ∧ 0 ≤ w.y ∧ w.y + w.height ≤ fb.height

/-- The size of the window does not wrap around, and the last two rows of its content, of at least
two, look like the border. -/
def LastRowsLikeBorder (w : Window) (buffer : Nat → Nat) : Prop :=
  (w.contentW + 4 < 2 ^ 32 ∧ w.contentH + 22 < 2 ^ 32) ∧ 2 ≤ w.contentH ∧
    ∀ rx ry, rx < w.contentW → ry < w.contentH → w.contentH ≤ ry + 2 →
      buffer (ry * w.contentW + rx) = w.borderPixel

section Parts

variable {fb : Framebuffer} {w : Window} {buffer vram : Nat → Nat} {px py : Nat}

theorem Framebuffer.Placed.apart (h : fb.Placed) (hx : px < fb.width) (hy : py < fb.height) :
    fb.Apart := by
  obtain ⟨hwidth, hheight⟩ := h.size_lt hx hy
  obtain ⟨-, hpixels⟩ := h.line_lt hx hy
  exact ⟨by omega, by omega, h.pitch, by omega⟩

theorem Window.Created.width_eq (h : w.Created) : w.width = u32 (w.contentW + 4) :=
  (congrArg Window.width h.size).symm

theorem Window.Created.height_eq (h : w.Created) : w.height = u32 (w.contentH + 22) :=
  (congrArg Window.height h.size).symm

/-- A window inside the screen whose size does not wrap around. -/
theorem Window.Created.fits (h : w.Created) (hfb : fb.Placed) (hin : w.Inside fb)
    (hbuffer : w.buffer = some buffer)
    (hsize : w.contentW + 4 < 2 ^ 32 ∧ w.contentH + 22 < 2 ^ 32) :
    w.Fits ∧ w.width = w.contentW + 4 ∧ w.height = w.contentH + 22 := by
  have hwidth := h.width_eq
  have hheight := h.height_eq
  rw [u32_of_lt hsize.1] at hwidth
  rw [u32_of_lt hsize.2] at hheight
  obtain ⟨⟨hleft, hright⟩, htop, hbottom⟩ := hin
  have hcontentW := h.contentW.1
  have hcontentH := h.contentH.1
  have hfbw : 0 < fb.width := by omega
  have hfbh : 0 < fb.height := by omega
  obtain ⟨hsizew, hsizeh⟩ := hfb.size_lt hfbw hfbh
  obtain ⟨-, hpixels⟩ := hfb.line_lt hfbw hfbh
  have hpitch := hfb.pitch
  have hwords : w.contentW * w.contentH ≤ fb.pitchDwords * fb.height :=
    Nat.mul_le_mul (by omega) (by omega)
  rw [Nat.mul_comm fb.pitchDwords] at hwords
  refine ⟨⟨h.size, hcontentW, hcontentH, by rw [hbuffer]; rfl, by omega, by omega, by omega,
    by omega, by omega⟩, hwidth, hheight⟩

/-- Where every content pixel is on the screen, the size of the window does not wrap around. -/
theorem PartsShown.size (h : PartsShown fb w buffer vram) (hw : w.Created) (hin : w.Inside fb)
    (hfb : fb.Placed) : w.contentW + 4 < 2 ^ 32 ∧ w.contentH + 22 < 2 ^ 32 := by
  have hcontentW := hw.contentW.1
  have hcontentH := hw.contentH.1
  obtain ⟨px, py, ⟨hpx, hpy⟩, ⟨hx, hy⟩, -⟩ :=
    h.content (w.contentW - 1) (w.contentH - 1) (by omega) (by omega)
  obtain ⟨hwidth, hheight⟩ := hfb.size_lt hx hy
  obtain ⟨⟨hleft, -⟩, htop, -⟩ := hin
  omega

/-- The three areas overlap, or the content sticks out of the rectangle. -/
theorem Window.Created.not_partitioned (h : w.Created) (hin : w.Inside fb) : ¬ w.Partitioned := by
  intro hpart
  have hwidth := h.width_eq
  have hheight := h.height_eq
  have hcontentW := h.contentW
  have hcontentH := h.contentH
  obtain ⟨⟨hleft, -⟩, htop, -⟩ := hin
  -- the last content pixel
  have hcontent : w.Content (w.x + 1 + w.contentW).toNat (w.y + 21 + w.contentH).toNat := by
    unfold Window.Content
    omega
  have hcovers := (hpart.covers _ _).mpr (.inr (.inr hcontent))
  refine (hpart.content _ _ hcontent).1 ⟨hcovers, ?_⟩
  unfold Window.Covers at hcovers
  unfold u32 at hwidth hheight
  omega

/-! ## The final picture -/

/-- What the content loop leaves at the place of a content pixel. -/
theorem perform_drawWindowContent (h : fb.Apart) (hw : w.Fits) (hbuffer : w.buffer = some buffer)
    {rx ry : Nat} (hrx : rx < w.contentW) (hry : ry < w.contentH)
    (hpx : (px : Int) = w.x + 2 + rx) (hpy : (py : Int) = w.y + 22 + ry)
    (hx : px < fb.width) (hy : py < fb.height) (m : Nat → Nat) :
    perform (drawWindowContent fb w) m (fb.pixel px py) = buffer (ry * w.contentW + rx) := by
  have hbounds := hw.bounds
  have hwords := hw.words
  have hcell := cell_lt hrx hry
  have hcontentX : i32 (w.x + wmBorderWidth) = w.x + 2 := by
    unfold wmBorderWidth
    exact i32_of_range (by omega) (by omega)
  have hcontentY : i32 (w.y + wmBorderWidth + wmTitleHeight) = w.y + 22 := by
    unfold wmBorderWidth wmTitleHeight
    rw [i32_of_range (by omega) (by omega)]
    omega
  have hmem : ∀ v, (fb.pixel px py, v) ∈ drawWindowContent fb w ↔
      ∃ ry' < w.contentH, ∃ rx' < w.contentW, (fb.pixel px py, v) ∈
        put fb (u32OfInt (w.x + 2 + rx')) (u32OfInt (w.y + 22 + ry'))
          (buffer (u32 (ry' * w.contentW + rx'))) := by
    intro v
    simp only [drawWindowContent, hbuffer, hcontentX, hcontentY, List.mem_flatMap, List.mem_range]
  have hcoord : u32OfInt (w.x + 2 + rx) = px ∧ u32OfInt (w.y + 22 + ry) = py := by
    rw [← hpx, ← hpy]
    have hwidth := h.width
    have hheight := h.height
    rw [u32OfInt_of_nonneg (by omega) (by omega), u32OfInt_of_nonneg (by omega) (by omega)]
    exact ⟨Int.toNat_natCast px, Int.toNat_natCast py⟩
  apply perform_of_forall
  · rw [hmem]
    refine ⟨ry, hry, rx, hrx, ?_⟩
    rw [hcoord.1, hcoord.2, u32_of_lt (by omega)]
    unfold put
    rw [if_pos ⟨hx, hy⟩]
    exact List.mem_singleton_self _
  · intro v hv
    obtain ⟨ry', hry', rx', hrx', hput⟩ := (hmem v).mp hv
    have hhits : Hits fb px py (put fb (u32OfInt (w.x + 2 + rx')) (u32OfInt (w.y + 22 + ry'))
        (buffer (u32 (ry' * w.contentW + rx')))) := List.mem_map_of_mem hput
    rw [hits_put_int h hx hy (by omega) (by omega)] at hhits
    obtain rfl : rx' = rx := by omega
    obtain rfl : ry' = ry := by omega
    have hvalue := uniform_put _ _ _ hput
    rw [u32_of_lt (by omega)] at hvalue
    exact hvalue

/-- A pixel of the frame that neither the text nor the close button nor the content hits. -/
theorem perform_drawWindow_frame (h : fb.Apart) (hw : w.Fits) (hx : px < fb.width)
    (hy : py < fb.height) (htext : py < w.y + 4 ∨ w.y + 20 ≤ py ∨ px < w.x + 2 ∨
      w.x + w.width - 2 ≤ px) (hcontent : ¬ Hits fb px py (drawWindowContent fb w)) :
    perform (drawWindow fb w) vram (fb.pixel px py) =
      perform (drawTitleBar fb w (i32 (w.y + wmBorderWidth))
        (colorToPixel (if w.focused then wmTitleActive else wmTitleInactive)))
        (perform (drawBorder fb w w.borderPixel) vram) (fb.pixel px py) := by
  have hbounds := hw.bounds
  unfold drawWindow drawWindowFrame
  dsimp only
  rw [perform_append, perform_of_notMem hcontent, perform_append, perform_of_notMem,
    perform_append, perform_of_notMem, perform_append]
  · rfl
  · intro hit
    have hin := bounds_of_hits_drawTitleText h hw.spans (by omega) hx hy _ _ hit
    omega
  · intro hit
    have hin := bounds_of_hits_drawCloseButton h hw.spans (by omega) hx hy _ _ hit
    omega

/-- Where the parts are shown, the rows of the lower border belong to the content, and look like
the border. -/
theorem PartsShown.rows (h : PartsShown fb w buffer (perform (drawWindow fb w) vram))
    (hw : w.Created) (hfb : fb.Placed) (hin : w.Inside fb) (hbuffer : w.buffer = some buffer) :
    LastRowsLikeBorder w buffer := by
  have hsize := h.size hw hin hfb
  obtain ⟨hfits, hwidth, hheight⟩ := hw.fits hfb hin hbuffer hsize
  obtain ⟨⟨hleft, hright⟩, htop, hbottom⟩ := hin
  have hcontentW := hw.contentW.1
  have hcontentH := hw.contentH.1
  refine ⟨hsize, ?_, ?_⟩
  · -- with one row of content, the border above it is drawn over by the title bar
    by_contra hone
    have hx : (w.x + 2).toNat < fb.width := by omega
    have hy : (w.y + 21).toNat < fb.height := by omega
    have hapart := hfb.apart hx hy
    have hborder := h.border (w.x + 2).toNat (w.y + 21).toNat (by
      unfold Window.Border Window.Covers
      omega)
    rw [perform_drawWindow_frame hapart hfits hx hy (by omega) (by
      rw [hits_drawWindowContent hapart hfits.spans hfits.buffer hx hy]
      omega)] at hborder
    have hbar := (hfits.hits_drawTitleBar hapart hx hy
      (colorToPixel (if w.focused then wmTitleActive else wmTitleInactive))).mpr (by omega)
    rw [(uniform_drawTitleBar w _).perform hbar] at hborder
    unfold Window.borderPixel at hborder
    cases hfocus : w.focused <;> rw [hfocus] at hborder <;> exact absurd hborder (by decide)
  · intro rx ry hrx hry hlast
    obtain ⟨px, py, ⟨hpx, hpy⟩, -, hvalue⟩ := h.content rx ry hrx hry
    rw [← hvalue]
    apply h.border
    unfold Window.Border Window.Covers
    omega

/-- Where the last two rows look like the border, all parts are shown. -/
theorem partsShown_of_rows (h : LastRowsLikeBorder w buffer) (hw : w.Created) (hfb : fb.Placed)
    (hin : w.Inside fb) (hbuffer : w.buffer = some buffer) :
    PartsShown fb w buffer (perform (drawWindow fb w) vram) := by
  obtain ⟨hsize, htwo, hrows⟩ := h
  obtain ⟨hfits, hwidth, hheight⟩ := hw.fits hfb hin hbuffer hsize
  obtain ⟨⟨hleft, hright⟩, htop, hbottom⟩ := hin
  have hcontentW := hw.contentW.1
  have hapart : fb.Apart := hfb.apart (by omega : 0 < fb.width) (by omega : 0 < fb.height)
  have hcontent : ∀ rx ry px py : Nat, rx < w.contentW → ry < w.contentH →
      (px : Int) = w.x + 2 + rx → (py : Int) = w.y + 22 + ry →
      perform (drawWindow fb w) vram (fb.pixel px py) = buffer (ry * w.contentW + rx) := by
    intro rx ry px py hrx hry hpx hpy
    unfold drawWindow
    rw [perform_append]
    exact perform_drawWindowContent hapart hfits hbuffer hrx hry hpx hpy (by omega) (by omega) _
  constructor
  · intro px py hborder
    unfold Window.Border Window.Covers at hborder
    have hx : px < fb.width := by omega
    have hy : py < fb.height := by omega
    by_cases hhits : Hits fb px py (drawWindowContent fb w)
    · have harea := (hits_drawWindowContent hapart hfits.spans hfits.buffer hx hy).mp hhits
      rw [hcontent (px - w.x - 2).toNat (py - w.y - 22).toNat px py (by omega) (by omega)
        (by omega) (by omega)]
      exact hrows _ _ (by omega) (by omega) (by omega)
    · have harea := (hits_drawWindowContent hapart hfits.spans hfits.buffer hx hy).not.mp hhits
      rw [perform_drawWindow_frame hapart hfits hx hy (by omega) hhits, perform_of_notMem]
      · apply (uniform_drawBorder w).perform
        rw [hits_drawBorder hapart hfits.spans hx hy]
        unfold Window.Covers
        omega
      · intro hbar
        have hin := (hfits.hits_drawTitleBar hapart hx hy _).mp hbar
        omega
  · intro rx ry hrx hry
    refine ⟨(w.x + 2 + rx).toNat, (w.y + 22 + ry).toNat, by omega, by omega, ?_⟩
    exact hcontent rx ry _ _ hrx hry (by omega) (by omega)

end Parts

/-- On every framebuffer, for every window with the sizes of `wm_create_window` that is wholly on
the screen: the frame and the content are drawn with every border pixel in the color of the border
and every content pixel at its place just when the last two of at least two rows of content look
like the border themselves. The areas of border, title bar and content never partition the
window. -/
theorem window_parts_iff (fb : Framebuffer) (hfb : fb.Placed) (w : Window) (hw : w.Created)
    (hin : w.Inside fb) (buffer : Nat → Nat) (hbuffer : w.buffer = some buffer)
    (vram : Nat → Nat) :
    (PartsShown fb w buffer (perform (drawWindow fb w) vram) ↔ LastRowsLikeBorder w buffer) ∧
      ¬ w.Partitioned :=
  ⟨⟨fun h => h.rows hw hfb hin hbuffer, fun h => partsShown_of_rows h hw hfb hin hbuffer⟩,
    hw.not_partitioned hin⟩

/-- A new window of 24 by 2 pixels in the corner of the screen. -/
def cornerWindow : Window := newWindow 0 0 24 2 CStr.empty fun _ => 0

/-- The same window with a buffer of one value. -/
def cornerFilled (v : Nat) : Window := { cornerWindow with buffer := some fun _ => v }

theorem cornerWindow_created : cornerWindow.Created :=
  newWindow_created (by decide) (by decide) _ _ _ _

theorem cornerWindow_inside : cornerWindow.Inside bootScreen :=
  ⟨⟨by decide, by decide⟩, by decide, by decide⟩

theorem cornerFilled_created (v : Nat) : (cornerFilled v).Created :=
  ⟨rfl, cornerWindow_created.contentW, cornerWindow_created.contentH⟩

/-- A window that has been filled with the color of its border. -/
theorem window_parts_filled :
    PartsShown bootScreen (cornerFilled (colorToPixel wmBorderInactive))
      (fun _ => colorToPixel wmBorderInactive)
      (perform (drawWindow bootScreen (cornerFilled (colorToPixel wmBorderInactive)))
        fun _ => 0) := by
  refine (window_parts_iff bootScreen bootScreen_placed (cornerFilled _) (cornerFilled_created _)
    cornerWindow_inside _ rfl fun _ => 0).1.mpr ⟨⟨by decide, by decide⟩, by decide, ?_⟩
  intro rx ry _ _ _
  rfl

/-- A new window shows its background where its lower border is. -/
theorem window_parts_new :
    ¬ PartsShown bootScreen cornerWindow
        (fun i => if i < u32 (24 * 2) then colorToPixel wmContentBg else 0)
        (perform (drawWindow bootScreen cornerWindow) fun _ => 0) ∧
      ¬ cornerWindow.Partitioned := by
  refine ⟨?_, cornerWindow_created.not_partitioned cornerWindow_inside⟩
  intro hshown
  have hrows := hshown.rows cornerWindow_created bootScreen_placed cornerWindow_inside rfl
  have hpixel := hrows.2.2 0 0 (by decide) (by decide) (by decide)
  exact absurd hpixel (by decide)

end SRos.Gui
