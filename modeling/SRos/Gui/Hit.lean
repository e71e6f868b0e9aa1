import SRos.Gui.System

/-!
# What is drawn is what is hit

The loops that draw a window store to every pixel of its rectangle that is on the screen and to
no other pixel, also where the window hangs over an edge and the coordinates wrap around. So the
pixel of a point shows the topmost window that contains the point, which is the window that
`wm_get_window_at` returns.
-/

namespace SRos.Gui

open LinkedList Stores

/-- A framebuffer whose pixels have different addresses. -/
structure Framebuffer.Fits (fb : Framebuffer) : Prop where
  mapped : fb.addr ≠ 0
  width : fb.width ≤ 65535
  height : fb.height ≤ 65535
  pitch : fb.width ≤ fb.pitchDwords
  pixels : fb.height * fb.pitchDwords < 2 ^ 32

/-- A framebuffer whose pixels have different addresses, with coordinates that fit into an
`i32`. -/
structure Framebuffer.Apart (fb : Framebuffer) : Prop where
  width : fb.width < 2 ^ 31
  height : fb.height < 2 ^ 31
  pitch : fb.width ≤ fb.pitchDwords
  pixels : fb.height * fb.pitchDwords < 2 ^ 32

theorem Framebuffer.Fits.apart {fb : Framebuffer} (h : fb.Fits) : fb.Apart where
  width := lt_of_le_of_lt h.width (by decide)
  height := lt_of_le_of_lt h.height (by decide)
  pitch := h.pitch
  pixels := h.pixels

/-- A window of the size that `compute_window_size` gives it, with a buffer of
`content_w * content_h` words, whose right and lower edges fit into an `i32`. -/
structure Window.Fits (w : Window) : Prop where
  size : computeWindowSize w = w
  contentW : 24 ≤ w.contentW
  contentH : 1 ≤ w.contentH
  buffer : w.buffer.isSome = true
  words : 4 * (w.contentW * w.contentH) ≤ 2 ^ 32
  left : -2 ^ 31 ≤ w.x
  top : -2 ^ 31 ≤ w.y
  right : w.x + w.width < 2 ^ 31
  bottom : w.y + w.height < 2 ^ 31

/-- A window whose size does not wrap around, with edges that fit into an `i32`. -/
structure Window.Spans (w : Window) : Prop where
  width : w.width = w.contentW + 4
  height : w.height = w.contentH + 22
  left : -2 ^ 31 ≤ w.x
  top : -2 ^ 31 ≤ w.y
  right : w.x + w.width < 2 ^ 31
  bottom : w.y + w.height < 2 ^ 31

/-! ## Coordinates -/

theorem u32OfInt_eq_iff {z : Int} {n : Nat} (hlow : -2 ^ 31 ≤ z) (hhigh : z < 2 ^ 31)
    (hn : n < 2 ^ 31) : u32OfInt z = n ↔ z = n := by
  unfold u32OfInt
  omega

theorem Window.Fits.width_eq {w : Window} (h : w.Fits) :
    w.width = w.contentW + 4 ∧ w.contentW ≤ 2 ^ 30 := by
  have hle : w.contentW * 1 ≤ w.contentW * w.contentH := Nat.mul_le_mul_left _ h.contentH
  have hwords := h.words
  have hsize : u32 (w.contentW + wmBorderWidth * 2) = w.width := congrArg Window.width h.size
  rw [u32_of_lt (by unfold wmBorderWidth; omega)] at hsize
  unfold wmBorderWidth at hsize
  omega

theorem Window.Fits.height_eq {w : Window} (h : w.Fits) :
    w.height = w.contentH + 22 ∧ w.contentH ≤ 2 ^ 30 := by
  have hle : 1 * w.contentH ≤ w.contentW * w.contentH :=
    Nat.mul_le_mul_right _ (by have := h.contentW; omega)
  have hwords := h.words
  have hsize : u32 (w.contentH + wmTitleHeight + wmBorderWidth) = w.height :=
    congrArg Window.height h.size
  rw [u32_of_lt (by unfold wmBorderWidth wmTitleHeight; omega)] at hsize
  unfold wmBorderWidth wmTitleHeight at hsize
  omega

/-- What the arithmetic on the coordinates of a window needs. -/
theorem Window.Fits.bounds {w : Window} (h : w.Fits) :
    (w.width = w.contentW + 4 ∧ w.contentW ≤ 2 ^ 30) ∧
      (w.height = w.contentH + 22 ∧ w.contentH ≤ 2 ^ 30) ∧
      (24 ≤ w.contentW ∧ 1 ≤ w.contentH) ∧ (-2 ^ 31 ≤ w.x ∧ -2 ^ 31 ≤ w.y) ∧
      w.x + w.width < 2 ^ 31 ∧ w.y + w.height < 2 ^ 31 :=
  ⟨h.width_eq, h.height_eq, ⟨h.contentW, h.contentH⟩, ⟨h.left, h.top⟩, h.right, h.bottom⟩

theorem Window.Fits.spans {w : Window} (h : w.Fits) : w.Spans :=
  ⟨h.width_eq.1, h.height_eq.1, h.left, h.top, h.right, h.bottom⟩

theorem Window.Spans.bounds {w : Window} (h : w.Spans) :
    (w.width = w.contentW + 4 ∧ w.height = w.contentH + 22) ∧ (-2 ^ 31 ≤ w.x ∧ -2 ^ 31 ≤ w.y) ∧
      w.x + w.width < 2 ^ 31 ∧ w.y + w.height < 2 ^ 31 :=
  ⟨⟨h.width, h.height⟩, ⟨h.left, h.top⟩, h.right, h.bottom⟩

/-- The pixel `(px, py)` is in the rectangle of the window. -/
def Window.Covers (w : Window) (px py : Nat) : Prop :=
  w.x ≤ px ∧ px < w.x + w.width ∧ w.y ≤ py ∧ py < w.y + w.height

theorem windowContains_iff {w : Window} (h : w.Fits) (px py : Nat) :
    windowContains w px py = true ↔ w.Covers px py := by
  have hbounds := h.bounds
  unfold windowContains Window.Covers
  rw [int32_of_lt (by omega), int32_of_lt (by omega), i32_of_range (by omega) (by omega),
    i32_of_range (by omega) (by omega), decide_eq_true_eq]

/-! ## Which pixels a loop stores to -/

/-- Some store goes to the pixel `(px, py)`. -/
def Hits (fb : Framebuffer) (px py : Nat) (ss : List Store) : Prop :=
  fb.pixel px py ∈ ss.map Prod.fst

section Hits

variable {fb : Framebuffer} {px py : Nat} {ss ts : List Store}

theorem hits_append : Hits fb px py (ss ++ ts) ↔ Hits fb px py ss ∨ Hits fb px py ts := by
  simp [Hits]

theorem hits_flatMap {ns : List Nat} {f : Nat → List Store} :
    Hits fb px py (ns.flatMap f) ↔ ∃ n ∈ ns, Hits fb px py (f n) := by
  simp only [Hits, List.map_flatMap, List.mem_flatMap]

theorem Framebuffer.Apart.pixel_inj (h : fb.Apart) {sx sy : Nat} (hsx : sx < fb.width)
    (hsy : sy < fb.height) (hpx : px < fb.width) (hpy : py < fb.height)
    (heq : fb.pixel px py = fb.pixel sx sy) : px = sx ∧ py = sy := by
  have hindex : ∀ {x y : Nat}, x < fb.width → y < fb.height →
      y * fb.pitchDwords + x < 2 ^ 32 := by
    intro x y hx hy
    calc y * fb.pitchDwords + x < y * fb.pitchDwords + fb.pitchDwords :=
          Nat.add_lt_add_left (hx.trans_le h.pitch) _
      _ = (y + 1) * fb.pitchDwords := (Nat.succ_mul _ _).symm
      _ ≤ fb.height * fb.pitchDwords := Nat.mul_le_mul_right _ hy
      _ < 2 ^ 32 := h.pixels
  unfold Framebuffer.pixel at heq
  rw [u32_of_lt (hindex hpx hpy), u32_of_lt (hindex hsx hsy)] at heq
  have hsum : py * fb.pitchDwords + px = sy * fb.pitchDwords + sx := by omega
  have hpx' : px < fb.pitchDwords := hpx.trans_le h.pitch
  have hsx' : sx < fb.pitchDwords := hsx.trans_le h.pitch
  have hmod := congrArg (· % fb.pitchDwords) hsum
  simp only [Nat.mul_add_mod_self_right, Nat.mod_eq_of_lt hpx', Nat.mod_eq_of_lt hsx'] at hmod
  subst hmod
  have hmul : py * fb.pitchDwords = sy * fb.pitchDwords := by omega
  exact ⟨rfl, Nat.eq_of_mul_eq_mul_right (by omega) hmul⟩

theorem hits_put (h : fb.Apart) (hpx : px < fb.width) (hpy : py < fb.height) {sx sy v : Nat} :
    Hits fb px py (put fb sx sy v) ↔ sx = px ∧ sy = py := by
  unfold Hits put
  constructor
  · intro hmem
    split at hmem
    · next hin =>
        have heq : fb.pixel px py = fb.pixel sx sy := by simpa using hmem
        obtain ⟨rfl, rfl⟩ := h.pixel_inj hin.1 hin.2 hpx hpy heq
        exact ⟨rfl, rfl⟩
    · simp at hmem
  · intro ⟨hx, hy⟩
    subst hx hy
    simp [hpx, hpy]

/-- A store at a position given by signed coordinates that are on the screen or next to it. -/
theorem hits_put_int (h : fb.Apart) (hpx : px < fb.width) (hpy : py < fb.height) {zx zy : Int}
    {v : Nat} (hx : -2 ^ 31 ≤ zx ∧ zx < 2 ^ 31) (hy : -2 ^ 31 ≤ zy ∧ zy < 2 ^ 31) :
    Hits fb px py (put fb (u32OfInt zx) (u32OfInt zy) v) ↔ zx = px ∧ zy = py := by
  have hw := h.width
  have hh := h.height
  rw [hits_put h hpx hpy, u32OfInt_eq_iff hx.1 hx.2 (by omega), u32OfInt_eq_iff hy.1 hy.2 (by omega)]

end Hits

/-! ## The rectangle of a window -/

section Rectangle

variable {fb : Framebuffer} {w : Window} {px py : Nat}

/-- The border covers the two outermost pixels on every side. -/
theorem hits_drawBorder (h : fb.Apart) (hw : w.Spans) (hpx : px < fb.width) (hpy : py < fb.height)
    (v : Nat) :
    Hits fb px py (drawBorder fb w v) ↔ w.Covers px py ∧
      (px < w.x + 2 ∨ w.x + w.width - 2 ≤ px ∨ py < w.y + 2 ∨ w.y + w.height - 2 ≤ py) := by
  have hbounds := hw.bounds
  simp only [drawBorder, hits_flatMap, hits_append, List.mem_range, wmBorderWidth, Window.Covers]
  constructor
  · intro ⟨b, hb, hp⟩
    rcases hp with ((⟨c, hc, hp⟩ | ⟨c, hc, hp⟩) | ⟨c, hc, hp⟩) | ⟨c, hc, hp⟩ <;>
      rw [hits_put_int h hpx hpy (by omega) (by omega)] at hp <;> omega
  · intro ⟨hin, hedge⟩
    have hcol : (px : Int) = w.x + ((px - w.x).toNat : Int) := by omega
    have hrow : (py : Int) = w.y + ((py - w.y).toNat : Int) := by omega
    rcases hedge with hedge | hedge | hedge | hedge
    · refine ⟨(px - w.x).toNat, by omega, .inl (.inr ⟨(py - w.y).toNat, by omega, ?_⟩)⟩
      rw [hits_put_int h hpx hpy (by omega) (by omega)]
      omega
    · refine ⟨(w.x + w.width - 1 - px).toNat, by omega, .inr ⟨(py - w.y).toNat, by omega, ?_⟩⟩
      rw [hits_put_int h hpx hpy (by omega) (by omega)]
      omega
    · refine ⟨(py - w.y).toNat, by omega, .inl (.inl (.inl ⟨(px - w.x).toNat, by omega, ?_⟩))⟩
      rw [hits_put_int h hpx hpy (by omega) (by omega)]
      omega
    · refine ⟨(w.y + w.height - 1 - py).toNat, by omega,
        .inl (.inl (.inr ⟨(px - w.x).toNat, by omega, ?_⟩))⟩
      rw [hits_put_int h hpx hpy (by omega) (by omega)]
      omega

/-- The title bar lies between the side borders. -/
theorem hits_drawTitleBar (h : fb.Apart) (hwidth : 4 ≤ w.width)
    (hx : -2 ^ 31 ≤ w.x ∧ w.x + w.width < 2 ^ 31) (hy : -2 ^ 31 ≤ w.y ∧ w.y + 22 ≤ 2 ^ 31)
    (hpx : px < fb.width) (hpy : py < fb.height) (v : Nat) :
    Hits fb px py (drawTitleBar fb w (i32 (w.y + wmBorderWidth)) v) ↔
      w.x + 2 ≤ px ∧ px < w.x + w.width - 2 ∧ w.y + 2 ≤ py ∧ py < w.y + 22 := by
  have hsub : u32Sub w.width 2 = w.width - 2 := u32Sub_of_le (by omega) (by omega)
  simp only [drawTitleBar, hits_flatMap, List.mem_range, List.mem_range'_1, wmBorderWidth,
    wmTitleHeight, hsub]
  rw [i32_of_range (by omega) (by omega)]
  constructor
  · intro ⟨ty, hty, tx, htx, hp⟩
    rw [hits_put_int h hpx hpy (by omega) (by omega)] at hp
    omega
  · intro hin
    refine ⟨(py - w.y - 2).toNat, by omega, (px - w.x).toNat, by omega, ?_⟩
    rw [hits_put_int h hpx hpy (by omega) (by omega)]
    omega

theorem Window.Fits.hits_drawTitleBar (hw : w.Fits) (h : fb.Apart) (hpx : px < fb.width)
    (hpy : py < fb.height) (v : Nat) :
    Hits fb px py (drawTitleBar fb w (i32 (w.y + wmBorderWidth)) v) ↔
      w.x + 2 ≤ px ∧ px < w.x + w.width - 2 ∧ w.y + 2 ≤ py ∧ py < w.y + 22 := by
  have hbounds := hw.bounds
  exact Gui.hits_drawTitleBar h (by omega) (by omega) (by omega) hpx hpy v

/-- The column of a pixel of the title, which may wrap around behind the right edge. -/
theorem titleColumn_eq_iff {x : Int} {ci col n : Nat} (hx : -2 ^ 31 ≤ x)
    (hend : x + 6 + 8 * ci + col < 2 ^ 32) (hn : n < 2 ^ 31) :
    u32OfInt (i32 (i32 (x + (2 : Nat) + 4) + ci * (8 : Nat)) + col) = n ↔
      x + 6 + 8 * ci + col = n := by
  unfold i32 int32 u32OfInt
  omega

/-- The text of the title: the characters that the limit admits, one behind the other. -/
theorem hits_drawTitleText (h : fb.Apart) (hw : w.Spans)
    (hend : w.x + 6 + 8 * (min w.title.length (maxTitleChars w) : Nat) < 2 ^ 32)
    (hpx : px < fb.width) (hpy : py < fb.height) (t v : Nat) :
    Hits fb px py (drawTitleText fb w (i32 (w.y + wmBorderWidth)) t v) ↔
      (∃ ci < min w.title.length (maxTitleChars w), ∃ col < (8 : Nat),
        w.x + 6 + 8 * ci + col = px) ∧ w.y + 4 ≤ py ∧ py < w.y + 20 := by
  have hbounds := hw.bounds
  have hfbw := h.width
  have hfbh := h.height
  have hcy : i32 (i32 (w.y + (2 : Nat)) + ((20 : Nat) - (16 : Nat)) / 2) = w.y + 4 := by
    rw [i32_of_range (z := w.y + (2 : Nat)) (by omega) (by omega),
      i32_of_range (by omega) (by omega)]
    omega
  simp only [drawTitleText, drawTitleChar, hits_flatMap, List.mem_range, wmBorderWidth,
    wmTitleHeight, fontCharHeight, fontCharWidth, hcy, hits_put h hpx hpy]
  constructor
  · intro ⟨ci, hci, row, hrow, col, hcol, hx, hy⟩
    rw [titleColumn_eq_iff (by omega) (by omega) (by omega)] at hx
    rw [u32OfInt_eq_iff (by omega) (by omega) (by omega)] at hy
    exact ⟨⟨ci, hci, col, hcol, hx⟩, by omega, by omega⟩
  · intro ⟨⟨ci, hci, col, hcol, hx⟩, htop, hbottom⟩
    refine ⟨ci, hci, (py - w.y - 4).toNat, by omega, col, hcol, ?_, ?_⟩
    · rwa [titleColumn_eq_iff (by omega) (by omega) (by omega)]
    · rw [u32OfInt_eq_iff (by omega) (by omega) (by omega)]
      omega

/-- In a title bar with place for a character, the limit is what fits left of the close button. -/
theorem maxTitleChars_eq (hwidth : 28 ≤ w.width) (hlt : w.width < 2 ^ 32) :
    maxTitleChars w = (w.width - 28) / 8 := by
  unfold maxTitleChars wmBorderWidth wmCloseBtnW wmCloseBtnMarg fontCharWidth
  have h1 : u32Sub w.width (2 * 2) = w.width - 4 := u32Sub_of_le (by omega) (by omega)
  have h2 : u32Sub (w.width - 4) 4 = w.width - 8 := u32Sub_of_le (by omega) (by omega)
  have h3 : u32Sub (w.width - 8) 14 = w.width - 22 := u32Sub_of_le (by omega) (by omega)
  have h4 : u32Sub (w.width - 22) (3 * 2) = w.width - 28 := u32Sub_of_le (by omega) (by omega)
  rw [h1, h2, h3, h4]

/-- The close button stays inside the title bar of a window that is wide enough. -/
theorem bounds_of_hits_drawCloseButton (h : fb.Apart) (hw : w.Spans) (hwidth : 19 ≤ w.width)
    (hpx : px < fb.width) (hpy : py < fb.height) (c v : Nat)
    (hit : Hits fb px py (drawCloseButton fb
      (i32 (w.x + int32 w.width - wmBorderWidth - wmCloseBtnMarg - wmCloseBtnW))
      (i32 (i32 (w.y + wmBorderWidth) + (wmTitleHeight - wmCloseBtnH) / 2)) c v)) :
    (w.x + w.width - 19 ≤ px ∧ px < w.x + w.width - 5) ∧ w.y + 5 ≤ py ∧ py < w.y + 19 := by
  have hbounds := hw.bounds
  simp only [drawCloseButton, hits_flatMap, hits_append, List.mem_range, wmBorderWidth,
    wmTitleHeight, wmCloseBtnH, wmCloseBtnW, wmCloseBtnMarg] at hit
  have hbtnX : i32 (w.x + int32 w.width - (2 : Nat) - (3 : Nat) - (14 : Nat)) =
      w.x + w.width - 19 := by
    unfold i32 int32 u32OfInt
    omega
  have hbtnY : i32 (i32 (w.y + (2 : Nat)) + ((20 : Nat) - (14 : Nat)) / 2) = w.y + 5 := by
    rw [i32_of_range (z := w.y + (2 : Nat)) (by omega) (by omega),
      i32_of_range (by omega) (by omega)]
    omega
  rw [hbtnX, hbtnY] at hit
  rcases hit with ⟨r, hr, c, hc, hp⟩ | ⟨i, hi, hp | hp⟩ <;>
    rw [hits_put_int h hpx hpy (by omega) (by omega)] at hp <;> omega

/-- The content fills the rectangle below the title bar. -/
theorem hits_drawWindowContent (h : fb.Apart) (hw : w.Spans) (hbuffer : w.buffer.isSome = true)
    (hpx : px < fb.width) (hpy : py < fb.height) :
    Hits fb px py (drawWindowContent fb w) ↔
      w.x + 2 ≤ px ∧ px < w.x + w.width - 2 ∧ w.y + 22 ≤ py ∧ py < w.y + w.height := by
  have hbounds := hw.bounds
  obtain ⟨buffer, hbuffer⟩ := Option.isSome_iff_exists.mp hbuffer
  simp only [drawWindowContent, hbuffer, hits_flatMap, List.mem_range, wmBorderWidth,
    wmTitleHeight]
  have hx : i32 (w.x + (2 : Nat)) = w.x + 2 := by
    unfold i32 int32 u32OfInt
    omega
  constructor
  · intro ⟨ry, hry, rx, hrx, hp⟩
    rw [hx, i32_of_range (by omega) (by omega), hits_put_int h hpx hpy (by omega) (by omega)] at hp
    omega
  · intro hin
    refine ⟨(py - w.y - 22).toNat, by omega, (px - w.x - 2).toNat, by omega, ?_⟩
    rw [hx, i32_of_range (by omega) (by omega), hits_put_int h hpx hpy (by omega) (by omega)]
    omega

/-- The text of the title stays inside the title bar, left of the close button. -/
theorem bounds_of_hits_drawTitleText (h : fb.Apart) (hw : w.Spans) (hwidth : 28 ≤ w.width)
    (hpx : px < fb.width) (hpy : py < fb.height) (t v : Nat)
    (hit : Hits fb px py (drawTitleText fb w (i32 (w.y + wmBorderWidth)) t v)) :
    (w.x + 6 ≤ px ∧ px < w.x + w.width - 22) ∧ w.y + 4 ≤ py ∧ py < w.y + 20 := by
  have hbounds := hw.bounds
  have hmax := maxTitleChars_eq hwidth (by omega)
  rw [hits_drawTitleText h hw (by omega) hpx hpy, hmax] at hit
  obtain ⟨⟨ci, hci, col, hcol, hx⟩, hy⟩ := hit
  exact ⟨by omega, hy⟩

/-- Drawing a window stores to exactly the pixels of the screen that it contains. -/
theorem hits_drawWindow (h : fb.Apart) (hw : w.Fits) (hpx : px < fb.width) (hpy : py < fb.height) :
    Hits fb px py (drawWindow fb w) ↔ windowContains w px py = true := by
  rw [windowContains_iff hw]
  have hbounds := hw.bounds
  have hspans := hw.spans
  simp only [drawWindow, drawWindowFrame, hits_append, hits_drawBorder h hspans hpx hpy,
    hw.hits_drawTitleBar h hpx hpy, hits_drawWindowContent h hspans hw.buffer hpx hpy]
  constructor
  · intro hit
    rcases hit with (((hit | hit) | hit) | hit) | hit
    · exact hit.1
    · unfold Window.Covers
      omega
    · have htext := bounds_of_hits_drawTitleText h hspans (by omega) hpx hpy _ _ hit
      unfold Window.Covers
      omega
    · have hbutton := bounds_of_hits_drawCloseButton h hspans (by omega) hpx hpy _ _ hit
      unfold Window.Covers
      omega
    · unfold Window.Covers
      omega
  · intro hin
    unfold Window.Covers at hin
    by_cases hbar : w.x + 2 ≤ px ∧ px < w.x + w.width - 2 ∧ w.y + 2 ≤ py ∧ py < w.y + 22
    · exact .inl (.inl (.inl (.inr hbar)))
    · by_cases hcontent : w.x + 2 ≤ px ∧ px < w.x + w.width - 2 ∧ w.y + 22 ≤ py
      · exact .inr ⟨hcontent.1, hcontent.2.1, hcontent.2.2, hin.2.2.2⟩
      · refine .inl (.inl (.inl (.inl ⟨hin, ?_⟩)))
        omega

end Rectangle

/-! ## The screen after `wm_composite` -/

theorem compositeWindow_fb (g : State) (x : Ptr × Window) : (compositeWindow g x).fb = g.fb := by
  unfold compositeWindow
  split <;> rfl

/-- The drawing loop performs the stores of all windows, one window after the other. -/
theorem foldl_compositeWindow_vram (g : State) (xs : List (Ptr × Window))
    (hvisible : ∀ x ∈ xs, x.2.visible = true) :
    (xs.foldl compositeWindow g).vram =
      perform (xs.flatMap fun x => drawWindow g.fb x.2) g.vram := by
  induction xs generalizing g with
  | nil => rfl
  | cons x xs ih =>
      obtain ⟨hx, hxs⟩ := List.forall_mem_cons.mp hvisible
      have hvram : (compositeWindow g x).vram = perform (drawWindow g.fb x.2) g.vram := by
        simp [compositeWindow, hx, State.emit]
      rw [List.foldl_cons, ih _ hxs, compositeWindow_fb, hvram, List.flatMap_cons, perform_append]

/-- Painting the windows from the bottom to the top leaves the last one that contains the
point. -/
theorem perform_drawWindows {fb : Framebuffer} (h : fb.Apart) (vram : Nat → Nat)
    {xs : List (Ptr × Window)} (hxs : ∀ x ∈ xs, x.2.Fits ∧ x.2.visible = true) {px py : Nat}
    (hpx : px < fb.width) (hpy : py < fb.height) :
    (lastHit px py xs = none ∧
      perform (xs.flatMap fun x => drawWindow fb x.2) vram (fb.pixel px py) =
        vram (fb.pixel px py)) ∨
    ∃ p w, (p, w) ∈ xs ∧ lastHit px py xs = some p ∧
      perform (xs.flatMap fun x => drawWindow fb x.2) vram (fb.pixel px py) =
        perform (drawWindow fb w) vram (fb.pixel px py) := by
  induction xs using List.reverseRecOn with
  | nil => exact .inl ⟨rfl, rfl⟩
  | append_singleton xs x ih =>
      obtain ⟨hfits, hvisible⟩ := hxs x (by simp)
      have hhits := hits_drawWindow h hfits hpx hpy
      rw [lastHit_snoc]
      simp only [List.flatMap_append, List.flatMap_singleton, perform_append]
      by_cases hin : windowContains x.2 px py = true
      · refine .inr ⟨x.1, x.2, by simp, by simp [hvisible, hin], ?_⟩
        exact perform_of_mem (hhits.mpr hin)
      · rw [if_neg (by simp [hin]), perform_of_notMem (hhits.not.mpr hin)]
        rcases ih fun y hy => hxs y (by simp [hy]) with hnone | ⟨p, w, hmem, hsome⟩
        · exact .inl hnone
        · exact .inr ⟨p, w, by simp [hmem], hsome⟩

/-- After `wm_composite` over a list of visible windows, with the cursor invisible, every pixel
holds what drawing the window at that point would leave there, and its old value where there is
no window. -/
theorem drawn_is_hit (fuel : Nat) (g : State) (ws : List Ptr) (hfb : g.fb.Fits)
    (hlist : Linked g.heap Window.next g.wm.windows ws) (hne : ws ≠ [])
    (hcount : g.wm.count = ws.length) (hfuel : ws.length ≤ fuel)
    (hcursor : g.cursor.visible = false)
    (hws : ∀ p w, p ∈ ws → g.heap p = some w → w.Fits ∧ w.visible = true) :
    ∃ g', wmComposite fuel g = some g' ∧ ∀ px py, px < g.fb.width → py < g.fb.height →
      ∃ win, wmGetWindowAt fuel g px py = some win ∧
        match win with
        | none => g'.vram (g.fb.pixel px py) = g.vram (g.fb.pixel px py)
        | some p => ∃ w, g.heap p = some w ∧
            g'.vram (g.fb.pixel px py) = perform (drawWindow g.fb w) g.vram (g.fb.pixel px py) := by
  obtain ⟨xs, hwalk, hmap, hheap⟩ := hlist.walk hfuel
  have hfits : ∀ x ∈ xs, x.2.Fits ∧ x.2.visible = true := by
    intro x hx
    exact hws x.1 x.2 (hmap ▸ List.mem_map_of_mem hx) (hheap x hx)
  have hcount0 : g.wm.count ≠ 0 := by
    have hpos : 0 < ws.length := List.length_pos_of_ne_nil hne
    omega
  obtain ⟨g', hg', hvram⟩ : ∃ g', wmComposite fuel g = some g' ∧
      g'.vram = (xs.foldl compositeWindow g).vram := by
    have hbody : compositeBody fuel g =
        some { xs.foldl compositeWindow g with
          wm := { (xs.foldl compositeWindow g).wm with needsComposite := false } } := by
      simp [compositeBody, redraw, hfb.mapped, hcount0, hcursor, hwalk]
    exact ⟨_, wmComposite_eq hbody, rfl⟩
  refine ⟨g', hg', fun px py hpx hpy => ⟨lastHit px py xs, ?_, ?_⟩⟩
  · simp only [wmGetWindowAt, hwalk]
    rfl
  · rw [hvram, foldl_compositeWindow_vram g xs fun x hx => (hfits x hx).2]
    rcases perform_drawWindows hfb.apart g.vram hfits hpx hpy with ⟨hnone, hold⟩ | ⟨p, w, hmem, hsome, hw⟩
    · rw [hnone]
      exact hold
    · rw [hsome]
      exact ⟨w, hheap _ hmem, hw⟩

/-- Two windows that overlap on a screen of 40 by 30 pixels, the upper one partly off it. -/
def overlapping : State :=
  let w (x y : Int) (zOrder : Nat) (next : Option Ptr) : Window :=
    { newWindow x y 24 1 CStr.empty (fun _ => 0) with zOrder, next }
  let g := State.boot (framebufferMap (framebufferInit 0 40 30 160 32)) fun _ => 7
  { g with
    wm := { g.wm with windows := some 100, count := 2 }
    heap := fun p =>
      if p = 100 then some (w 3 5 1 (some 200))
      else if p = 200 then some (w (-8) (-4) 2 none)
      else none }

/-- The point `(4, 6)` is in both windows, and its pixel shows the upper one. -/
theorem drawn_is_hit_overlapping : ∃ g' w, wmComposite 2 overlapping = some g' ∧
    wmGetWindowAt 2 overlapping (4 : Nat) (6 : Nat) = some (some 200) ∧
    overlapping.heap 200 = some w ∧
    g'.vram (overlapping.fb.pixel 4 6) =
      perform (drawWindow overlapping.fb w) overlapping.vram (overlapping.fb.pixel 4 6) := by
  have hfb : overlapping.fb.Fits := ⟨by decide, by decide, by decide, by decide, by decide⟩
  have hlist : Linked overlapping.heap Window.next overlapping.wm.windows [100, 200] :=
    ⟨⟨rfl, rfl, rfl⟩, by simp [overlapping]⟩
  have hws : ∀ p w, p ∈ [100, 200] → overlapping.heap p = some w → w.Fits ∧ w.visible = true := by
    intro p w hp hw
    simp only [List.mem_cons, List.not_mem_nil, or_false] at hp
    rcases hp with rfl | rfl
    all_goals
      obtain rfl := Option.some.inj hw
      exact ⟨⟨rfl, by decide, by decide, rfl, by decide, by decide, by decide, by decide,
        by decide⟩, rfl⟩
  obtain ⟨g', hg', hpixels⟩ :=
    drawn_is_hit 2 overlapping [100, 200] hfb hlist (by simp) rfl (by simp) rfl hws
  obtain ⟨win, hwin, hpixel⟩ := hpixels 4 6 (by decide) (by decide)
  have hhit : wmGetWindowAt 2 overlapping (4 : Nat) (6 : Nat) = some (some 200) := by
    decide +kernel
  rw [hhit] at hwin
  obtain rfl := Option.some.inj hwin
  obtain ⟨w, hw, hvalue⟩ := hpixel
  exact ⟨g', w, hg', hhit, hw, hvalue⟩

end SRos.Gui
