import SRos.Gui.Console

/-!
# Clipped drawing

`wm_fill_rect`, `fb_fill_rect` and `wm_putchar` compare sums of two unsigned words with the size
of their target. Where a sum does not wrap around, they store to the visible part of what they
draw and to nothing else. Where it wraps around, `wm_fill_rect` and `fb_fill_rect` leave the
target and `wm_putchar` draws a character that does not fit.
-/

namespace SRos.Gui

open Stores

/-- The stores of a loop over `h` rows and `w` columns. -/
def rectStores (w h : Nat) (f : Nat → Nat → Store) : List Store :=
  (List.range h).flatMap fun (row : Nat) => (List.range w).map fun (col : Nat) => f row col

theorem mem_rectStores {w h : Nat} {f : Nat → Nat → Store} {s : Store} :
    s ∈ rectStores w h f ↔ ∃ row < h, ∃ col < w, f row col = s := by
  simp [rectStores]

/-- What a drawing function makes of a side of length `n` that starts at `a`. -/
def clip (a n size : Nat) : Nat := if u32 (a + n) > size then u32Sub size a else n

theorem clip_of_lt {a n size : Nat} (ha : a < size) (hsize : size < 2 ^ 32) (h : a + n < 2 ^ 32) :
    clip a n size = min n (size - a) := by
  unfold clip
  rw [u32_of_lt h, u32Sub_of_le hsize ha.le]
  split <;> omega

/-- A sum that wraps around is not clipped. -/
theorem clip_of_le {a n size : Nat} (ha : a < size) (hn : n < 2 ^ 32) (h : 2 ^ 32 ≤ a + n) :
    clip a n size = n := by
  unfold clip u32
  rw [if_neg (by omega)]

theorem clip_pos {a n size : Nat} (ha : a < size) (hsize : size < 2 ^ 32) (hn : n ≠ 0) :
    0 < clip a n size := by
  unfold clip
  rw [u32Sub_of_le hsize ha.le]
  split <;> omega

/-! ## Drawing a set of cells -/

/-- The cells of a region have been given their values, and nothing else has changed. -/
structure Drawn (index : Nat → Nat → Nat) (region : Nat → Nat → Prop) (value : Nat → Nat → Nat)
    (old new : Nat → Nat) : Prop where
  inside : ∀ x y, region x y → new (index x y) = value x y
  outside : ∀ i, (∀ x y, region x y → i ≠ index x y) → new i = old i

section Drawn

variable {index : Nat → Nat → Nat} {region : Nat → Nat → Prop} {value : Nat → Nat → Nat}
  {ss : List Store}

/-- Stores of the cells of a region. -/
theorem drawn_perform (hall : ∀ x y, region x y → (index x y, value x y) ∈ ss)
    (honly : ∀ s ∈ ss, ∃ x y, region x y ∧ s = (index x y, value x y))
    (hinj : ∀ x y x' y', region x y → region x' y' → index x y = index x' y' → x = x' ∧ y = y')
    (old : Nat → Nat) : Drawn index region value old (perform ss old) where
  inside := by
    intro x y hxy
    apply perform_of_forall (hall x y hxy)
    intro v hv
    obtain ⟨x', y', hxy', heq⟩ := honly _ hv
    obtain ⟨hindex, rfl⟩ := Prod.mk.inj heq
    obtain ⟨rfl, rfl⟩ := hinj x y x' y' hxy hxy' hindex
    rfl
  outside := by
    intro i hi
    apply perform_of_notMem
    intro hmem
    obtain ⟨s, hs, rfl⟩ := List.mem_map.mp hmem
    obtain ⟨x, y, hxy, rfl⟩ := honly s hs
    exact hi x y hxy rfl

/-- Where a list of stores draws a region in every memory, it stores to no other cell. -/
theorem Drawn.region_of_mem (h : ∀ old, Drawn index region value old (perform ss old)) {s : Store}
    (hs : s ∈ ss) : ∃ x y, region x y ∧ s.1 = index x y := by
  by_contra hnone
  have hout : ∀ x y, region x y → s.1 ≠ index x y := fun x y hxy heq => hnone ⟨x, y, hxy, heq⟩
  have hzero := (h fun _ => 0).outside s.1 hout
  have hone := (h fun _ => 1).outside s.1 hout
  rw [perform_of_mem (List.mem_map_of_mem hs), hone] at hzero
  exact absurd hzero (by decide)

end Drawn

/-- The cells of the rectangle that are inside a target of the given size. -/
def Visible (width height rx ry rw rh x y : Nat) : Prop :=
  (rx ≤ x ∧ x < rx + rw ∧ x < width) ∧ ry ≤ y ∧ y < ry + rh ∧ y < height

/-- No sum of the clipping wraps around, or nothing is visible. -/
def NoWrap (width height rx ry rw rh : Nat) : Prop :=
  rx ≥ width ∨ ry ≥ height ∨ rw = 0 ∨ rh = 0 ∨ rx + rw < 2 ^ 32 ∧ ry + rh < 2 ^ 32

/-- A rectangle of which nothing is drawn, where the sums do not decide it. -/
theorem NoWrap.cases {width height rx ry rw rh : Nat} (h : NoWrap width height rx ry rw rh)
    (hx : rx < width) (hy : ry < height) :
    rw = 0 ∨ rh = 0 ∨ rx + rw < 2 ^ 32 ∧ ry + rh < 2 ^ 32 := by
  rcases h with h | h | h
  · omega
  · omega
  · exact h

/-! ## The buffer of a window -/

/-- A call on a window of this size gives these cells of its buffer their values, whatever the
buffer holds, and changes nothing else in it and no other window. -/
def DrawsInBuffer (contentW contentH : Nat) (call : State → Option Ptr → Option State)
    (region : Nat → Nat → Prop) (value : Nat → Nat → Nat) : Prop :=
  ∀ g win w old, g.heap win = some w → w.contentW = contentW → w.contentH = contentH →
    w.buffer = some old → ∃ g' w' new, call g (some win) = some g' ∧ g'.heap win = some w' ∧
      w'.buffer = some new ∧ (∀ p ≠ win, g'.heap p = g.heap p) ∧
      Drawn (fun x y => y * contentW + x) region value old new

section Buffer

variable {contentW contentH : Nat} {region : Nat → Nat → Prop} {value : Nat → Nat → Nat}

theorem cell_lt {x y : Nat} (hx : x < contentW) (hy : y < contentH) :
    y * contentW + x < contentW * contentH := by
  have hmul : (y + 1) * contentW ≤ contentH * contentW := Nat.mul_le_mul_right _ hy
  rw [Nat.succ_mul, Nat.mul_comm contentH] at hmul
  omega

/-- The effect of a call that performs a list of stores. -/
def Performs (call : State → Option Ptr → Option State) (contentW contentH : Nat)
    (ss : List Store) : Prop :=
  ∀ g win w old, g.heap win = some w → w.contentW = contentW → w.contentH = contentH →
    w.buffer = some old → ∃ g' w', call g (some win) = some g' ∧ g'.heap win = some w' ∧
      w'.buffer = some (perform ss old) ∧ ∀ p ≠ win, g'.heap p = g.heap p

theorem exists_draw_perform {g : State} {win : Ptr} {w : Window} {old : Nat → Nat}
    (hw : g.heap win = some w) (hold : w.buffer = some old) (ss : List Store) :
    ∃ g' w', g.draw win ss = some g' ∧ g'.heap win = some w' ∧
      w'.buffer = some (perform ss old) ∧ ∀ p ≠ win, g'.heap p = g.heap p := by
  have heq := modify_eq hw fun w => { w with buffer := w.buffer.map (perform ss), dirty := true }
  refine ⟨_, _, by simp only [State.draw, heq]; rfl, Function.update_self .., ?_, ?_⟩
  · simp [hold]
  · intro p hp
    exact Function.update_of_ne hp ..

/-- A call that performs no store may leave the window as it is. -/
theorem performs_nil {g : State} {win : Ptr} {w : Window} {old : Nat → Nat}
    (hw : g.heap win = some w) (hold : w.buffer = some old) :
    ∃ g' w', some g = some g' ∧ g'.heap win = some w' ∧
      w'.buffer = some (perform [] old) ∧ ∀ p ≠ win, g'.heap p = g.heap p :=
  ⟨g, w, rfl, hw, hold, fun _ _ => rfl⟩

/-- A window manager with one window, whose buffer holds `old`. -/
def oneWindow (contentW contentH : Nat) (old : Nat → Nat) : State :=
  let w := { newWindow 0 0 contentW contentH CStr.empty old with buffer := some old }
  { State.boot (framebufferInit 0 0 0 0 0) fun _ => 0 with heap := fun _ => some w }

/-- What a call draws is what its stores draw. -/
theorem Performs.draws_iff {call : State → Option Ptr → Option State} {ss : List Store}
    (h : Performs call contentW contentH ss) :
    DrawsInBuffer contentW contentH call region value ↔
      ∀ old, Drawn (fun x y => y * contentW + x) region value old (perform ss old) := by
  constructor
  · intro hdraws old
    obtain ⟨g', w', new, hcall, hw', hnew, -, hdrawn⟩ :=
      hdraws (oneWindow contentW contentH old) 0 _ old rfl rfl rfl rfl
    obtain ⟨g₁, w₁, hcall₁, hw₁, hnew₁, -⟩ :=
      h (oneWindow contentW contentH old) 0 _ old rfl rfl rfl rfl
    obtain rfl := Option.some.inj (hcall.symm.trans hcall₁)
    obtain rfl := Option.some.inj (hw'.symm.trans hw₁)
    obtain rfl := Option.some.inj (hnew.symm.trans hnew₁)
    exact hdrawn
  · intro hdrawn g win w old hw hwidth hheight hold
    obtain ⟨g', w', hcall, hw', hnew, hother⟩ := h g win w old hw hwidth hheight hold
    exact ⟨g', w', _, hcall, hw', hnew, hother, hdrawn old⟩

end Buffer

/-! ## `wm_fill_rect` -/

section FillRect

variable {contentW contentH rx ry rw rh : Nat} {c : Color}

/-- The stores of `wm_fill_rect`. -/
def fillStores (contentW contentH rx ry rw rh : Nat) (c : Color) : List Store :=
  if rx ≥ contentW ∨ ry ≥ contentH then []
  else
    rectStores (clip rx rw contentW) (clip ry rh contentH) fun row col =>
      (u32 ((ry + row) * contentW + (rx + col)), colorToPixel c)

theorem performs_wmFillRect (contentW contentH rx ry rw rh : Nat) (c : Color) :
    Performs (fun g win => wmFillRect g win rx ry rw rh c) contentW contentH
      (fillStores contentW contentH rx ry rw rh c) := by
  intro g win w old hw hwidth hheight hold
  subst hwidth hheight
  simp only [wmFillRect, fillStores, hw, Option.bind_eq_bind, Option.bind_some, hold,
    Option.isNone_some, Bool.false_eq_true, if_false]
  split
  · exact performs_nil hw hold
  · exact exists_draw_perform hw hold _

/-- Without a wrap around the stores are those of the visible cells. -/
theorem mem_fillStores (hwords : 4 * (contentW * contentH) ≤ 2 ^ 32)
    (hwidth : contentW < 2 ^ 32) (hheight : contentH < 2 ^ 32)
    (hwrap : NoWrap contentW contentH rx ry rw rh) {s : Store} :
    s ∈ fillStores contentW contentH rx ry rw rh c ↔
      ∃ x y, Visible contentW contentH rx ry rw rh x y ∧
        s = (y * contentW + x, colorToPixel c) := by
  unfold fillStores Visible
  by_cases hout : rx ≥ contentW ∨ ry ≥ contentH
  · rw [if_pos hout]
    constructor
    · intro hs
      exact absurd hs List.not_mem_nil
    · intro ⟨x, y, hin, _⟩
      omega
  · rw [if_neg hout, mem_rectStores]
    push Not at hout
    have hcells : ∀ x y, x < contentW → y < contentH →
        u32 (y * contentW + x) = y * contentW + x := by
      intro x y hx hy
      have hlt := cell_lt hx hy
      exact u32_of_lt (by omega)
    rcases hwrap.cases hout.1 hout.2 with rfl | rfl | ⟨hx, hy⟩
    · have hzero : clip rx 0 contentW = 0 := by
        rw [clip_of_lt hout.1 hwidth (by omega), Nat.zero_min]
      rw [hzero]
      constructor
      · intro ⟨row, _, col, hcol, _⟩
        omega
      · intro ⟨x, y, hin, _⟩
        omega
    · have hzero : clip ry 0 contentH = 0 := by
        rw [clip_of_lt hout.2 hheight (by omega), Nat.zero_min]
      rw [hzero]
      constructor
      · intro ⟨row, hrow, _⟩
        omega
      · intro ⟨x, y, hin, _⟩
        omega
    · rw [clip_of_lt hout.1 hwidth hx, clip_of_lt hout.2 hheight hy]
      constructor
      · intro ⟨row, hrow, col, hcol, hs⟩
        refine ⟨rx + col, ry + row, by omega, ?_⟩
        rw [← hs, hcells _ _ (by omega) (by omega)]
      · intro ⟨x, y, hin, hs⟩
        refine ⟨y - ry, by omega, x - rx, by omega, ?_⟩
        rw [hs, Nat.add_sub_of_le hin.2.1, Nat.add_sub_of_le hin.1.1,
          hcells _ _ hin.1.2.2 hin.2.2.2]

/-- Where a sum wraps around, some store goes to a cell that is not visible. -/
theorem exists_fillStores (hwords : 4 * (contentW * contentH) ≤ 2 ^ 32)
    (hwidth : contentW ≤ 2 ^ 30) (hheight : contentH ≤ 2 ^ 30) (hrw : rw < 2 ^ 32)
    (hrh : rh < 2 ^ 32) (hwrap : ¬ NoWrap contentW contentH rx ry rw rh) :
    ∃ s ∈ fillStores contentW contentH rx ry rw rh c, contentW * contentH ≤ s.1 := by
  unfold NoWrap at hwrap
  push Not at hwrap
  obtain ⟨hx, hy, hw, hh, hsum⟩ := hwrap
  unfold fillStores
  rw [if_neg (by omega)]
  simp only [mem_rectStores]
  have hcell := cell_lt hx hy
  by_cases hsumx : rx + rw < 2 ^ 32
  · -- the rows run on below the last one
    have hrows : clip ry rh contentH = rh := clip_of_le hy hrh (hsum hsumx)
    have hcols : 0 < clip rx rw contentW := clip_pos hx (by omega) hw
    refine ⟨_, ⟨contentH - ry, by omega, 0, hcols, rfl⟩, ?_⟩
    rw [Nat.add_sub_of_le hy.le, Nat.mul_comm contentH, u32_of_lt (by omega)]
    exact Nat.le_add_right _ _
  · -- the first row runs on to the end of the buffer
    have hcols : clip rx rw contentW = rw := clip_of_le hx hrw (by omega)
    have hrows : 0 < clip ry rh contentH := clip_pos hy (by omega) hh
    refine ⟨_, ⟨0, hrows, contentW * contentH - (ry * contentW + rx), by omega, rfl⟩, ?_⟩
    have hend : (ry + 0) * contentW + (rx + (contentW * contentH - (ry * contentW + rx))) =
        contentW * contentH := by
      rw [Nat.add_zero]
      omega
    rw [hend, u32_of_lt (by omega)]

theorem cell_inj {x y x' y' : Nat} (hx : x < contentW) (hx' : x' < contentW)
    (h : y * contentW + x = y' * contentW + x') : x = x' ∧ y = y' := by
  obtain ⟨hy, hxx⟩ := index_inj hx hx' h
  exact ⟨hxx, hy⟩

/-- `wm_fill_rect` fills the visible cells and changes nothing else exactly when the sums do not
wrap around. -/
theorem fillRect_iff (hpos : 1 ≤ contentW ∧ 1 ≤ contentH)
    (hwords : 4 * (contentW * contentH) ≤ 2 ^ 32) (hrw : rw < 2 ^ 32) (hrh : rh < 2 ^ 32) :
    DrawsInBuffer contentW contentH (fun g win => wmFillRect g win rx ry rw rh c)
        (Visible contentW contentH rx ry rw rh) (fun _ _ => colorToPixel c) ↔
      NoWrap contentW contentH rx ry rw rh := by
  have hwidth : contentW ≤ contentW * contentH := Nat.le_mul_of_pos_right _ hpos.2
  have hheight : contentH ≤ contentW * contentH := Nat.le_mul_of_pos_left _ hpos.1
  rw [(performs_wmFillRect contentW contentH rx ry rw rh c).draws_iff]
  constructor
  · intro hdrawn
    by_contra hwrap
    obtain ⟨s, hs, hout⟩ :=
      exists_fillStores (c := c) hwords (by omega) (by omega) hrw hrh hwrap
    obtain ⟨x, y, hin, heq⟩ := Drawn.region_of_mem hdrawn hs
    have hcell := cell_lt hin.1.2.2 hin.2.2.2
    omega
  · intro hwrap
    apply drawn_perform
    · intro x y hin
      exact (mem_fillStores hwords (by omega) (by omega) hwrap).mpr ⟨x, y, hin, rfl⟩
    · intro s hs
      exact (mem_fillStores hwords (by omega) (by omega) hwrap).mp hs
    · intro x y x' y' hin hin' heq
      exact cell_inj hin.1.2.2 hin'.1.2.2 heq

end FillRect

/-! ## `fb_fill_rect` -/

section Screen

variable {fb : Framebuffer} {x y w h : Nat} {c : Color}

/-- A mapped framebuffer inside the address space. -/
structure Framebuffer.Placed (fb : Framebuffer) : Prop where
  mapped : fb.addr ≠ 0
  pitch : fb.width ≤ fb.pitchDwords
  fits : fb.addr + 4 * (fb.height * fb.pitchDwords) ≤ 2 ^ 32

theorem Framebuffer.Placed.line_lt (h : fb.Placed) {sx sy : Nat} (hx : sx < fb.width)
    (hy : sy < fb.height) :
    sy * fb.pitchDwords + sx < fb.height * fb.pitchDwords ∧
      fb.height * fb.pitchDwords < 2 ^ 30 := by
  have hpitch := h.pitch
  have hfits := h.fits
  have hmapped := h.mapped
  have hmul : (sy + 1) * fb.pitchDwords ≤ fb.height * fb.pitchDwords := Nat.mul_le_mul_right _ hy
  rw [Nat.succ_mul] at hmul
  omega

theorem Framebuffer.Placed.pixel_eq (h : fb.Placed) {sx sy : Nat} (hx : sx < fb.width)
    (hy : sy < fb.height) :
    fb.pixel sx sy = fb.addr + 4 * (sy * fb.pitchDwords + sx) := by
  obtain ⟨hline, hsize⟩ := h.line_lt hx hy
  unfold Framebuffer.pixel
  rw [u32_of_lt (by omega)]

/-- Both sides of a framebuffer with pixels are words. -/
theorem Framebuffer.Placed.size_lt (h : fb.Placed) (hx : x < fb.width) (hy : y < fb.height) :
    fb.width < 2 ^ 30 ∧ fb.height < 2 ^ 30 := by
  obtain ⟨-, hsize⟩ := h.line_lt hx hy
  have hpitch := h.pitch
  have hwidth : fb.pitchDwords ≤ fb.height * fb.pitchDwords :=
    Nat.le_mul_of_pos_left _ (by omega)
  have hheight : fb.height ≤ fb.height * fb.pitchDwords :=
    Nat.le_mul_of_pos_right _ (by omega)
  omega

theorem fbFillRect_eq (h' : fb.Placed) (hx : x < fb.width) (hy : y < fb.height) :
    fbFillRect fb x y w h c = rectStores (clip x w fb.width) (clip y h fb.height) fun row col =>
      (fb.addr + 4 * u32 ((y + row) * fb.pitchDwords) + 4 * x + 4 * col, colorToPixel c) := by
  unfold fbFillRect
  rw [if_neg h'.mapped, if_neg (by omega)]
  rfl

theorem fbFillRect_outside (hout : x ≥ fb.width ∨ y ≥ fb.height) :
    fbFillRect fb x y w h c = [] := by
  unfold fbFillRect
  rw [if_pos hout, ite_self]

/-- Without a wrap around the stores are those of the visible pixels. -/
theorem mem_fbFillRect (h' : fb.Placed) (hwrap : NoWrap fb.width fb.height x y w h) {s : Store} :
    s ∈ fbFillRect fb x y w h c ↔
      ∃ sx sy, Visible fb.width fb.height x y w h sx sy ∧ s = (fb.pixel sx sy, colorToPixel c) := by
  unfold Visible
  by_cases hout : x ≥ fb.width ∨ y ≥ fb.height
  · rw [fbFillRect_outside hout]
    constructor
    · intro hs
      exact absurd hs List.not_mem_nil
    · intro ⟨sx, sy, hin, _⟩
      omega
  · push Not at hout
    obtain ⟨hwidth, hheight⟩ := h'.size_lt hout.1 hout.2
    rw [fbFillRect_eq h' hout.1 hout.2, mem_rectStores]
    have hpixel : ∀ row col, x + col < fb.width → y + row < fb.height →
        fb.addr + 4 * u32 ((y + row) * fb.pitchDwords) + 4 * x + 4 * col =
          fb.pixel (x + col) (y + row) := by
      intro row col hcol hrow
      obtain ⟨hline, hsize⟩ := h'.line_lt hcol hrow
      rw [h'.pixel_eq hcol hrow, u32_of_lt (by omega)]
      omega
    rcases hwrap.cases hout.1 hout.2 with rfl | rfl | ⟨hsumx, hsumy⟩
    · have hzero : clip x 0 fb.width = 0 := by
        rw [clip_of_lt hout.1 (by omega) (by omega), Nat.zero_min]
      rw [hzero]
      constructor
      · intro ⟨row, _, col, hcol, _⟩
        omega
      · intro ⟨sx, sy, hin, _⟩
        omega
    · have hzero : clip y 0 fb.height = 0 := by
        rw [clip_of_lt hout.2 (by omega) (by omega), Nat.zero_min]
      rw [hzero]
      constructor
      · intro ⟨row, hrow, _⟩
        omega
      · intro ⟨sx, sy, hin, _⟩
        omega
    · rw [clip_of_lt hout.1 (by omega) hsumx, clip_of_lt hout.2 (by omega) hsumy]
      constructor
      · intro ⟨row, hrow, col, hcol, hs⟩
        refine ⟨x + col, y + row, by omega, ?_⟩
        rw [← hs, hpixel row col (by omega) (by omega)]
      · intro ⟨sx, sy, hin, hs⟩
        refine ⟨sy - y, by omega, sx - x, by omega, ?_⟩
        rw [hs, hpixel _ _ (by omega) (by omega), Nat.add_sub_of_le hin.1.1,
          Nat.add_sub_of_le hin.2.1]

/-- Where a sum wraps around, some store goes to no visible pixel. -/
theorem exists_fbFillRect (h' : fb.Placed) (hw : w < 2 ^ 32) (hh : h < 2 ^ 32)
    (hwrap : ¬ NoWrap fb.width fb.height x y w h) :
    ∃ s ∈ fbFillRect fb x y w h c, ∀ sx sy, Visible fb.width fb.height x y w h sx sy →
      s.1 ≠ fb.pixel sx sy := by
  unfold NoWrap at hwrap
  push Not at hwrap
  obtain ⟨hx, hy, hw₀, hh₀, hsum⟩ := hwrap
  obtain ⟨hwidth, hheight⟩ := h'.size_lt hx hy
  obtain ⟨hline, hsize⟩ := h'.line_lt hx hy
  rw [fbFillRect_eq h' hx hy]
  simp only [mem_rectStores]
  by_cases hsumx : x + w < 2 ^ 32
  · -- the lines run on below the last one
    have hrows : clip y h fb.height = h := clip_of_le hy hh (hsum hsumx)
    have hcols : 0 < clip x w fb.width := clip_pos hx (by omega) hw₀
    refine ⟨_, ⟨fb.height - y, by omega, 0, hcols, rfl⟩, ?_⟩
    intro sx sy hin
    obtain ⟨hlt, -⟩ := h'.line_lt hin.1.2.2 hin.2.2.2
    rw [h'.pixel_eq hin.1.2.2 hin.2.2.2, Nat.add_sub_of_le hy.le, u32_of_lt (by omega)]
    dsimp only
    omega
  · -- the first line runs on into the next one
    have hcols : clip x w fb.width = w := clip_of_le hx hw (by omega)
    have hrows : 0 < clip y h fb.height := clip_pos hy (by omega) hh₀
    refine ⟨_, ⟨0, hrows, fb.width - x, by omega, rfl⟩, ?_⟩
    intro sx sy hin
    have hpitch := h'.pitch
    have hnext : sy = y ∨ y * fb.pitchDwords + fb.pitchDwords ≤ sy * fb.pitchDwords := by
      rcases hin.2.1.eq_or_lt with heq | hlt
      · exact .inl heq.symm
      · have hmul : (y + 1) * fb.pitchDwords ≤ sy * fb.pitchDwords := Nat.mul_le_mul_right _ hlt
        rw [Nat.succ_mul] at hmul
        exact .inr hmul
    have hleft := hin.1.1
    have hright := hin.1.2.2
    rw [h'.pixel_eq hin.1.2.2 hin.2.2.2, Nat.add_zero, u32_of_lt (by omega)]
    dsimp only
    rcases hnext with rfl | hnext <;> omega

/-- `fb_fill_rect` fills the visible pixels and changes nothing else exactly when the sums do not
wrap around. -/
theorem fbFillRect_iff (h' : fb.Placed) (hw : w < 2 ^ 32) (hh : h < 2 ^ 32) :
    (∀ old, Drawn fb.pixel (Visible fb.width fb.height x y w h) (fun _ _ => colorToPixel c) old
        (perform (fbFillRect fb x y w h c) old)) ↔
      NoWrap fb.width fb.height x y w h := by
  constructor
  · intro hdrawn
    by_contra hwrap
    obtain ⟨s, hs, hout⟩ := exists_fbFillRect (c := c) h' hw hh hwrap
    obtain ⟨sx, sy, hin, heq⟩ := Drawn.region_of_mem hdrawn hs
    exact hout sx sy hin heq
  · intro hwrap
    apply drawn_perform
    · intro sx sy hin
      exact (mem_fbFillRect h' hwrap).mpr ⟨sx, sy, hin, rfl⟩
    · intro s hs
      exact (mem_fbFillRect h' hwrap).mp hs
    · intro sx sy sx' sy' hin hin' heq
      rw [h'.pixel_eq hin.1.2.2 hin.2.2.2, h'.pixel_eq hin'.1.2.2 hin'.2.2.2] at heq
      have hpitch := h'.pitch
      have hright := hin.1.2.2
      have hright' := hin'.1.2.2
      obtain ⟨hline, hcol⟩ := @index_inj fb.pitchDwords sy sx sy' sx' (by omega) (by omega) (by omega)
      exact ⟨hcol, hline⟩

end Screen

/-! ## `wm_putchar` -/

section Putchar

variable {contentW contentH px py : Nat} {ch : Int} {fg bg : Color}

/-- The cells of a character that is wholly inside the buffer. -/
def CharCell (contentW contentH px py x y : Nat) : Prop :=
  (px + fontCharWidth ≤ contentW ∧ py + fontCharHeight ≤ contentH) ∧
    (px ≤ x ∧ x < px + fontCharWidth) ∧ py ≤ y ∧ y < py + fontCharHeight

/-- The value of the cell `(x, y)` of a character at `(px, py)`. -/
def charPixel (ch : Int) (px py : Nat) (fg bg : Color) (x y : Nat) : Nat :=
  colorToPixel (if fontBit (fontVga8x16 (fontIndex ch) (y - py)) (x - px) then fg else bg)

/-- Neither sum wraps around, or a wrapped sum is still behind the edge. -/
def CharNoWrap (contentW contentH px py : Nat) : Prop :=
  px + fontCharWidth < 2 ^ 32 ∧ py + fontCharHeight < 2 ^ 32 ∨
    u32 (px + fontCharWidth) > contentW ∨ u32 (py + fontCharHeight) > contentH

/-- The stores of `wm_putchar`. -/
def charStores (contentW contentH : Nat) (ch : Int) (px py : Nat) (fg bg : Color) : List Store :=
  if u32 (px + fontCharWidth) > contentW ∨ u32 (py + fontCharHeight) > contentH then []
  else
    rectStores fontCharWidth fontCharHeight fun row col =>
      (u32 ((py + row) * contentW + (px + col)),
        colorToPixel (if fontBit (fontVga8x16 (fontIndex ch) row) col then fg else bg))

theorem performs_wmPutchar (contentW contentH : Nat) (ch : Int) (px py : Nat) (fg bg : Color) :
    Performs (fun g win => wmPutchar g win ch px py fg bg) contentW contentH
      (charStores contentW contentH ch px py fg bg) := by
  intro g win w old hw hwidth hheight hold
  subst hwidth hheight
  simp only [wmPutchar, charStores, hw, Option.bind_eq_bind, Option.bind_some, hold,
    Option.isNone_some, Bool.false_eq_true, if_false]
  by_cases hx : u32 (px + fontCharWidth) > w.contentW
  · rw [if_pos hx, if_pos (.inl hx)]
    exact performs_nil hw hold
  · by_cases hy : u32 (py + fontCharHeight) > w.contentH
    · rw [if_neg hx, if_pos hy, if_pos (.inr hy)]
      exact performs_nil hw hold
    · rw [if_neg hx, if_neg hy, if_neg (not_or.mpr ⟨hx, hy⟩)]
      exact exists_draw_perform hw hold _

/-- Where the sums do not wrap around the stores are those of the cell. -/
theorem mem_charStores (hwords : 4 * (contentW * contentH) ≤ 2 ^ 32) (hwidth : contentW < 2 ^ 32)
    (hheight : contentH < 2 ^ 32) (hwrap : CharNoWrap contentW contentH px py) {s : Store} :
    s ∈ charStores contentW contentH ch px py fg bg ↔
      ∃ x y, CharCell contentW contentH px py x y ∧
        s = (y * contentW + x, charPixel ch px py fg bg x y) := by
  unfold charStores CharCell charPixel
  by_cases hout : u32 (px + fontCharWidth) > contentW ∨ u32 (py + fontCharHeight) > contentH
  · rw [if_pos hout]
    constructor
    · intro hs
      exact absurd hs List.not_mem_nil
    · intro ⟨x, y, hin, _⟩
      rw [u32_of_lt (by omega), u32_of_lt (by omega)] at hout
      omega
  · rw [if_neg hout, mem_rectStores]
    obtain ⟨hsumx, hsumy⟩ := hwrap.resolve_right hout
    rw [u32_of_lt hsumx, u32_of_lt hsumy] at hout
    have hcells : ∀ x y, x < contentW → y < contentH →
        u32 (y * contentW + x) = y * contentW + x := by
      intro x y hx hy
      have hlt := cell_lt hx hy
      exact u32_of_lt (by omega)
    constructor
    · intro ⟨row, hrow, col, hcol, hs⟩
      refine ⟨px + col, py + row, by omega, ?_⟩
      rw [← hs, hcells _ _ (by omega) (by omega), Nat.add_sub_cancel_left,
        Nat.add_sub_cancel_left]
    · intro ⟨x, y, hin, hs⟩
      refine ⟨y - py, by omega, x - px, by omega, ?_⟩
      rw [hs, Nat.add_sub_of_le hin.2.2.1, Nat.add_sub_of_le hin.2.1.1,
        hcells _ _ (by omega) (by omega)]

/-- `wm_putchar` draws the cell if it fits and changes nothing otherwise, exactly when no wrapped
sum passes its tests. -/
theorem putchar_iff (hpos : 1 ≤ contentW ∧ 1 ≤ contentH)
    (hwords : 4 * (contentW * contentH) ≤ 2 ^ 32) :
    DrawsInBuffer contentW contentH (fun g win => wmPutchar g win ch px py fg bg)
        (CharCell contentW contentH px py) (charPixel ch px py fg bg) ↔
      CharNoWrap contentW contentH px py := by
  have hwidth : contentW ≤ contentW * contentH := Nat.le_mul_of_pos_right _ hpos.2
  have hheight : contentH ≤ contentW * contentH := Nat.le_mul_of_pos_left _ hpos.1
  rw [(performs_wmPutchar contentW contentH ch px py fg bg).draws_iff]
  constructor
  · intro hdrawn
    by_contra hwrap
    unfold CharNoWrap at hwrap
    push Not at hwrap
    obtain ⟨hsum, hx, hy⟩ := hwrap
    have hmem : (u32 ((py + 0) * contentW + (px + 0)), colorToPixel
        (if fontBit (fontVga8x16 (fontIndex ch) 0) 0 then fg else bg)) ∈
          charStores contentW contentH ch px py fg bg := by
      unfold charStores
      rw [if_neg (by omega), mem_rectStores]
      exact ⟨0, by decide, 0, by decide, rfl⟩
    obtain ⟨x, y, hin, -⟩ := Drawn.region_of_mem hdrawn hmem
    have hfits := hin.1
    have hsumy := hsum (by omega)
    omega
  · intro hwrap
    apply drawn_perform
    · intro x y hin
      exact (mem_charStores hwords (by omega) (by omega) hwrap).mpr ⟨x, y, hin, rfl⟩
    · intro s hs
      exact (mem_charStores hwords (by omega) (by omega) hwrap).mp hs
    · intro x y x' y' hin hin' heq
      have hfits := hin.1
      exact cell_inj (by have := hin.2.1; omega) (by have := hin'.2.1; omega) heq

end Putchar

/-- For every size of a window, every framebuffer and all arguments: `wm_fill_rect` and
`fb_fill_rect` change exactly the visible cells just when no sum of the clipping wraps around, and
`wm_putchar` draws a character just when it fits if no wrapped sum passes its tests. -/
theorem clipped_drawing_iff (contentW contentH : Nat) (hpos : 1 ≤ contentW ∧ 1 ≤ contentH)
    (hwords : 4 * (contentW * contentH) ≤ 2 ^ 32) (fb : Framebuffer) (hfb : fb.Placed) :
    (∀ rx ry rw rh c, rx < 2 ^ 32 → ry < 2 ^ 32 → rw < 2 ^ 32 → rh < 2 ^ 32 →
      (DrawsInBuffer contentW contentH (fun g win => wmFillRect g win rx ry rw rh c)
          (Visible contentW contentH rx ry rw rh) (fun _ _ => colorToPixel c) ↔
        NoWrap contentW contentH rx ry rw rh)) ∧
    (∀ x y w h c, x < 2 ^ 32 → y < 2 ^ 32 → w < 2 ^ 32 → h < 2 ^ 32 →
      ((∀ vram, Drawn fb.pixel (Visible fb.width fb.height x y w h) (fun _ _ => colorToPixel c)
          vram (perform (fbFillRect fb x y w h c) vram)) ↔
        NoWrap fb.width fb.height x y w h)) ∧
    ∀ ch px py fg bg, px < 2 ^ 32 → py < 2 ^ 32 →
      (DrawsInBuffer contentW contentH (fun g win => wmPutchar g win ch px py fg bg)
          (CharCell contentW contentH px py) (charPixel ch px py fg bg) ↔
        CharNoWrap contentW contentH px py) := by
  refine ⟨?_, ?_, ?_⟩
  · intro rx ry rw rh c _ _ hrw hrh
    exact fillRect_iff hpos hwords hrw hrh
  · intro x y w h c _ _ hw hh
    exact fbFillRect_iff hfb hw hh
  · intro ch px py fg bg _ _
    exact putchar_iff hpos hwords

/-- The screen of 1024 by 768 pixels that the boot loader asks for. -/
def bootScreen : Framebuffer := framebufferMap (framebufferInit 0xFD000000 1024 768 4096 32)

theorem bootScreen_placed : bootScreen.Placed := ⟨by decide, by decide, by decide⟩

/-- On a window of 10 by 20 cells, and on the screen: calls at the edges are clipped. -/
theorem clipped_drawing_edges :
    DrawsInBuffer 10 20 (fun g win => wmFillRect g win 3 5 100 200 colorWhite)
        (Visible 10 20 3 5 100 200) (fun _ _ => colorToPixel colorWhite) ∧
      (∀ vram, Drawn bootScreen.pixel (Visible 1024 768 1020 760 100 200)
        (fun _ _ => colorToPixel colorWhite) vram
        (perform (fbFillRect bootScreen 1020 760 100 200 colorWhite) vram)) ∧
      DrawsInBuffer 10 20 (fun g win => wmPutchar g win 65 2 4 colorWhite colorBlack)
        (CharCell 10 20 2 4) (charPixel 65 2 4 colorWhite colorBlack) := by
  obtain ⟨hfill, hscreen, hchar⟩ :=
    clipped_drawing_iff 10 20 (by decide) (by decide) bootScreen bootScreen_placed
  refine ⟨?_, ?_, ?_⟩
  · exact (hfill 3 5 100 200 colorWhite (by decide) (by decide) (by decide) (by decide)).mpr
      (by unfold NoWrap; omega)
  · exact (hscreen 1020 760 100 200 colorWhite (by decide) (by decide) (by decide)
      (by decide)).mpr (by unfold NoWrap; omega)
  · exact (hchar 65 2 4 colorWhite colorBlack (by decide) (by decide)).mpr (.inl (by decide))

/-- A width of `2 ^ 32 - 1` at column 1 is not clipped, and a character at column `2 ^ 32 - 8` is
drawn. -/
theorem clipped_drawing_wraps :
    ¬ DrawsInBuffer 10 20 (fun g win => wmFillRect g win 1 0 0xFFFFFFFF 1 colorWhite)
        (Visible 10 20 1 0 0xFFFFFFFF 1) (fun _ _ => colorToPixel colorWhite) ∧
      ¬ (∀ vram, Drawn bootScreen.pixel (Visible 1024 768 1 0 0xFFFFFFFF 1)
        (fun _ _ => colorToPixel colorWhite) vram
        (perform (fbFillRect bootScreen 1 0 0xFFFFFFFF 1 colorWhite) vram)) ∧
      ¬ DrawsInBuffer 10 20 (fun g win => wmPutchar g win 65 0xFFFFFFF8 0 colorWhite colorBlack)
        (CharCell 10 20 0xFFFFFFF8 0) (charPixel 65 0xFFFFFFF8 0 colorWhite colorBlack) := by
  refine ⟨?_, ?_, ?_⟩
  · rw [fillRect_iff (by decide) (by decide) (by decide) (by decide)]
    unfold NoWrap
    omega
  · intro hdrawn
    have hwrap := (fbFillRect_iff bootScreen_placed (by decide) (by decide)).mp hdrawn
    have hwidth : bootScreen.width = 1024 := rfl
    have hheight : bootScreen.height = 768 := rfl
    unfold NoWrap at hwrap
    omega
  · rw [putchar_iff (by decide) (by decide)]
    unfold CharNoWrap
    decide

end SRos.Gui
