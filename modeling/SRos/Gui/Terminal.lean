import SRos.Gui.Console

/-!
# The console as a character terminal

A terminal is a grid of characters with a position in it. The console shows one: at every time the
pixels of a cell are the glyph of the character that the terminal holds there.
-/

namespace SRos.Gui

open Words

structure Terminal where
  rows : Nat
  cols : Nat
  grid : Nat → Nat → Nat
  row : Nat
  col : Nat

namespace Terminal

/-- A terminal full of spaces. -/
def blank (rows cols : Nat) : Terminal := ⟨rows, cols, fun _ _ => 0x20, 0, 0⟩

/-- The character that is held for `c`. -/
def printed (c : Int) : Nat := if 0x20 ≤ c ∧ c ≤ 0x7F then c.toNat else 0x20

/-- A character at the position. -/
def put (t : Terminal) (ch : Nat) : Terminal :=
  { t with grid := fun r c => if r = t.row ∧ c = t.col then ch else t.grid r c }

def newline (t : Terminal) : Terminal := { t with row := t.row + 1, col := 0 }

/-- One line up, with a blank last line. -/
def scroll (t : Terminal) : Terminal :=
  { t with
    grid := fun r c => if r + 1 < t.rows then t.grid (r + 1) c else 0x20
    row := t.rows - 1 }

def wrap (t : Terminal) : Terminal := if t.cols ≤ t.col then t.newline else t

def settle (t : Terminal) : Terminal := if t.rows ≤ t.row then t.scroll else t

def putc (t : Terminal) (c : Int) : Terminal :=
  settle <| wrap <|
    if c = 0x08 then put { t with col := t.col - 1 } 0x20
    else if c = 0x0A then t.newline
    else if c = 0x0D then { t with col := 0 }
    else if c = 0x09 then { t with col := (t.col / 4 + 1) * 4 }
    else { t.put (printed c) with col := t.col + 1 }

end Terminal

/-- The pixel in line `i` and column `j` of a character. -/
def glyphPixel (ch i j : Nat) : Nat :=
  colorToPixel (if fontBit (fontVga8x16 (ch - 0x20) i) j then consoleFg else consoleBg)

/-- The cells of the screen show the characters of the terminal. -/
def Draws (fb : Framebuffer) (m : Nat → UInt8) (t : Terminal) : Prop :=
  ∀ r < t.rows, ∀ c < t.cols, ∀ i < 16, ∀ j < 8,
    pixelAt fb m (c * 8 + j) (16 * r + i) = glyphPixel (t.grid r c) i j

/-- The console shows the terminal, at the same position. -/
structure Displays (s : Console) (t : Terminal) : Prop where
  screen : TextScreen s.fb
  rows : t.rows = consoleRows s.fb
  cols : t.cols = consoleCols s.fb
  row : s.row = t.row
  col : s.col = t.col
  draws : Draws s.fb s.mem t

variable {fb : Framebuffer} {m : Nat → UInt8} {s : Console} {t : Terminal}

/-- The position is in the grid. -/
def Terminal.Inside (t : Terminal) : Prop := t.row < t.rows ∧ t.col < t.cols

theorem Terminal.wrap_size (t : Terminal) : t.wrap.rows = t.rows ∧ t.wrap.cols = t.cols := by
  unfold wrap
  split <;> exact ⟨rfl, rfl⟩

theorem fontIndex_eq (c : Int) : fontIndex c = Terminal.printed c - 0x20 := by
  have hfirst : (fontFirstChar : Int) = 0x20 := rfl
  have hnum : (fontNumChars : Int) = 96 := rfl
  unfold fontIndex Terminal.printed
  rw [hfirst, hnum]
  split
  · rw [if_neg (by omega)]
  · rw [if_pos (by omega)]
    omega

/-- A space is all background. -/
theorem glyphPixel_space {i j : Nat} : glyphPixel 0x20 i j = colorToPixel consoleBg := by
  have hbits : fontVga8x16 0 i = 0 := by
    have hglyph : fontGlyphs.getD 0 0 = 0 := rfl
    unfold fontVga8x16
    rw [hglyph, Nat.zero_shiftRight]
  have hbit : fontBit 0 j = false := by
    unfold fontBit
    rw [Nat.zero_and]
    rfl
  unfold glyphPixel
  rw [Nat.sub_self, hbits, hbit]
  rfl

namespace Displays

theorem rows_lt (h : Displays s t) : 16 * t.rows ≤ 65535 := by
  have hrows := consoleRows_le s.fb
  rw [← h.rows] at hrows
  exact hrows.trans h.screen.height.2

theorem cols_lt (h : Displays s t) : t.cols * 8 ≤ 65535 := by
  have hcols := consoleCols_le s.fb
  rw [← h.cols] at hcols
  exact hcols.trans h.screen.width.2

/-- Another position. -/
theorem move (h : Displays s t) {row col : Int} {r c : Nat} (hrow : row = r) (hcol : col = c) :
    Displays { s with row := row, col := col } { t with row := r, col := c } :=
  ⟨h.screen, h.rows, h.cols, hrow, hcol, h.draws⟩

/-- A character is drawn into its own cell. -/
theorem putcharAt (h : Displays s t) (hrow : t.row < t.rows) (hcol : t.col < t.cols) (c : Int) :
    Displays (putcharAt s c) (t.put (Terminal.printed c)) := by
  have hrows := consoleRows_le s.fb
  have hcols := consoleCols_le s.fb
  rw [← h.rows] at hrows
  rw [← h.cols] at hcols
  have hpitch : s.fb.width ≤ s.fb.pitchDwords := h.screen.pitch
  have hwidth := h.screen.width.2
  have hheight := h.screen.height.2
  have hx : u32OfInt (s.col * fontCharWidth) = t.col * 8 := by
    have hcw : (fontCharWidth : Int) = 8 := rfl
    rw [hcw, h.col, u32OfInt_of_nonneg (by omega) (by omega)]
    omega
  have hy : u32OfInt (s.row * fontCharHeight) = 16 * t.row := by
    have hch : (fontCharHeight : Int) = 16 := rfl
    rw [hch, h.row, u32OfInt_of_nonneg (by omega) (by omega)]
    omega
  refine ⟨h.screen, h.rows, h.cols, h.row, h.col, ?_⟩
  intro r hr c' hc' i hi j hj
  have hr : r < t.rows := hr
  have hc' : c' < t.cols := hc'
  have hold := h.draws r hr c' hc' i hi j hj
  unfold Gui.putcharAt
  simp only
  rw [hx, hy, h.screen.fbPutchar_eq (by omega) (by omega),
    pixelAt_rect (fun _ _ => colorToPixel_lt _) (by omega) (by omega)]
  by_cases hcell : r = t.row ∧ c' = t.col
  · have hgrid : (t.put (Terminal.printed c)).grid r c' = Terminal.printed c := if_pos hcell
    rw [if_pos (by omega), hgrid, ← hcell.1, ← hcell.2, Nat.add_sub_cancel_left,
      Nat.add_sub_cancel_left, fontIndex_eq]
    rfl
  · have hgrid : (t.put (Terminal.printed c)).grid r c' = t.grid r c' := if_neg hcell
    rw [if_neg (by omega), hgrid]
    exact hold

theorem newline (h : Displays s t) (hrow : t.row ≤ t.rows) :
    Displays { s with col := 0, row := i32 (s.row + 1) } t.newline := by
  have hrows := h.rows_lt
  apply h.move
  · rw [h.row, i32_of_range (by omega) (by omega)]
    rfl
  · rfl

theorem scroll (h : Displays s t) :
    Displays { s with
      mem := fbConsoleScroll s.fb s.mem, row := int32 (u32Sub (consoleRows s.fb) 1) } t.scroll := by
  have hrows := h.rows_lt
  have hpos := h.screen.rows_pos
  rw [← h.rows] at hpos
  refine ⟨h.screen, h.rows, h.cols, ?_, h.col, ?_⟩
  · simp only [Terminal.scroll]
    rw [← h.rows, u32Sub_of_le (by omega) hpos, int32_of_lt (by omega)]
  · intro r hr c hc i hi j hj
    have hr : r < t.rows := hr
    have hc : c < t.cols := hc
    have hrows := h.rows
    have hcols := h.cols
    simp only [Terminal.scroll]
    rw [h.screen.pixelAt_scroll (by omega) (by omega)]
    by_cases hlast : r + 1 < t.rows
    · rw [if_pos (by omega), if_pos hlast, ← h.draws (r + 1) hlast c hc i hi j hj]
      congr 1
      omega
    · rw [if_neg (by omega), if_neg hlast, glyphPixel_space]

/-- The end of `fb_console_putc`. The position is in front of the last row, or at the left end of the
line behind it. -/
theorem wrapConsole (h : Displays s t) (hcol : t.col < 2 ^ 31)
    (hpos : t.row < t.rows ∨ t.row = t.rows ∧ t.col = 0) :
    Displays (wrapConsole s) t.wrap.settle ∧ t.wrap.settle.Inside := by
  have hrows := h.rows_lt
  have hrowsPos := h.screen.rows_pos
  have hcolsPos := h.screen.cols_pos
  rw [← h.rows] at hrowsPos
  rw [← h.cols] at hcolsPos
  have hwrap : Displays (if u32OfInt s.col ≥ consoleCols s.fb then
      { s with col := 0, row := i32 (s.row + 1) } else s) t.wrap ∧
        t.wrap.row ≤ t.rows ∧ t.wrap.col < t.cols := by
    rw [← h.cols, h.col, u32OfInt_of_nonneg (by omega) (by omega), Int.toNat_natCast]
    unfold Terminal.wrap
    by_cases hover : t.cols ≤ t.col
    · rw [if_pos hover, if_pos hover]
      have hlt : t.row < t.rows := by omega
      exact ⟨h.newline hlt.le, hlt, hcolsPos⟩
    · rw [if_neg hover, if_neg hover]
      exact ⟨h, by omega, by omega⟩
  obtain ⟨hshows, hrow, hcol⟩ := hwrap
  obtain ⟨hwrapRows, hwrapCols⟩ := t.wrap_size
  unfold Gui.wrapConsole
  generalize (if u32OfInt s.col ≥ consoleCols s.fb then
    { s with col := 0, row := i32 (s.row + 1) } else s) = s' at hshows ⊢
  simp only
  rw [← hshows.rows, hshows.row, u32OfInt_of_nonneg (by omega) (by omega), Int.toNat_natCast]
  unfold Terminal.settle
  by_cases hover : t.wrap.rows ≤ t.wrap.row
  · rw [if_pos hover, if_pos hover]
    refine ⟨?_, ?_, hwrapCols ▸ hcol⟩
    · rw [hshows.rows]
      exact hshows.scroll
    · show t.wrap.rows - 1 < t.wrap.rows
      omega
  · rw [if_neg hover, if_neg hover]
    exact ⟨hshows, by omega, by omega⟩

/-- One character. -/
theorem putc (h : Displays s t) (hin : t.Inside) (c : Int) :
    Displays (fbConsolePutc s c) (t.putc c) ∧ (t.putc c).Inside := by
  obtain ⟨hrow, hcol⟩ := hin
  have hrows := h.rows_lt
  have hcols := h.cols_lt
  unfold fbConsolePutc Terminal.putc
  by_cases hback : c = 0x08
  · rw [if_pos hback, if_pos hback]
    have hmove : Displays (if s.col > 0 then { s with col := i32 (s.col - 1) } else s)
        { t with col := t.col - 1 } := by
      rw [h.col]
      split
      · next hpos =>
          apply h.move h.row
          rw [i32_of_range (by omega) (by omega)]
          omega
      · next hpos =>
          apply h.move h.row
          rw [h.col]
          omega
    exact (hmove.putcharAt hrow (lt_of_le_of_lt (Nat.sub_le _ _) hcol) 0x20).wrapConsole
      (show t.col - 1 < 2 ^ 31 by omega) (.inl hrow)
  rw [if_neg hback, if_neg hback]
  by_cases hline : c = 0x0A
  · rw [if_pos hline, if_pos hline]
    apply (h.newline hrow.le).wrapConsole
    · exact Nat.two_pow_pos 31
    · show t.row + 1 < t.rows ∨ t.row + 1 = t.rows ∧ 0 = 0
      omega
  rw [if_neg hline, if_neg hline]
  by_cases hreturn : c = 0x0D
  · rw [if_pos hreturn, if_pos hreturn]
    exact (h.move h.row rfl).wrapConsole (Nat.two_pow_pos 31) (.inl hrow)
  rw [if_neg hreturn, if_neg hreturn]
  by_cases htab : c = 0x09
  · rw [if_pos htab, if_pos htab]
    have hstop : i32 ((i32 (s.col + 4)).tdiv 4 * 4) = ((t.col / 4 + 1) * 4 : Nat) := by
      have hadd : i32 ((t.col : Int) + 4) = t.col + 4 := i32_of_range (by omega) (by omega)
      rw [h.col, hadd, Int.tdiv_eq_ediv_of_nonneg (by omega), i32_of_range (by omega) (by omega)]
      omega
    exact (h.move h.row hstop).wrapConsole (show (t.col / 4 + 1) * 4 < 2 ^ 31 by omega) (.inl hrow)
  rw [if_neg htab, if_neg htab]
  have hput := h.putcharAt hrow hcol c
  have hnext : i32 ((Gui.putcharAt s c).col + 1) = (t.col + 1 : Nat) := by
    have hkeep : (Gui.putcharAt s c).col = t.col := h.col
    rw [hkeep, i32_of_range (by omega) (by omega)]
    rfl
  exact (hput.move hput.row hnext).wrapConsole (show t.col + 1 < 2 ^ 31 by omega) (.inl hrow)

end Displays

/-- A cleared screen shows a blank terminal. -/
theorem displays_init (h : TextScreen s.fb) :
    Displays (fbConsoleInit s) (.blank (consoleRows s.fb) (consoleCols s.fb)) := by
  have hrows := consoleRows_le s.fb
  have hcols := consoleCols_le s.fb
  have hpitch : s.fb.width ≤ s.fb.pitchDwords := h.pitch
  refine ⟨h, rfl, rfl, rfl, rfl, ?_⟩
  intro r hr c hc i hi j hj
  have hr : r < consoleRows s.fb := hr
  have hc : c < consoleCols s.fb := hc
  unfold fbConsoleInit Terminal.blank
  simp only
  rw [h.fbClear_eq, pixelAt_rect (fun _ _ => colorToPixel_lt _) (by omega) (by omega),
    if_pos (by omega), glyphPixel_space]

theorem fbConsolePutc_fb (s : Console) (c : Int) : (fbConsolePutc s c).fb = s.fb := by
  have hwrap : ∀ s, (wrapConsole s).fb = s.fb := by
    intro s
    unfold wrapConsole
    simp only
    split <;> split <;> rfl
  unfold fbConsolePutc
  rw [hwrap]
  split
  · unfold putcharAt
    simp only
    split <;> rfl
  · split
    · rfl
    · split
      · rfl
      · split <;> rfl

/-- Any characters. -/
theorem Displays.putcs (h : Displays s t) (hin : t.Inside) (cs : List Int) :
    (cs.foldl fbConsolePutc s).fb = s.fb ∧
      Displays (cs.foldl fbConsolePutc s) (cs.foldl Terminal.putc t) ∧
      (cs.foldl Terminal.putc t).Inside := by
  induction cs generalizing s t with
  | nil => exact ⟨rfl, h, hin⟩
  | cons c cs ih =>
      obtain ⟨hc, hin⟩ := h.putc hin c
      obtain ⟨hfb, hcs⟩ := ih hc hin
      exact ⟨hfb.trans (fbConsolePutc_fb s c), hcs⟩

theorem Displays.puts (h : Displays s t) (hin : t.Inside) (str : CStr) :
    Displays (fbConsolePuts s str) ((str.bytes.map charValue).foldl Terminal.putc t) := by
  have hputcs := (h.putcs hin (str.bytes.map charValue)).2.1
  rw [List.foldl_map] at hputcs
  exact hputcs

/-- **The console refines a character terminal.** After any characters the position is on the
screen, and every cell shows the glyph of the character that the terminal holds there. -/
theorem console_refines {s : Console} (h : TextScreen s.fb) (cs : List Int) :
    let s' := cs.foldl fbConsolePutc (fbConsoleInit s)
    let t := cs.foldl Terminal.putc (.blank (consoleRows s.fb) (consoleCols s.fb))
    ((0 ≤ s'.col ∧ s'.col < consoleCols s.fb) ∧ 0 ≤ s'.row ∧ s'.row < consoleRows s.fb) ∧
      (s'.row = t.row ∧ s'.col = t.col) ∧
      ∀ r < consoleRows s.fb, ∀ c < consoleCols s.fb, ∀ i < 16, ∀ j < 8,
        pixelAt s.fb s'.mem (c * 8 + j) (16 * r + i) = glyphPixel (t.grid r c) i j := by
  intro s' t
  have hshows : s'.fb = s.fb ∧ Displays s' t ∧ t.Inside :=
    (displays_init h).putcs ⟨h.rows_pos, h.cols_pos⟩ cs
  obtain ⟨hfb, hshows, hrow, hcol⟩ := hshows
  have hrows := hshows.rows
  have hcols := hshows.cols
  have hdraws := hshows.draws
  unfold Draws at hdraws
  rw [hfb] at hrows hcols hdraws
  rw [hrows] at hrow hdraws
  rw [hcols] at hcol hdraws
  rw [hshows.row, hshows.col]
  exact ⟨⟨⟨by omega, by omega⟩, by omega, by omega⟩, ⟨rfl, rfl⟩, hdraws⟩

/-- A mapped framebuffer of 1024 × 768 pixels. -/
def consoleScreen : Framebuffer :=
  framebufferMap (framebufferInit 0xE0000000 1024 768 4096 32)

theorem console_refines_line :
    TextScreen consoleScreen ∧
      pixelAt consoleScreen
        ([0x41, 0x0A].foldl fbConsolePutc (fbConsoleInit ⟨consoleScreen, fun _ => 0, 0, 0⟩)).mem 3 3 =
          glyphPixel 0x41 3 3 := by
  have hscreen : TextScreen consoleScreen := by
    constructor <;> decide
  refine ⟨hscreen, ?_⟩
  have hcells := (@console_refines ⟨consoleScreen, fun _ => 0, 0, 0⟩ hscreen [0x41, 0x0A]).2.2
  exact hcells 0 (by decide) 0 (by decide) 3 (by decide) 3 (by decide)

end SRos.Gui
