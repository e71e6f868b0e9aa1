import SRos.Gui.Hit
import SRos.Lib.Words

/-!
# The framebuffer console (`src/drivers/framebuffer.c`)

Pixels are words of a byte memory: the drawing functions store words, and scrolling copies bytes.
A drawing loop is the list of its stores.
-/

namespace SRos.Gui

open Bytes Stores Words

def colorBlack : Color := ⟨0, 0, 0, 0⟩
def colorWhite : Color := ⟨255, 255, 255, 0⟩

/-- The memory, the framebuffer, and `console_row` and `console_col`. -/
structure Console where
  fb : Framebuffer
  mem : Nat → UInt8
  row : Int
  col : Int

def consoleFg : Color := colorWhite
def consoleBg : Color := colorBlack

/-- `CONSOLE_COLS`. -/
def consoleCols (fb : Framebuffer) : Nat := fb.width / fontCharWidth

/-- `CONSOLE_ROWS`. -/
def consoleRows (fb : Framebuffer) : Nat := fb.height / fontCharHeight

def fbFillRect (fb : Framebuffer) (x y w h : Nat) (c : Color) : List Store :=
  if fb.addr = 0 then []
  else if x ≥ fb.width ∨ y ≥ fb.height then []
  else
    let w := if u32 (x + w) > fb.width then u32Sub fb.width x else w
    let h := if u32 (y + h) > fb.height then u32Sub fb.height y else h
    let pixel := colorToPixel c
    (List.range h).flatMap fun (row : Nat) =>
      let ptr := fb.addr + 4 * u32 ((y + row) * fb.pitchDwords) + 4 * x
      (List.range w).map fun (col : Nat) => (ptr + 4 * col, pixel)

def fbClear (fb : Framebuffer) (c : Color) : List Store := fbFillRect fb 0 0 fb.width fb.height c

def fbPutchar (fb : Framebuffer) (c : Int) (x y : Nat) (fg bg : Color) : List Store :=
  if fb.addr = 0 then []
  else if u32 (x + fontCharWidth) > fb.width then []
  else if u32 (y + fontCharHeight) > fb.height then []
  else
    let idx := fontIndex c
    (List.range fontCharHeight).flatMap fun (row : Nat) =>
      let bits := fontVga8x16 idx row
      (List.range fontCharWidth).map fun (col : Nat) =>
        (fb.addr + 4 * u32 ((y + row) * fb.pitchDwords + (x + col)),
          colorToPixel (if fontBit bits col then fg else bg))

/-- `memcpy` (`src/kernel/string.c`). -/
def memcpyBytes (m : Nat → UInt8) (dest src n : Nat) : Nat → UInt8 := copyBytes n dest src m

/-- The word in front of row `row` of characters. -/
def rowAddr (fb : Framebuffer) (row : Nat) : Nat :=
  fb.addr + 4 * u32 (row * u32 (fontCharHeight * fb.pitchDwords))

/-- The copies of `fb_console_scroll`. -/
def scrollRows (fb : Framebuffer) (m : Nat → UInt8) : Nat → UInt8 :=
  (List.range' 1 (consoleRows fb - 1)).foldl
    (fun m row =>
      memcpyBytes m (rowAddr fb (row - 1)) (rowAddr fb row) (u32 (fontCharHeight * fb.pitch))) m

/-- The stores of `fb_console_scroll` that clear the last row. -/
def clearLastRow (fb : Framebuffer) : List Store :=
  let lastRow := rowAddr fb (u32Sub (consoleRows fb) 1)
  let bgPixel := colorToPixel consoleBg
  let totalCols := u32 (consoleCols fb * fontCharWidth)
  (List.range fontCharHeight).flatMap fun (row : Nat) =>
    (List.range totalCols).map fun (col : Nat) =>
      (lastRow + 4 * u32 (row * fb.pitchDwords + col), bgPixel)

def fbConsoleScroll (fb : Framebuffer) (m : Nat → UInt8) : Nat → UInt8 :=
  storeWords (clearLastRow fb) (scrollRows fb m)

def fbConsoleInit (s : Console) : Console :=
  { s with mem := storeWords (fbClear s.fb consoleBg) s.mem, row := 0, col := 0 }

/-- `fb_putchar` at the position of the console. -/
def putcharAt (s : Console) (c : Int) : Console :=
  { s with
    mem := storeWords (fbPutchar s.fb c (u32OfInt (s.col * fontCharWidth))
      (u32OfInt (s.row * fontCharHeight)) consoleFg consoleBg) s.mem }

/-- The end of `fb_console_putc`: a new line behind the last column, and scrolling behind the last
row. -/
def wrapConsole (s : Console) : Console :=
  let s := if u32OfInt s.col ≥ consoleCols s.fb then { s with col := 0, row := i32 (s.row + 1) } else s
  if u32OfInt s.row ≥ consoleRows s.fb then
    { s with mem := fbConsoleScroll s.fb s.mem, row := int32 (u32Sub (consoleRows s.fb) 1) }
  else s

def fbConsolePutc (s : Console) (c : Int) : Console :=
  wrapConsole <|
    if c = 0x08 then
      putcharAt (if s.col > 0 then { s with col := i32 (s.col - 1) } else s) 0x20
    else if c = 0x0A then { s with col := 0, row := i32 (s.row + 1) }
    else if c = 0x0D then { s with col := 0 }
    else if c = 0x09 then { s with col := i32 ((i32 (s.col + 4)).tdiv 4 * 4) }
    else
      let s := putcharAt s c
      { s with col := i32 (s.col + 1) }

/-- `fb_console_puts`, on the bytes in front of the NUL. -/
def fbConsolePuts (s : Console) (str : CStr) : Console :=
  str.bytes.foldl (fun s b => fbConsolePutc s (charValue b)) s

/-! ## What the drawing functions change -/

/-- A mapped framebuffer that holds at least one character. -/
structure TextScreen (fb : Framebuffer) : Prop where
  mapped : fb.addr ≠ 0
  width : 8 ≤ fb.width ∧ fb.width ≤ 65535
  height : 16 ≤ fb.height ∧ fb.height ≤ 65535
  aligned : fb.pitch % 4 = 0
  pitch : fb.width ≤ fb.pitch / 4
  size : fb.pitch * fb.height < 2 ^ 32

/-- The value of the pixel in column `sx` and line `sy`. -/
def pixelAt (fb : Framebuffer) (m : Nat → UInt8) (sx sy : Nat) : Nat :=
  wordAt fb.addr m (sy * fb.pitchDwords + sx)

/-- The stores of a rectangle of pixels, by the index of the word. -/
def rectWords (fb : Framebuffer) (x y w h : Nat) (f : Nat → Nat → Nat) : List (Nat × Nat) :=
  (List.range h).flatMap fun (row : Nat) =>
    (List.range w).map fun (col : Nat) => ((y + row) * fb.pitchDwords + (x + col), f row col)

variable {fb : Framebuffer} {m : Nat → UInt8}

theorem colorToPixel_lt (c : Color) : colorToPixel c < 2 ^ 32 := by
  have hr := c.r.toNat_lt
  have hg := c.g.toNat_lt
  have hb := c.b.toNat_lt
  unfold colorToPixel
  apply Nat.or_lt_two_pow
  · apply Nat.or_lt_two_pow
    · rw [Nat.shiftLeft_eq]
      omega
    · rw [Nat.shiftLeft_eq]
      omega
  · omega

theorem mem_rectWords {x y w h : Nat} {f : Nat → Nat → Nat} {t : Nat × Nat} :
    t ∈ rectWords fb x y w h f ↔ ∃ row < h, ∃ col < w,
      t = ((y + row) * fb.pitchDwords + (x + col), f row col) := by
  simp only [rectWords, List.mem_flatMap, List.mem_range, List.mem_map, eq_comm]

/-- A word of the framebuffer is one pixel of one line. -/
theorem index_inj {p a b c d : Nat} (hb : b < p) (hd : d < p) (h : a * p + b = c * p + d) :
    a = c ∧ b = d := by
  have hpos : 0 < p := by omega
  have hdiv : ∀ x y, y < p → (x * p + y) / p = x := by
    intro x y hy
    rw [Nat.mul_comm, Nat.mul_add_div hpos, Nat.div_eq_of_lt hy, Nat.add_zero]
  have hac : a = c := by rw [← hdiv a b hb, h, hdiv c d hd]
  subst hac
  exact ⟨rfl, by omega⟩

/-- The pixels after a rectangle has been drawn. -/
theorem pixelAt_rect {x y w h : Nat} {f : Nat → Nat → Nat} (hf : ∀ i j, f i j < 2 ^ 32)
    (hw : x + w ≤ fb.pitchDwords) {sx sy : Nat} (hsx : sx < fb.pitchDwords) :
    pixelAt fb (storeWords ((rectWords fb x y w h f).map fun t => (fb.addr + 4 * t.1, t.2)) m) sx sy =
      if (x ≤ sx ∧ sx < x + w) ∧ y ≤ sy ∧ sy < y + h then f (sy - y) (sx - x)
      else pixelAt fb m sx sy := by
  unfold pixelAt
  rw [wordAt_storeWords]
  · have hmem : ∀ v, (sy * fb.pitchDwords + sx, v) ∈ rectWords fb x y w h f →
        ((x ≤ sx ∧ sx < x + w) ∧ y ≤ sy ∧ sy < y + h) ∧ v = f (sy - y) (sx - x) := by
      intro v hv
      obtain ⟨row, hrow, col, hcol, heq⟩ := mem_rectWords.mp hv
      obtain ⟨hindex, rfl⟩ := Prod.mk.inj heq
      obtain ⟨rfl, rfl⟩ := index_inj hsx (by omega) hindex
      rw [Nat.add_sub_cancel_left, Nat.add_sub_cancel_left]
      exact ⟨by omega, rfl⟩
    split
    · next hin =>
        apply perform_of_forall
        · refine mem_rectWords.mpr ⟨sy - y, by omega, sx - x, by omega, ?_⟩
          rw [Nat.add_sub_cancel' hin.2.1, Nat.add_sub_cancel' hin.1.1]
        · intro v hv
          exact (hmem v hv).2
    · next hout =>
        apply perform_of_notMem
        intro hin
        obtain ⟨⟨a, v⟩, ht, rfl⟩ := List.mem_map.mp hin
        exact hout (hmem v ht).1
  · intro t ht
    obtain ⟨row, -, col, -, rfl⟩ := mem_rectWords.mp ht
    exact hf row col

theorem TextScreen.index_lt (h : TextScreen fb) {sx sy : Nat} (hx : sx < fb.pitchDwords)
    (hy : sy < fb.height) : sy * fb.pitchDwords + sx < 2 ^ 32 := by
  have hdiv : fb.pitchDwords ≤ fb.pitch := Nat.div_le_self _ _
  calc sy * fb.pitchDwords + sx < sy * fb.pitchDwords + fb.pitchDwords := Nat.add_lt_add_left hx _
    _ = (sy + 1) * fb.pitchDwords := (Nat.succ_mul _ _).symm
    _ ≤ fb.height * fb.pitchDwords := Nat.mul_le_mul_right _ hy
    _ ≤ fb.height * fb.pitch := Nat.mul_le_mul_left _ hdiv
    _ < 2 ^ 32 := by rw [Nat.mul_comm]; exact h.size

theorem TextScreen.fbPutchar_eq (h : TextScreen fb) {x y : Nat} (hx : x + 8 ≤ fb.width)
    (hy : y + 16 ≤ fb.height) (c : Int) (fg bg : Color) :
    fbPutchar fb c x y fg bg = (rectWords fb x y 8 16 fun i j =>
      colorToPixel (if fontBit (fontVga8x16 (fontIndex c) i) j then fg else bg)).map
        fun t => (fb.addr + 4 * t.1, t.2) := by
  have hcw : fontCharWidth = 8 := rfl
  have hch : fontCharHeight = 16 := rfl
  have hwidth := h.width.2
  have hheight := h.height.2
  have hpitch : fb.width ≤ fb.pitchDwords := h.pitch
  unfold fbPutchar rectWords
  rw [if_neg h.mapped, hcw, hch, u32_of_lt (by omega), u32_of_lt (by omega), if_neg (by omega),
    if_neg (by omega), List.map_flatMap]
  apply List.flatMap_congr
  intro row hrow
  have hrow := List.mem_range.mp hrow
  rw [List.map_map]
  apply List.map_congr_left
  intro col hcol
  have hcol := List.mem_range.mp hcol
  rw [u32_of_lt (h.index_lt (by omega) (by omega))]
  rfl

theorem TextScreen.fbClear_eq (h : TextScreen fb) (c : Color) :
    fbClear fb c = (rectWords fb 0 0 fb.width fb.height fun _ _ => colorToPixel c).map
      fun t => (fb.addr + 4 * t.1, t.2) := by
  obtain ⟨hwidth, hwidth'⟩ := h.width
  obtain ⟨hheight, hheight'⟩ := h.height
  have hpitch : fb.width ≤ fb.pitchDwords := h.pitch
  unfold fbClear fbFillRect rectWords
  rw [if_neg h.mapped, if_neg (by omega), Nat.zero_add, Nat.zero_add, u32_of_lt (by omega),
    u32_of_lt (by omega), if_neg (by omega), if_neg (by omega), List.map_flatMap]
  apply List.flatMap_congr
  intro row hrow
  have hrow := List.mem_range.mp hrow
  have hline : row * fb.pitchDwords < 2 ^ 32 :=
    lt_of_le_of_lt (Nat.le_add_right _ 0) (h.index_lt (by omega) (by omega))
  rw [List.map_map]
  apply List.map_congr_left
  intro col hcol
  have hcol := List.mem_range.mp hcol
  rw [Nat.zero_add, u32_of_lt hline]
  simp only [Function.comp_apply, Prod.mk.injEq, and_true]
  omega

theorem consoleRows_le (fb : Framebuffer) : 16 * consoleRows fb ≤ fb.height :=
  Nat.mul_div_le fb.height 16

theorem consoleCols_le (fb : Framebuffer) : consoleCols fb * 8 ≤ fb.width :=
  Nat.div_mul_le_self fb.width 8

/-- The bytes of a row of characters. -/
theorem TextScreen.rowBytes_lt (h : TextScreen fb) : 16 * fb.pitch < 2 ^ 32 := by
  have hmul : fb.pitch * 16 ≤ fb.pitch * fb.height := Nat.mul_le_mul_left _ h.height.1
  have hsize := h.size
  omega

theorem TextScreen.rows_pos (h : TextScreen fb) : 1 ≤ consoleRows fb := by
  have hheight := h.height.1
  have hch : fontCharHeight = 16 := rfl
  unfold consoleRows
  rw [hch]
  omega

theorem TextScreen.cols_pos (h : TextScreen fb) : 1 ≤ consoleCols fb := by
  have hwidth := h.width.1
  have hcw : fontCharWidth = 8 := rfl
  unfold consoleCols
  rw [hcw]
  omega

theorem TextScreen.rowAddr_eq (h : TextScreen fb) {r : Nat} (hr : r < consoleRows fb) :
    rowAddr fb r = fb.addr + 4 * (16 * r * fb.pitchDwords) := by
  have hrows := consoleRows_le fb
  have hwidth := h.width.1
  have hpitch : fb.width ≤ fb.pitchDwords := h.pitch
  have hline : ∀ k, k < fb.height → k * fb.pitchDwords < 2 ^ 32 := by
    intro k hk
    exact lt_of_le_of_lt (Nat.le_add_right _ 0) (h.index_lt (by omega) hk)
  have hbytes := h.rowBytes_lt
  have hch : fontCharHeight * fb.pitchDwords < 2 ^ 32 := by
    have hdiv : fb.pitchDwords ≤ fb.pitch := Nat.div_le_self _ _
    have hchh : fontCharHeight = 16 := rfl
    rw [hchh]
    omega
  have hmul : r * (fontCharHeight * fb.pitchDwords) = 16 * r * fb.pitchDwords := by
    rw [← Nat.mul_assoc, Nat.mul_comm r]
    rfl
  unfold rowAddr
  rw [u32_of_lt hch, hmul, u32_of_lt (hline _ (by omega))]

theorem index_le_iff {p a b c : Nat} (hb : b < p) : c * p ≤ a * p + b ↔ c ≤ a := by
  constructor
  · intro hle
    by_contra hlt
    have hmul : (a + 1) * p ≤ c * p := Nat.mul_le_mul_right _ (by omega)
    rw [Nat.succ_mul] at hmul
    omega
  · intro hle
    exact (Nat.mul_le_mul_right _ hle).trans (Nat.le_add_right _ _)

/-- One copy moves a row of characters up. -/
theorem TextScreen.pixelAt_memcpy (h : TextScreen fb) {k sx sy : Nat} (hk : k + 1 < consoleRows fb)
    (hsx : sx < fb.pitchDwords) :
    pixelAt fb (memcpyBytes m (rowAddr fb k) (rowAddr fb (k + 1)) (u32 (fontCharHeight * fb.pitch)))
        sx sy =
      if 16 * k ≤ sy ∧ sy < 16 * (k + 1) then pixelAt fb m sx (sy + 16) else pixelAt fb m sx sy := by
  have hpitch : fb.pitch = 4 * fb.pitchDwords := by
    have haligned := h.aligned
    unfold Framebuffer.pitchDwords
    omega
  have hbytes : u32 (fontCharHeight * fb.pitch) = 4 * (16 * fb.pitchDwords) := by
    have hch : fontCharHeight = 16 := rfl
    rw [hch, u32_of_lt h.rowBytes_lt, hpitch]
    omega
  have hnext : 16 * (k + 1) * fb.pitchDwords = 16 * k * fb.pitchDwords + 16 * fb.pitchDwords := by
    rw [← Nat.add_mul]
    rfl
  unfold pixelAt memcpyBytes
  rw [hbytes, h.rowAddr_eq (by omega), h.rowAddr_eq hk, wordAt_copyBytes (.inl (by omega)), ← hnext]
  have hcond : (16 * k * fb.pitchDwords ≤ sy * fb.pitchDwords + sx ∧
      sy * fb.pitchDwords + sx < 16 * (k + 1) * fb.pitchDwords) ↔
        16 * k ≤ sy ∧ sy < 16 * (k + 1) := by
    rw [← not_le, index_le_iff hsx, index_le_iff hsx, not_le]
  split
  · next hin =>
      have hle := hin.1
      rw [if_pos (hcond.mp hin), Nat.add_mul]
      congr 1
      omega
  · next hout => rw [if_neg fun hin => hout (hcond.mpr hin)]

/-- The copies move all rows of characters up, and leave the last one. -/
theorem TextScreen.pixelAt_scrollRows (h : TextScreen fb) {sx sy : Nat}
    (hsx : sx < fb.pitchDwords) :
    pixelAt fb (scrollRows fb m) sx sy =
      if sy < 16 * (consoleRows fb - 1) then pixelAt fb m sx (sy + 16) else pixelAt fb m sx sy := by
  have hloop : ∀ k ≤ consoleRows fb - 1, ∀ sy,
      pixelAt fb ((List.range' 1 k).foldl (fun m row => memcpyBytes m (rowAddr fb (row - 1))
        (rowAddr fb row) (u32 (fontCharHeight * fb.pitch))) m) sx sy =
      if sy < 16 * k then pixelAt fb m sx (sy + 16) else pixelAt fb m sx sy := by
    intro k
    induction k with
    | zero =>
        intro _ sy
        rw [if_neg (by omega)]
        rfl
    | succ k ih =>
        intro hk sy
        have ih := ih (by omega)
        rw [List.range'_1_concat, List.foldl_append, List.foldl_cons, List.foldl_nil,
          Nat.add_sub_cancel_left, Nat.add_comm 1 k, h.pixelAt_memcpy (by omega) hsx, ih, ih]
        split
        · rw [if_neg (by omega), if_pos (by omega)]
        · split
          · rw [if_pos (by omega)]
          · rw [if_neg (by omega)]
  exact hloop _ le_rfl sy

theorem TextScreen.clearLastRow_eq (h : TextScreen fb) :
    clearLastRow fb = (rectWords fb 0 (16 * (consoleRows fb - 1)) (consoleCols fb * 8) 16
      fun _ _ => colorToPixel consoleBg).map fun t => (fb.addr + 4 * t.1, t.2) := by
  have hrows := consoleRows_le fb
  have hcols := consoleCols_le fb
  have hpos := h.rows_pos
  have hwidth := h.width.2
  have hheight := h.height.2
  have hpitch : fb.width ≤ fb.pitchDwords := h.pitch
  have hcw : fontCharWidth = 8 := rfl
  have hch : fontCharHeight = 16 := rfl
  unfold clearLastRow rectWords
  rw [hcw, hch, u32Sub_of_le (by omega) hpos, u32_of_lt (by omega), h.rowAddr_eq (by omega),
    List.map_flatMap]
  apply List.flatMap_congr
  intro row hrow
  have hrow := List.mem_range.mp hrow
  rw [List.map_map]
  apply List.map_congr_left
  intro col hcol
  have hcol := List.mem_range.mp hcol
  rw [u32_of_lt (h.index_lt (by omega) (by omega))]
  simp only [Function.comp_apply, Prod.mk.injEq, and_true, Nat.add_mul, Nat.zero_add]
  omega

/-- The pixels of the characters after scrolling. -/
theorem TextScreen.pixelAt_scroll (h : TextScreen fb) {sx sy : Nat}
    (hsx : sx < consoleCols fb * 8) (hsy : sy < 16 * consoleRows fb) :
    pixelAt fb (fbConsoleScroll fb m) sx sy =
      if sy < 16 * (consoleRows fb - 1) then pixelAt fb m sx (sy + 16)
      else colorToPixel consoleBg := by
  have hcols := consoleCols_le fb
  have hpitch : fb.width ≤ fb.pitchDwords := h.pitch
  unfold fbConsoleScroll
  rw [h.clearLastRow_eq, pixelAt_rect (fun _ _ => colorToPixel_lt _) (by omega) (by omega),
    h.pixelAt_scrollRows (by omega)]
  by_cases hlast : sy < 16 * (consoleRows fb - 1)
  · rw [if_pos hlast, if_pos hlast, if_neg (by omega)]
  · rw [if_neg hlast, if_neg hlast, if_pos (by omega)]

end SRos.Gui
