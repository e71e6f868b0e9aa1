import SRos.Gui.Model
import SRos.Lib.Run

/-!
# The text screen (`src/drivers/vga.c`)

`vga_putc` wraps the cursor into the next line behind the last column, and only a newline scrolls.
A backspace does not look at the column. A character is a signed `char`.
-/

namespace SRos.Drivers

open Gui (charValue)

def vgaWidth : Int := 80
def vgaHeight : Int := 25
def whiteOnBlack : Nat := 0x0F

/-- The cursor of the driver, the position of the cursor of the card, and the cells of the screen.
`written` records the indices that cells were stored to. -/
structure Vga where
  cursorRow : Int
  cursorCol : Int
  pos : Int
  buffer : Int → Nat
  written : List Int

/-- A store to `vga_buffer`. -/
def Vga.store (s : Vga) (i : Int) (v : Nat) : Vga :=
  { s with buffer := Function.update s.buffer i v, written := s.written ++ [i] }

/-- `(color << 8) | c` as an `unsigned short`. -/
def cellOf (c : Int) (color : Nat) : Nat := (color <<< 8 ||| u32OfInt c) % 2 ^ 16

def vgaPutcharAt (c : Int) (color : Nat) (row col : Int) (s : Vga) : Vga :=
  s.store (row * vgaWidth + col) (cellOf c color)

def vgaSetCursor (row col : Int) (s : Vga) : Vga :=
  { s with pos := (row * vgaWidth + col) % 2 ^ 16 }

def vgaScroll (s : Vga) : Vga :=
  let s := (List.range' 1 24).foldl (fun s (row : Nat) =>
    (List.range 80).foldl (fun s (col : Nat) =>
      s.store ((row - 1) * vgaWidth + col) (s.buffer (row * vgaWidth + col))) s) s
  (List.range 80).foldl (fun s (col : Nat) =>
    s.store ((vgaHeight - 1) * vgaWidth + col) (cellOf 32 whiteOnBlack)) s

def vgaInit (s : Vga) : Vga :=
  let s := (List.range 25).foldl (fun s (row : Nat) =>
    (List.range 80).foldl (fun s (col : Nat) => vgaPutcharAt 32 whiteOnBlack row col s) s) s
  { s with cursorCol := 0, cursorRow := 0 }

def cursorLeft : Int := 0x01
def cursorRight : Int := 0x02

/-- `vga_putc` without its last line, which moves the cursor of the card. -/
def putcBody (c : Int) (s : Vga) : Vga :=
  if c = 8 then
    let s := { s with cursorCol := s.cursorCol - 1 }
    vgaPutcharAt 32 whiteOnBlack s.cursorRow s.cursorCol s
  else if c = 10 then
    let s := { s with cursorCol := 0, cursorRow := s.cursorRow + 1 }
    if s.cursorRow ≥ vgaHeight then { vgaScroll s with cursorRow := vgaHeight - 1 } else s
  else if c = cursorLeft then
    if s.cursorCol > 0 then { s with cursorCol := s.cursorCol - 1 } else s
  else if c = cursorRight then
    if s.cursorCol < vgaWidth - 1 then { s with cursorCol := s.cursorCol + 1 } else s
  else
    let s :=
      if s.cursorCol = vgaWidth then
        vgaScroll { s with cursorCol := 0, cursorRow := s.cursorRow + 1 }
      else s
    let s := vgaPutcharAt c whiteOnBlack s.cursorRow s.cursorCol s
    let s := { s with cursorCol := s.cursorCol + 1 }
    if s.cursorCol = vgaWidth then { s with cursorCol := 0, cursorRow := s.cursorRow + 1 } else s

def vgaPutc (c : Int) (s : Vga) : Vga :=
  let s := putcBody c s
  vgaSetCursor s.cursorRow s.cursorCol s

/-- The statics, with what the cells hold before. -/
def Vga.boot (buffer : Int → Nat) : Vga := ⟨0, 0, 0, buffer, []⟩

/-! ## Staying on the screen -/

/-- The cursor is on the screen, and so are all cells that were stored to. -/
structure OnScreen (s : Vga) : Prop where
  row : 0 ≤ s.cursorRow ∧ s.cursorRow < 25
  col : 0 ≤ s.cursorCol ∧ s.cursorCol < 80
  written : ∀ i ∈ s.written, 0 ≤ i ∧ i < 2000

/-- The character is neither a backspace nor a newline nor a movement of the cursor. -/
def Printed (b : UInt8) : Prop := b ≠ 8 ∧ b ≠ 10 ∧ b ≠ 1 ∧ b ≠ 2

/-- The call stays on the screen, and a printed character is in the cell that the cursor was on. -/
structure PutcOk (s : Vga) (b : UInt8) : Prop where
  onScreen : OnScreen (vgaPutc (charValue b) s)
  cell : Printed b → (vgaPutc (charValue b) s).buffer (s.cursorRow * 80 + s.cursorCol) =
    (0x0F <<< 8 ||| b.toNat)

/-- A backspace is not in the first column, and a printed character is an ASCII character and not
in the last cell of the screen. -/
def SafeChar (s : Vga) (b : UInt8) : Prop :=
  (b = 8 → 0 < s.cursorCol) ∧
    (Printed b → b.toNat < 128 ∧ ¬ (s.cursorRow = 24 ∧ s.cursorCol = 79))

section Cells

theorem cellOf_eq_iff (b : UInt8) :
    cellOf (charValue b) 0x0F = (0x0F <<< 8 ||| b.toNat) ↔ b.toNat < 128 := by
  have hall : ∀ k : Fin 256, cellOf (charValue (UInt8.ofNat k)) 0x0F =
      (0x0F <<< 8 ||| (UInt8.ofNat k).toNat) ↔ (UInt8.ofNat k).toNat < 128 := by
    decide +kernel
  have hb := hall ⟨b.toNat, b.toNat_lt⟩
  rwa [UInt8.ofNat_toNat] at hb

/-- The character as the `char` that `vga_putc` compares. -/
theorem charValue_eq_iff (b : UInt8) {n : Nat} (hn : n < 128) : charValue b = n ↔ b.toNat = n := by
  have hb := b.toNat_lt
  unfold charValue
  split <;> omega

end Cells

section Stores

variable {s : Vga}

/-- Stores to the screen leave the cursor. -/
structure Stored (s s' : Vga) : Prop where
  row : s'.cursorRow = s.cursorRow
  col : s'.cursorCol = s.cursorCol
  written : (∀ i ∈ s.written, 0 ≤ i ∧ i < 2000) → ∀ i ∈ s'.written, 0 ≤ i ∧ i < 2000

theorem Stored.refl (s : Vga) : Stored s s := ⟨rfl, rfl, id⟩

theorem Stored.trans {s' s'' : Vga} (h : Stored s s') (h' : Stored s' s'') : Stored s s'' :=
  ⟨h'.row.trans h.row, h'.col.trans h.col, fun hw => h'.written (h.written hw)⟩

theorem stored_store {i : Int} {v : Nat} (hi : 0 ≤ i ∧ i < 2000) : Stored s (s.store i v) := by
  refine ⟨rfl, rfl, fun hw j hj => ?_⟩
  rcases List.mem_append.mp hj with hj | hj
  · exact hw j hj
  · rwa [List.mem_singleton.mp hj]

theorem stored_foldl {f : Vga → Nat → Vga} {ns : List Nat} (h : ∀ n ∈ ns, ∀ s, Stored s (f s n)) :
    Stored s (ns.foldl f s) := by
  induction ns generalizing s with
  | nil => exact .refl s
  | cons n ns ih =>
      have hn := h n List.mem_cons_self s
      exact hn.trans (ih fun m hm => h m (List.mem_cons_of_mem n hm))

theorem stored_vgaScroll (s : Vga) : Stored s (vgaScroll s) := by
  unfold vgaScroll vgaWidth vgaHeight
  refine Stored.trans (stored_foldl fun row hrow t => stored_foldl fun col hcol u => ?_)
    (stored_foldl fun col hcol u => ?_)
  · have hrow := List.mem_range'_1.mp hrow
    have hcol := List.mem_range.mp hcol
    exact stored_store (by omega)
  · have hcol := List.mem_range.mp hcol
    exact stored_store (by omega)

theorem onScreen_vgaInit (buffer : Int → Nat) : OnScreen (vgaInit (Vga.boot buffer)) := by
  have hstored : Stored (Vga.boot buffer) ((List.range 25).foldl (fun s (row : Nat) =>
      (List.range 80).foldl (fun s (col : Nat) => vgaPutcharAt 32 whiteOnBlack row col s) s)
      (Vga.boot buffer)) := by
    refine stored_foldl fun row hrow t => stored_foldl fun col hcol u => ?_
    have hrow := List.mem_range.mp hrow
    have hcol := List.mem_range.mp hcol
    exact stored_store (by unfold vgaWidth; omega)
  exact ⟨(by decide : (0 : Int) ≤ 0 ∧ (0 : Int) < 25), (by decide : (0 : Int) ≤ 0 ∧ (0 : Int) < 80),
    hstored.written nofun⟩

/-- `vga_set_cursor` moves the cursor of the card only. -/
theorem onScreen_vgaPutc_iff (c : Int) (s : Vga) : OnScreen (vgaPutc c s) ↔ OnScreen (putcBody c s) :=
  ⟨fun h => ⟨h.row, h.col, h.written⟩, fun h => ⟨h.row, h.col, h.written⟩⟩

theorem onScreen_backspace_iff (h : OnScreen s) : OnScreen (putcBody 8 s) ↔ 0 < s.cursorCol := by
  obtain ⟨hrow, hcol, hwritten⟩ := h
  constructor
  · intro hs
    have hcol' : 0 ≤ s.cursorCol - 1 := hs.col.1
    omega
  · intro hpos
    have hcol' : 0 ≤ s.cursorCol - 1 ∧ s.cursorCol - 1 < 80 := by omega
    have hstored : Stored { s with cursorCol := s.cursorCol - 1 } (putcBody 8 s) :=
      stored_store (by
        unfold vgaWidth
        dsimp only
        omega)
    exact ⟨hrow, hcol', hstored.written hwritten⟩

theorem onScreen_newline (h : OnScreen s) : OnScreen (putcBody 10 s) := by
  obtain ⟨hrow, hcol, hwritten⟩ := h
  unfold putcBody vgaHeight
  rw [if_neg (by decide), if_pos rfl]
  dsimp only
  split
  · have hstored := stored_vgaScroll { s with cursorCol := 0, cursorRow := s.cursorRow + 1 }
    generalize vgaScroll { s with cursorCol := 0, cursorRow := s.cursorRow + 1 } = u at hstored
    have hcol' : u.cursorCol = 0 := hstored.col
    exact ⟨(by decide : (0 : Int) ≤ 24 ∧ (24 : Int) < 25), (by omega : 0 ≤ u.cursorCol ∧ u.cursorCol < 80),
      hstored.written hwritten⟩
  · have hrow' : 0 ≤ s.cursorRow + 1 ∧ s.cursorRow + 1 < 25 := by omega
    exact ⟨hrow', (by decide : (0 : Int) ≤ 0 ∧ (0 : Int) < 80), hwritten⟩

theorem onScreen_left (h : OnScreen s) : OnScreen (putcBody 1 s) := by
  obtain ⟨hrow, hcol, hwritten⟩ := h
  unfold putcBody cursorLeft
  rw [if_neg (by decide), if_neg (by decide), if_pos rfl]
  split
  · have hcol' : 0 ≤ s.cursorCol - 1 ∧ s.cursorCol - 1 < 80 := by omega
    exact ⟨hrow, hcol', hwritten⟩
  · exact ⟨hrow, hcol, hwritten⟩

theorem onScreen_right (h : OnScreen s) : OnScreen (putcBody 2 s) := by
  obtain ⟨hrow, hcol, hwritten⟩ := h
  unfold putcBody cursorLeft cursorRight vgaWidth
  rw [if_neg (by decide), if_neg (by decide), if_neg (by decide), if_pos rfl]
  split
  · have hcol' : 0 ≤ s.cursorCol + 1 ∧ s.cursorCol + 1 < 80 := by omega
    exact ⟨hrow, hcol', hwritten⟩
  · exact ⟨hrow, hcol, hwritten⟩

theorem charValue_ne_of_printed {b : UInt8} (hb : Printed b) :
    charValue b ≠ 8 ∧ charValue b ≠ 10 ∧ charValue b ≠ 1 ∧ charValue b ≠ 2 := by
  obtain ⟨h₁, h₂, h₃, h₄⟩ := hb
  have hne : ∀ n : Nat, n < 128 → b ≠ UInt8.ofNat n → charValue b ≠ n := by
    intro n hn hb heq
    refine hb ?_
    rw [← UInt8.toNat_inj, (charValue_eq_iff b hn).mp heq, UInt8.toNat_ofNat_of_lt' (hn.trans (by decide))]
  exact ⟨hne 8 (by decide) h₁, hne 10 (by decide) h₂, hne 1 (by decide) h₃, hne 2 (by decide) h₄⟩

/-- A printed character, with the cursor on the screen. -/
theorem putcBody_printed {b : UInt8} (hb : Printed b) (h : OnScreen s) :
    putcBody (charValue b) s =
      let t := s.store (s.cursorRow * 80 + s.cursorCol) (cellOf (charValue b) 0x0F)
      if s.cursorCol = 79 then { t with cursorCol := 0, cursorRow := s.cursorRow + 1 }
      else { t with cursorCol := s.cursorCol + 1 } := by
  obtain ⟨h₁, h₂, h₃, h₄⟩ := charValue_ne_of_printed hb
  have hlt := h.col
  have hcol : s.cursorCol ≠ 80 := by omega
  have hnext : s.cursorCol + 1 = 80 ↔ s.cursorCol = 79 := by omega
  unfold putcBody cursorLeft cursorRight vgaWidth
  rw [if_neg h₁, if_neg h₂, if_neg h₃, if_neg h₄, if_neg hcol]
  exact if_congr hnext rfl rfl

theorem onScreen_printed_iff {b : UInt8} (hb : Printed b) (h : OnScreen s) :
    OnScreen (putcBody (charValue b) s) ↔ ¬ (s.cursorRow = 24 ∧ s.cursorCol = 79) := by
  have hstored : Stored s (s.store (s.cursorRow * 80 + s.cursorCol) (cellOf (charValue b) 0x0F)) :=
    stored_store (by have := h.row; have := h.col; omega)
  rw [putcBody_printed hb h]
  obtain ⟨hrow, hcol, hwritten⟩ := h
  dsimp only
  split
  · next hlast =>
      constructor
      · intro hs hlastRow
        have hrow' : s.cursorRow + 1 < 25 := hs.row.2
        omega
      · intro hroom
        have hrow' : 0 ≤ s.cursorRow + 1 ∧ s.cursorRow + 1 < 25 := by
          have hcol' : s.cursorCol = 79 := hlast
          omega
        exact ⟨hrow', (by decide : (0 : Int) ≤ 0 ∧ (0 : Int) < 80), hstored.written hwritten⟩
  · next hlast =>
      have hcol' : s.cursorCol ≠ 79 := hlast
      refine iff_of_true ?_ fun hcorner => hcol' hcorner.2
      have hnext : 0 ≤ s.cursorCol + 1 ∧ s.cursorCol + 1 < 80 := by omega
      exact ⟨hrow, hnext, hstored.written hwritten⟩

theorem cell_printed {b : UInt8} (hb : Printed b) (h : OnScreen s) :
    (vgaPutc (charValue b) s).buffer (s.cursorRow * 80 + s.cursorCol) =
      cellOf (charValue b) 0x0F := by
  change (putcBody (charValue b) s).buffer _ = _
  rw [putcBody_printed hb h]
  dsimp only
  split <;> exact Function.update_self ..

/-- One call. -/
theorem putcOk_iff (b : UInt8) (h : OnScreen s) : PutcOk s b ↔ SafeChar s b := by
  by_cases hb : Printed b
  · have hback : b ≠ 8 := hb.1
    have hbody := onScreen_printed_iff hb h
    rw [← onScreen_vgaPutc_iff] at hbody
    constructor
    · intro hok
      refine ⟨fun heq => absurd heq hback, fun _ => ⟨?_, hbody.mp hok.onScreen⟩⟩
      rw [← cellOf_eq_iff, ← cell_printed hb h]
      exact hok.cell hb
    · intro hsafe
      obtain ⟨hascii, hroom⟩ := hsafe.2 hb
      refine ⟨hbody.mpr hroom, fun _ => ?_⟩
      rw [cell_printed hb h]
      exact (cellOf_eq_iff b).mpr hascii
  · have hok : PutcOk s b ↔ OnScreen (putcBody (charValue b) s) :=
      ⟨fun hok => (onScreen_vgaPutc_iff _ _).mp hok.onScreen,
        fun hs => ⟨(onScreen_vgaPutc_iff _ _).mpr hs, fun hb' => absurd hb' hb⟩⟩
    have hsafe : SafeChar s b ↔ (b = 8 → 0 < s.cursorCol) := and_iff_left fun hb' => absurd hb' hb
    rw [hok, hsafe]
    unfold Printed at hb
    by_cases hback : b = 8
    · subst hback
      exact (onScreen_backspace_iff h).trans (by simp)
    · refine iff_of_true ?_ fun heq => absurd heq hback
      by_cases hnewline : b = 10
      · subst hnewline
        exact onScreen_newline h
      · by_cases hleft : b = 1
        · subst hleft
          exact onScreen_left h
        · obtain rfl : b = 2 := by
            by_contra hright
            exact hb ⟨hback, hnewline, hleft, hright⟩
          exact onScreen_right h

end Stores

/-- For every content of the screen before `vga_init` and every sequence of characters: all calls
stay on the screen and print what they should just when no backspace is in the first column and
no character is printed that is not ASCII or in the last cell of the screen. -/
theorem vga_on_screen_iff (buffer : Int → Nat) (bs : List UInt8) :
    OnScreen (vgaInit (Vga.boot buffer)) ∧
      (Along (fun s b => vgaPutc (charValue b) s) PutcOk (vgaInit (Vga.boot buffer)) bs ↔
        Along (fun s b => vgaPutc (charValue b) s) SafeChar (vgaInit (Vga.boot buffer)) bs) :=
  ⟨onScreen_vgaInit buffer, along_iff (I := OnScreen) (onScreen_vgaInit buffer)
    (fun _ b hs => putcOk_iff b hs) fun _ _ _ hok => hok.onScreen⟩

/-- A backspace right after `vga_init`, and the character 0xE9. -/
theorem vga_leaves_screen :
    ¬ Along (fun s b => vgaPutc (charValue b) s) PutcOk (vgaInit (Vga.boot fun _ => 0)) [8] ∧
      ¬ Along (fun s b => vgaPutc (charValue b) s) PutcOk (vgaInit (Vga.boot fun _ => 0)) [0xE9] := by
  constructor
  · intro hrun
    have hsafe := (putcOk_iff 8 (onScreen_vgaInit _)).mp (hrun [] 8 [] rfl)
    exact absurd (hsafe.1 rfl) (by decide)
  · intro hrun
    have hsafe := (putcOk_iff 0xE9 (onScreen_vgaInit _)).mp (hrun [] 0xE9 [] rfl)
    exact absurd (hsafe.2 (by unfold Printed; decide)).1 (by decide)

end SRos.Drivers
