import SRos.Gui.Hit
import SRos.Lib.Run

/-!
# The cursor over the picture

`src/drivers/cursor.c` keeps the pixels under the cursor in `saved_bg`. The picture that everyone
else has painted is never lost: the screen shows it with the sprite drawn over it, and between
`cursor_remove` and `cursor_restore` the screen shows the picture itself.
-/

namespace SRos.Gui

open Stores

/-- A mapped framebuffer that the cursor has place on. -/
structure Screen (fb : Framebuffer) : Prop where
  fits : fb.Fits
  width : cursorWidth ≤ fb.width
  height : cursorHeight ≤ fb.height

/-- The values of the pixels in column `sx` and line `sy`. -/
abbrev Picture := Nat → Nat → Nat

/-- The value of a pixel of the sprite, or `none` where it is transparent. -/
def spritePixel (row col : Nat) : Option Nat :=
  let val := (sCursorSprite.getD row []).getD col 0
  if val = 0 then none else some (colorToPixel (if val = 1 then sCursorBlack else sCursorWhite))

/-- The pixels of a 16x16 square over a picture. -/
def overlay (f : Nat → Nat → Option Nat) (b : Picture) (x y : Int) : Picture := fun sx sy =>
  if x ≤ sx ∧ sx < x + cursorWidth ∧ y ≤ sy ∧ sy < y + cursorHeight then
    (f (sy - y).toNat (sx - x).toNat).getD (b sx sy)
  else b sx sy

/-- What the screen shows. -/
def picture (g : State) : Picture := fun sx sy => g.vram (g.fb.pixel sx sy)

def Shows (g : State) (b : Picture) : Prop :=
  ∀ sx < g.fb.width, ∀ sy < g.fb.height, picture g sx sy = b sx sy

/-- The cursor is on the screen. -/
structure Inside (g : State) : Prop where
  visible : g.cursor.visible = true
  left : 0 ≤ g.cursor.x
  right : g.cursor.x ≤ g.fb.width - cursorWidth
  top : 0 ≤ g.cursor.y
  bottom : g.cursor.y ≤ g.fb.height - cursorHeight

/-- The pixels under the cursor are saved. -/
def Saved (g : State) (b : Picture) : Prop :=
  ∀ row < cursorHeight, ∀ col < cursorWidth,
    g.cursor.savedBg row col = b (g.cursor.x.toNat + col) (g.cursor.y.toNat + row)

/-- The picture with the cursor over it. -/
structure Composed (g : State) (b : Picture) : Prop where
  inside : Inside g
  shows : Shows g (overlay spritePixel b g.cursor.x g.cursor.y)
  saved : Saved g b

/-- The stores of the pixels of a square. -/
def squareStores (fb : Framebuffer) (f : Nat → Nat → Option Nat) (x y : Int) : List Store :=
  (List.range cursorHeight).flatMap fun (row : Nat) =>
    (List.range cursorWidth).flatMap fun (col : Nat) =>
      (f row col).elim [] (put fb (u32OfInt (x + col)) (u32OfInt (y + row)))

theorem backgroundStores_eq (fb : Framebuffer) (savedBg : Nat → Nat → Nat) (x y : Int) :
    backgroundStores fb savedBg x y = squareStores fb (fun row col => some (savedBg row col)) x y :=
  rfl

theorem spriteStores_eq (fb : Framebuffer) (x y : Int) :
    spriteStores fb x y = squareStores fb spritePixel x y := by
  unfold spriteStores squareStores spritePixel
  refine congrArg (List.flatMap · _) (funext fun row => ?_)
  refine congrArg (List.flatMap · _) (funext fun col => ?_)
  dsimp only
  split
  · rfl
  · rfl

variable {fb : Framebuffer} {g : State} {b : Picture}

theorem mem_squareStores {f : Nat → Nat → Option Nat} {x y : Int} {s : Store} :
    s ∈ squareStores fb f x y ↔ ∃ row < cursorHeight, ∃ col < cursorWidth, ∃ v,
      f row col = some v ∧ s ∈ put fb (u32OfInt (x + col)) (u32OfInt (y + row)) v := by
  simp only [squareStores, List.mem_flatMap, List.mem_range]
  constructor
  · rintro ⟨row, hrow, col, hcol, hs⟩
    cases hf : f row col with
    | none => simp [hf] at hs
    | some v => exact ⟨row, hrow, col, hcol, v, hf, by simpa [hf] using hs⟩
  · rintro ⟨row, hrow, col, hcol, v, hf, hs⟩
    exact ⟨row, hrow, col, hcol, by simpa [hf] using hs⟩

/-- A position whose coordinates do not wrap around in a square. -/
structure Position (x y : Int) : Prop where
  left : 0 ≤ x ∧ x < 2 ^ 31
  top : 0 ≤ y ∧ y < 2 ^ 31

/-- The coordinates of a pixel under a square. -/
theorem coordinate {x : Int} {k : Nat} (hx : 0 ≤ x ∧ x < 2 ^ 31) (hk : k < 16) :
    u32OfInt (x + k) = x.toNat + k := by
  unfold u32OfInt
  omega

/-- A square stores a value to a pixel exactly when it has it there. -/
theorem Framebuffer.Apart.mem_squareStores_pixel (h : fb.Apart) {f : Nat → Nat → Option Nat}
    {x y : Int} (hpos : Position x y) {sx sy v : Nat} (hsx : sx < fb.width) (hsy : sy < fb.height) :
    (fb.pixel sx sy, v) ∈ squareStores fb f x y ↔
      (x ≤ sx ∧ sx < x + cursorWidth ∧ y ≤ sy ∧ sy < y + cursorHeight) ∧
        f (sy - y).toNat (sx - x).toNat = some v := by
  have hcw : cursorWidth = 16 := rfl
  have hch : cursorHeight = 16 := rfl
  obtain ⟨hx, hy⟩ := hpos
  rw [mem_squareStores]
  constructor
  · rintro ⟨row, hrow, col, hcol, w, hf, hmem⟩
    rw [coordinate hx hcol, coordinate hy hrow] at hmem
    unfold put at hmem
    split at hmem
    · next hin =>
        rw [List.mem_singleton, Prod.mk.injEq] at hmem
        obtain ⟨heq, rfl⟩ := hmem
        obtain ⟨rfl, rfl⟩ := h.pixel_inj hin.1 hin.2 hsx hsy heq
        refine ⟨by omega, ?_⟩
        rw [show ((y.toNat + row : Nat) - y).toNat = row by omega,
          show ((x.toNat + col : Nat) - x).toNat = col by omega]
        exact hf
    · simp at hmem
  · rintro ⟨hin, hf⟩
    refine ⟨(sy - y).toNat, by omega, (sx - x).toNat, by omega, v, hf, ?_⟩
    rw [coordinate hx (by omega), coordinate hy (by omega)]
    rw [show x.toNat + (sx - x).toNat = sx by omega, show y.toNat + (sy - y).toNat = sy by omega]
    unfold put
    rw [if_pos ⟨hsx, hsy⟩]
    exact List.mem_singleton.mpr rfl

/-- Storing the pixels of a square draws it over what the screen shows. -/
theorem Shows.emit (hshows : Shows g b) (h : g.fb.Apart) {f : Nat → Nat → Option Nat} {x y : Int}
    (hpos : Position x y) : Shows (g.emit (squareStores g.fb f x y)) (overlay f b x y) := by
  intro sx hsx sy hsy
  have hmem := fun v => @Framebuffer.Apart.mem_squareStores_pixel g.fb h f x y hpos sx sy v hsx hsy
  have hold : g.vram (g.fb.pixel sx sy) = b sx sy := hshows sx hsx sy hsy
  change perform (squareStores g.fb f x y) g.vram (g.fb.pixel sx sy) = _
  unfold overlay
  have hmiss : (∀ v, (g.fb.pixel sx sy, v) ∉ squareStores g.fb f x y) →
      perform (squareStores g.fb f x y) g.vram (g.fb.pixel sx sy) = b sx sy := by
    intro hno
    rw [perform_of_notMem, hold]
    intro hin
    obtain ⟨⟨a, v⟩, hs, rfl⟩ := List.mem_map.mp hin
    exact hno v hs
  by_cases hin : x ≤ sx ∧ sx < x + cursorWidth ∧ y ≤ sy ∧ sy < y + cursorHeight
  · rw [if_pos hin]
    cases hf : f (sy - y).toNat (sx - x).toNat with
    | none =>
        apply hmiss
        intro v hv
        have := ((hmem v).mp hv).2
        rw [hf] at this
        cases this
    | some v =>
        apply perform_of_forall ((hmem v).mpr ⟨hin, hf⟩)
        intro w hw
        have := ((hmem w).mp hw).2
        rw [hf] at this
        exact (Option.some.inj this).symm
  · rw [if_neg hin]
    exact hmiss fun v hv => hin ((hmem v).mp hv).1

/-- What was saved and is put back is the picture again, whatever the square has been changed to. -/
theorem overlay_saved {bg : Nat → Nat → Nat} {b' : Picture} {x y : Int} {sx sy : Nat} (hx : 0 ≤ x)
    (hy : 0 ≤ y) (hsaved : ∀ row < cursorHeight, ∀ col < cursorWidth,
      bg row col = b (x.toNat + col) (y.toNat + row))
    (hout : ¬ (x ≤ sx ∧ sx < x + cursorWidth ∧ y ≤ sy ∧ sy < y + cursorHeight) →
      b' sx sy = b sx sy) :
    overlay (fun row col => some (bg row col)) b' x y sx sy = b sx sy := by
  have hcw : cursorWidth = 16 := rfl
  have hch : cursorHeight = 16 := rfl
  unfold overlay
  by_cases hin : x ≤ sx ∧ sx < x + cursorWidth ∧ y ≤ sy ∧ sy < y + cursorHeight
  · rw [if_pos hin, Option.getD_some, hsaved _ (by omega) _ (by omega)]
    rw [show x.toNat + (sx - x).toNat = sx by omega, show y.toNat + (sy - y).toNat = sy by omega]
  · rw [if_neg hin, hout hin]

theorem Shows.congr {b' : Picture} (h : Shows g b) (heq : ∀ sx sy, b sx sy = b' sx sy) :
    Shows g b' :=
  fun sx hsx sy hsy => (h sx hsx sy hsy).trans (heq sx sy)

theorem Inside.position (h : Inside g) (hscreen : Screen g.fb) : Position g.cursor.x g.cursor.y := by
  have hcw : cursorWidth = 16 := rfl
  have hch : cursorHeight = 16 := rfl
  have hwidth := hscreen.fits.width
  have hheight := hscreen.fits.height
  obtain ⟨-, hleft, hright, htop, hbottom⟩ := h
  exact ⟨by omega, by omega⟩

/-- Putting the saved background back at the place of the cursor. -/
theorem Composed.background (h : Composed g b) (hscreen : Screen g.fb) :
    Shows (g.emit (backgroundStores g.fb g.cursor.savedBg g.cursor.x g.cursor.y)) b := by
  have hin := h.inside
  rw [backgroundStores_eq]
  exact (h.shows.emit hscreen.fits.apart (hin.position hscreen)).congr fun sx sy =>
    overlay_saved hin.left hin.top h.saved fun hout => if_neg hout

theorem Composed.remove (h : Composed g b) (hscreen : Screen g.fb) :
    Inside (cursorRemove g) ∧ Shows (cursorRemove g) b := by
  unfold cursorRemove
  rw [if_neg (by simp [hscreen.fits.mapped, h.inside.visible])]
  exact ⟨⟨h.inside.visible, h.inside.left, h.inside.right, h.inside.top, h.inside.bottom⟩,
    h.background hscreen⟩

theorem Shows.saveBackground (h : Shows g b) (hin : Inside g) (hscreen : Screen g.fb) :
    ∃ savedBg, Gui.saveBackground g = { g with cursor := { g.cursor with savedBg } } ∧
      ∀ row < cursorHeight, ∀ col < cursorWidth,
        savedBg row col = b (g.cursor.x.toNat + col) (g.cursor.y.toNat + row) := by
  have hcw : cursorWidth = 16 := rfl
  have hch : cursorHeight = 16 := rfl
  have hpos := hin.position hscreen
  obtain ⟨-, hleft, hright, htop, hbottom⟩ := hin
  unfold Gui.saveBackground
  rw [if_neg hscreen.fits.mapped]
  refine ⟨_, rfl, ?_⟩
  intro row hrow col hcol
  dsimp only
  rw [coordinate hpos.left hcol, coordinate hpos.top hrow, if_pos ⟨hrow, hcol, by omega, by omega⟩]
  exact h _ (by omega) _ (by omega)

/-- Saving the background of a screen without the cursor and drawing the cursor on it. -/
theorem Shows.saveDraw (h : Shows g b) (hin : Inside g) (hscreen : Screen g.fb) :
    Composed (drawCursor (Gui.saveBackground g)) b := by
  obtain ⟨savedBg, hsave, hsaved⟩ := h.saveBackground hin hscreen
  rw [hsave]
  unfold drawCursor
  rw [if_neg hscreen.fits.mapped, spriteStores_eq]
  exact ⟨⟨hin.visible, hin.left, hin.right, hin.top, hin.bottom⟩,
    h.emit hscreen.fits.apart (hin.position hscreen), hsaved⟩

/-- A coordinate that is clamped is on the screen. -/
theorem clampPosition_bounds {v : Int} {size : Nat} (hsize : 16 ≤ size) (hmax : size ≤ 65535)
    (hlow : -131072 ≤ v) (hhigh : v ≤ 131072) :
    0 ≤ clampPosition v size 16 ∧ clampPosition v size 16 ≤ size - 16 := by
  have hint : int32 size = size := int32_of_lt (by omega)
  unfold clampPosition
  rw [hint]
  dsimp only
  split
  · rw [i32_of_range (by omega) (by omega), i32_of_range (by omega) (by omega)]
    split
    · omega
    · omega
  · rw [i32_of_range (by omega) (by omega), i32_of_range (by omega) (by omega)]
    split
    · omega
    · omega

theorem composed_cursorInit (hscreen : Screen g.fb) : Composed (cursorInit g) (picture g) := by
  have hwidth : 16 ≤ g.fb.width := hscreen.width
  have hheight : 16 ≤ g.fb.height := hscreen.height
  have hwidth' := hscreen.fits.width
  have hheight' := hscreen.fits.height
  have hx := @clampPosition_bounds (int32 (g.fb.width / 2)) _ hwidth hwidth'
    (by rw [int32_of_lt (by omega)]; omega) (by rw [int32_of_lt (by omega)]; omega)
  have hy := @clampPosition_bounds (int32 (g.fb.height / 2)) _ hheight hheight'
    (by rw [int32_of_lt (by omega)]; omega) (by rw [int32_of_lt (by omega)]; omega)
  unfold cursorInit
  dsimp only
  rw [if_pos hscreen.fits.mapped]
  apply Shows.saveDraw
  · exact fun _ _ _ _ => rfl
  · exact ⟨rfl, hx.1, hx.2, hy.1, hy.2⟩
  · exact hscreen

theorem Composed.move (h : Composed g b) (hscreen : Screen g.fb) {dx dy : Int}
    (hdx : -128 ≤ dx ∧ dx ≤ 128) (hdy : -128 ≤ dy ∧ dy ≤ 128) : Composed (cursorMove g dx dy) b := by
  have hin := h.inside
  obtain ⟨hvisible, hleft, hright, htop, hbottom⟩ := hin
  have hwidth : 16 ≤ g.fb.width := hscreen.width
  have hheight : 16 ≤ g.fb.height := hscreen.height
  have hwidth' := hscreen.fits.width
  have hheight' := hscreen.fits.height
  have hcw : cursorWidth = 16 := rfl
  have hch : cursorHeight = 16 := rfl
  have hx := @clampPosition_bounds (g.cursor.x + dx) _ hwidth hwidth' (by omega) (by omega)
  have hy := @clampPosition_bounds (g.cursor.y + dy) _ hheight hheight' (by omega) (by omega)
  unfold cursorMove
  rw [if_neg (by simp [hvisible, hscreen.fits.mapped])]
  dsimp only
  rw [i32_of_range (by omega) (by omega), i32_of_range (by omega) (by omega)]
  split
  · next hsame =>
      -- the cursor has not moved
      rw [hsame.1, hsame.2]
      exact ⟨⟨hvisible, hleft, hright, htop, hbottom⟩, h.shows, h.saved⟩
  · have hshows := h.background hscreen
    unfold restoreBackground
    rw [if_neg hscreen.fits.mapped]
    apply Shows.saveDraw
    · exact hshows
    · exact ⟨hvisible, hx.1, hx.2, hy.1, hy.2⟩
    · exact hscreen

theorem Shows.restore (h : Shows g b) (hin : Inside g) (hscreen : Screen g.fb) :
    Composed (cursorRestore g) b := by
  unfold cursorRestore
  rw [if_neg (by simp [hscreen.fits.mapped, hin.visible])]
  apply Shows.saveDraw
  · exact h
  · exact ⟨hin.visible, hin.left, hin.right, hin.top, hin.bottom⟩
  · exact hscreen

/-! ## Runs -/

/-- The screen, the picture that has been painted without the cursor, and whether the cursor is
removed for painting. -/
structure CursorSys where
  gui : State
  painted : Picture
  removed : Bool

inductive CursorAct
  | move (dx dy : Int)
  | remove
  | paint (vram : Nat → Nat)
  | restore

namespace CursorSys

def start (g : State) : CursorSys := ⟨cursorInit g, picture g, false⟩

def step (t : CursorSys) : CursorAct → Option CursorSys
  | .move dx dy =>
      if t.removed = false ∧ (-128 ≤ dx ∧ dx ≤ 128) ∧ -128 ≤ dy ∧ dy ≤ 128 then
        some { t with gui := cursorMove t.gui dx dy }
      else none
  | .remove =>
      if t.removed = false then some { t with gui := cursorRemove t.gui, removed := true } else none
  | .paint vram =>
      if t.removed then
        let gui := { t.gui with vram }
        some { t with gui, painted := picture gui }
      else none
  | .restore =>
      if t.removed then some { t with gui := cursorRestore t.gui, removed := false } else none

/-- The picture with the cursor over it, or the picture itself while the cursor is removed. -/
structure Inv (t : CursorSys) : Prop where
  screen : Screen t.gui.fb
  composed : t.removed = false → Composed t.gui t.painted
  bare : t.removed = true → Inside t.gui ∧ Shows t.gui t.painted

variable {t t' : CursorSys} {a : CursorAct}

theorem Screen.painted {g g' : State} (h : Screen g.fb) (hpainted : Painted g g') :
    Screen g'.fb := by
  rw [hpainted.fb]
  exact h

theorem Inv.step (h : Inv t) (hs : t.step a = some t') : Inv t' := by
  cases a with
  | move dx dy =>
      obtain ⟨⟨hshown, hdx, hdy⟩, heq⟩ := Option.ite_none_right_eq_some.mp hs
      obtain rfl := Option.some.inj heq
      refine ⟨?_, fun _ => (h.composed hshown).move h.screen hdx hdy, fun hrem => ?_⟩
      · exact Screen.painted h.screen (painted_cursorMove dx dy)
      · rw [hshown] at hrem
        cases hrem
  | remove =>
      obtain ⟨hshown, heq⟩ := Option.ite_none_right_eq_some.mp hs
      obtain rfl := Option.some.inj heq
      refine ⟨?_, (fun hrem => nomatch hrem), fun _ => (h.composed hshown).remove h.screen⟩
      exact Screen.painted h.screen painted_cursorRemove
  | paint vram =>
      obtain ⟨hrem, heq⟩ := Option.ite_none_right_eq_some.mp hs
      obtain rfl := Option.some.inj heq
      obtain ⟨⟨hvisible, hleft, hright, htop, hbottom⟩, -⟩ := h.bare hrem
      refine ⟨h.screen, fun hshown => ?_, fun _ => ⟨⟨hvisible, hleft, hright, htop, hbottom⟩, ?_⟩⟩
      · rw [show t.removed = false from hshown] at hrem
        cases hrem
      · exact fun _ _ _ _ => rfl
  | restore =>
      obtain ⟨hrem, heq⟩ := Option.ite_none_right_eq_some.mp hs
      obtain rfl := Option.some.inj heq
      obtain ⟨hin, hshows⟩ := h.bare hrem
      refine ⟨?_, fun _ => hshows.restore hin h.screen, (fun hrem => nomatch hrem)⟩
      exact Screen.painted h.screen painted_cursorRestore

/-- On every screen, in every run that begins with `cursor_init` and goes on with moves of the
cursor and with paintings between `cursor_remove` and `cursor_restore`: while the cursor is there,
the screen is the picture that was painted with the sprite over it, the pixels of the picture
under the sprite are saved and the cursor is on the screen; while the cursor is removed, the
screen is the picture. -/
theorem cursor_composed {g : State} (hscreen : Screen g.fb)
    (h : Reach CursorSys.step (fun _ _ => True) (start g) t) :
    (t.removed = false → Composed t.gui t.painted) ∧
      (t.removed = true → Inside t.gui ∧ Shows t.gui t.painted) := by
  have hstart : Inv (start g) := by
    refine ⟨?_, fun _ => composed_cursorInit hscreen, (fun hrem => nomatch hrem)⟩
    exact Screen.painted hscreen painted_cursorInit
  have hinv := h.invariant hstart fun _ _ _ h _ hs => h.step hs
  exact ⟨hinv.composed, hinv.bare⟩

/-- A mode of 1024x768 pixels. -/
def mode1024 : Framebuffer := ⟨1024, 768, 4096, 32, virtBase, 0⟩

/-- A move of the cursor and a painting. -/
theorem cursor_composed_two : ∃ t, Reach CursorSys.step (fun _ _ => True)
    (start (.boot mode1024 fun _ => 0)) t ∧ Composed t.gui t.painted := by
  have hscreen : Screen mode1024 :=
    ⟨⟨by decide, by decide, by decide, by decide, by decide⟩, by decide, by decide⟩
  have hrun : Reach CursorSys.step (fun _ _ => True) (start (.boot mode1024 fun _ => 0)) _ :=
    .step (.step (.step (.step .refl trivial (show CursorSys.step _ (.move 3 (-5)) = some _ from rfl))
      trivial (show CursorSys.step _ .remove = some _ from rfl)) trivial
      (show CursorSys.step _ (.paint fun _ => 7) = some _ from rfl)) trivial
      (show CursorSys.step _ .restore = some _ from rfl)
  exact ⟨_, hrun, (cursor_composed hscreen hrun).1 rfl⟩

end CursorSys

end SRos.Gui
