import SRos.Gui.Cursor
import SRos.Gui.Partition

/-!
# Hiding the cursor

`cursor_hide` puts the saved pixels back at `old_x` and `old_y`. A move has left the previous
position there, while it has saved the pixels of the new one, so the two are the same only if the
last move has not moved the cursor.
-/

namespace SRos.Gui

open Stores

inductive CursorOp
  | move (dx dy : Int)
  | hide
  | «show»

def cursorOp (g : State) : CursorOp → State
  | .move dx dy => cursorMove g dx dy
  | .hide => cursorHide g
  | .show => cursorShow g

/-- Behind a call the screen shows the picture, with the cursor over it if the call has not hidden
it. -/
def RestoresPicture (b : Picture) (g : State) (op : CursorOp) : Prop :=
  match op with
  | .hide => Shows (cursorOp g op) b
  | _ => (cursorOp g op).cursor.visible = true →
      Shows (cursorOp g op) (overlay spritePixel b (cursorOp g op).cursor.x (cursorOp g op).cursor.y)

/-- No pixel of the cursor is on the screen. -/
def OffScreen (fb : Framebuffer) (x y : Int) : Prop := fb.width ≤ x ∨ fb.height ≤ y

/-- A cursor on the screen that is hidden has not moved in the last move. -/
def HidesInPlace (g : State) (op : CursorOp) : Prop :=
  op = .hide → g.cursor.visible = true → ¬ OffScreen g.fb g.cursor.x g.cursor.y →
    g.cursor.oldX = g.cursor.x ∧ g.cursor.oldY = g.cursor.y

/-- A framebuffer that the cursor has place on. -/
structure HasPlace (fb : Framebuffer) : Prop where
  placed : fb.Placed
  width : 16 ≤ fb.width
  height : 16 ≤ fb.height

theorem HasPlace.apart {fb : Framebuffer} (h : HasPlace fb) : fb.Apart :=
  @Framebuffer.Placed.apart fb 0 0 h.placed (Nat.zero_lt_of_lt h.width) (Nat.zero_lt_of_lt h.height)

/-- A position that `clamp_position` can leave: the square is on the screen, or off it where the
sum has wrapped around. -/
structure Clamped (fb : Framebuffer) (x y : Int) : Prop extends Position x y where
  column : x ≤ fb.width - 16 ∨ fb.width ≤ x
  row : y ≤ fb.height - 16 ∨ fb.height ≤ y

theorem clampPosition_cases {v : Int} {size : Nat} (hsize : 16 ≤ size) (hmax : size < 2 ^ 31 - 16)
    (hv : -2 ^ 31 ≤ v ∧ v < 2 ^ 31) :
    (0 ≤ clampPosition v size 16 ∧ clampPosition v size 16 < 2 ^ 31) ∧
      (clampPosition v size 16 ≤ size - 16 ∨ size ≤ clampPosition v size 16) := by
  have hint : int32 size = size := int32_of_lt (by omega)
  have hdiff : i32 ((size : Int) - (16 : Nat)) = size - 16 := i32_of_range (by omega) (by omega)
  unfold clampPosition
  rw [hint, hdiff]
  dsimp only
  have hlow : 0 ≤ (if v < 0 then 0 else v) ∧ (if v < 0 then 0 else v) < 2 ^ 31 := by
    split <;> omega
  generalize (if v < 0 then 0 else v) = z at hlow
  by_cases hwrap : z + 16 < 2 ^ 31
  · rw [i32_of_range (by omega) (by omega)]
    split
    · omega
    · omega
  · split
    · omega
    · omega

theorem i32_range (z : Int) : -2 ^ 31 ≤ i32 z ∧ i32 z < 2 ^ 31 := by
  unfold i32 int32
  have hlt := u32OfInt_lt z
  split <;> omega

section Picture

variable {g : State} {b : Picture} {x y : Int}

/-- A square off the screen changes nothing on it. -/
theorem overlay_offScreen (f : Nat → Nat → Option Nat) (hoff : OffScreen g.fb x y) {sx sy : Nat}
    (hsx : sx < g.fb.width) (hsy : sy < g.fb.height) : overlay f b x y sx sy = b sx sy := by
  unfold OffScreen at hoff
  unfold overlay
  rw [if_neg (by omega)]

/-- The pixels of a square have been saved. -/
def SavedAt (g : State) (b : Picture) (x y : Int) : Prop :=
  ∀ row < cursorHeight, ∀ col < cursorWidth,
    g.cursor.savedBg row col = b (x.toNat + col) (y.toNat + row)

/-- The cursor and the pixels that it keeps, over the picture `b`. -/
structure Hidable (g : State) (b : Picture) : Prop where
  position : Clamped g.fb g.cursor.x g.cursor.y
  oldPosition : Clamped g.fb g.cursor.oldX g.cursor.oldY
  shows : Shows g (if g.cursor.visible then overlay spritePixel b g.cursor.x g.cursor.y else b)
  saved : g.cursor.visible = true → ¬ OffScreen g.fb g.cursor.x g.cursor.y →
    SavedAt g b g.cursor.x g.cursor.y
  savedOld : OffScreen g.fb g.cursor.x g.cursor.y →
    ¬ OffScreen g.fb g.cursor.oldX g.cursor.oldY → SavedAt g b g.cursor.oldX g.cursor.oldY

/-- Putting saved pixels back where the sprite is. -/
theorem Shows.background {x y : Int} (hshows : Shows g (overlay spritePixel b x y))
    (hfb : g.fb.Apart) (hpos : Position x y) (hsaved : SavedAt g b x y) :
    Shows (g.emit (backgroundStores g.fb g.cursor.savedBg x y)) b := by
  rw [backgroundStores_eq]
  exact (hshows.emit hfb hpos).congr fun sx sy => overlay_saved hpos.left.1 hpos.top.1 hsaved fun hout => if_neg hout

/-- What is on the screen after a square off the screen has been drawn. -/
theorem Shows.background_offScreen {x y : Int} (hshows : Shows g b) (hfb : g.fb.Apart)
    (hpos : Position x y) (hoff : OffScreen g.fb x y) (savedBg : Nat → Nat → Nat) :
    Shows (g.emit (backgroundStores g.fb savedBg x y)) b := by
  intro sx hsx sy hsy
  rw [backgroundStores_eq]
  rw [hshows.emit hfb hpos sx hsx sy hsy]
  exact overlay_offScreen _ hoff hsx hsy

theorem Shows.of_overlay_offScreen {x y : Int} {f : Nat → Nat → Option Nat}
    (hshows : Shows g (overlay f b x y)) (hoff : OffScreen g.fb x y) : Shows g b := by
  intro sx hsx sy hsy
  rw [hshows sx hsx sy hsy]
  exact overlay_offScreen f hoff hsx hsy

/-- Saving the pixels under the cursor and drawing it. -/
structure SavedDrawn (g : State) (b : Picture) (g' : State) : Prop where
  fb : g'.fb = g.fb
  cursor : g'.cursor = { g.cursor with savedBg := g'.cursor.savedBg }
  shows : Shows g' (overlay spritePixel b g.cursor.x g.cursor.y)
  saved : ¬ OffScreen g.fb g.cursor.x g.cursor.y → SavedAt g' b g.cursor.x g.cursor.y
  kept : OffScreen g.fb g.cursor.x g.cursor.y → g'.cursor.savedBg = g.cursor.savedBg

theorem Shows.savedDrawn (hshows : Shows g b) (hfb : HasPlace g.fb)
    (hpos : Clamped g.fb g.cursor.x g.cursor.y) :
    SavedDrawn g b (drawCursor (Gui.saveBackground g)) := by
  have hmapped := hfb.placed.mapped
  unfold Gui.saveBackground drawCursor
  simp only [if_neg hmapped, spriteStores_eq]
  refine ⟨rfl, rfl, ?_, ?_, ?_⟩
  · exact Shows.emit (g := { g with cursor := _ }) hshows hfb.apart hpos.toPosition
  · intro hon row hrow col hcol
    have hcw : cursorWidth = 16 := rfl
    have hch : cursorHeight = 16 := rfl
    have hcolumn := hpos.column
    have hline := hpos.row
    have hleft := hpos.left
    have htop := hpos.top
    rw [hcw] at hcol
    rw [hch] at hrow
    unfold OffScreen at hon
    change (if _ then _ else _) = _
    rw [coordinate hpos.left hcol, coordinate hpos.top hrow, if_pos ⟨hrow, hcol, by omega, by omega⟩]
    exact hshows _ (by omega) _ (by omega)
  · intro hoff
    funext row col
    unfold OffScreen at hoff
    refine if_neg ?_
    rintro ⟨hrow, hcol, hx, hy⟩
    rw [coordinate hpos.left hcol] at hx
    rw [coordinate hpos.top hrow] at hy
    omega

/-- A state behind which the cursor has been saved and drawn at its position. -/
theorem SavedDrawn.hidable {g' : State} (h : SavedDrawn g b g') (hvisible : g.cursor.visible = true)
    (hpos : Clamped g.fb g.cursor.x g.cursor.y)
    (hold : Clamped g.fb g.cursor.oldX g.cursor.oldY)
    (hkept : OffScreen g.fb g.cursor.x g.cursor.y →
      ¬ OffScreen g.fb g.cursor.oldX g.cursor.oldY → SavedAt g b g.cursor.oldX g.cursor.oldY) :
    Hidable g' b := by
  obtain ⟨hfb, hcursor, hshows, hsaved, hsame⟩ := h
  have hx : g'.cursor.x = g.cursor.x := by rw [hcursor]
  have hy : g'.cursor.y = g.cursor.y := by rw [hcursor]
  have hoX : g'.cursor.oldX = g.cursor.oldX := by rw [hcursor]
  have hoY : g'.cursor.oldY = g.cursor.oldY := by rw [hcursor]
  have hv : g'.cursor.visible = true := by
    rw [hcursor]
    exact hvisible
  refine ⟨?_, ?_, ?_, fun _ => ?_, ?_⟩
  · rwa [hfb, hx, hy]
  · rwa [hfb, hoX, hoY]
  · rwa [hv, if_pos rfl, hx, hy]
  · rwa [hfb, hx, hy]
  · rw [hfb, hx, hy, hoX, hoY]
    intro hoff hon row hrow col hcol
    rw [hsame hoff]
    exact hkept hoff hon row hrow col hcol

theorem HasPlace.clamped {fb : Framebuffer} (h : HasPlace fb) {v w : Int}
    (hv : -2 ^ 31 ≤ v ∧ v < 2 ^ 31) (hw : -2 ^ 31 ≤ w ∧ w < 2 ^ 31) :
    Clamped fb (clampPosition v fb.width cursorWidth) (clampPosition w fb.height cursorHeight) := by
  have hwidth := h.width
  have hheight := h.height
  obtain ⟨hsizew, hsizeh⟩ := h.placed.size_lt (x := 0) (y := 0) (by omega) (by omega)
  have hx := clampPosition_cases hwidth (by omega) hv
  have hy := clampPosition_cases hheight (by omega) hw
  exact ⟨⟨hx.1, hy.1⟩, hx.2, hy.2⟩

theorem hidable_cursorInit (hfb : HasPlace g.fb) : Hidable (cursorInit g) (picture g) := by
  have hwidth := hfb.width
  have hheight := hfb.height
  obtain ⟨hsizew, hsizeh⟩ := hfb.placed.size_lt (x := 0) (y := 0) (by omega) (by omega)
  have hpos := @HasPlace.clamped g.fb hfb (int32 (g.fb.width / 2)) (int32 (g.fb.height / 2))
    (by rw [int32_of_lt (by omega)]; omega) (by rw [int32_of_lt (by omega)]; omega)
  unfold cursorInit
  dsimp only
  rw [if_pos hfb.placed.mapped]
  generalize clampPosition (int32 (g.fb.width / 2)) g.fb.width cursorWidth = x at hpos
  generalize clampPosition (int32 (g.fb.height / 2)) g.fb.height cursorHeight = y at hpos
  exact (Shows.savedDrawn
    (g := { g with cursor := { g.cursor with x, y, oldX := x, oldY := y, visible := true } })
    (fun _ _ _ _ => rfl) hfb hpos).hidable rfl hpos hpos fun hoff hon => absurd hoff hon

theorem Hidable.show (h : Hidable g b) (hfb : HasPlace g.fb) : Hidable (cursorShow g) b := by
  unfold cursorShow
  split
  · exact h
  · next hhidden =>
      have hshows := h.shows
      rw [if_neg hhidden] at hshows
      refine (Shows.savedDrawn (g := { g with cursor := { g.cursor with visible := true } }) hshows
        hfb h.position).hidable rfl h.position h.oldPosition h.savedOld

theorem Hidable.move (h : Hidable g b) (hfb : HasPlace g.fb) (dx dy : Int) :
    Hidable (cursorMove g dx dy) b := by
  unfold cursorMove
  split
  · exact h
  · next hshown =>
      obtain ⟨hvisible, -⟩ := not_or.mp hshown
      have hvisible : g.cursor.visible = true := by simpa using hvisible
      have hpos := hfb.clamped (i32_range (g.cursor.x + dx)) (i32_range (g.cursor.y + dy))
      have hshows := h.shows
      rw [if_pos hvisible] at hshows
      dsimp only
      generalize clampPosition (i32 (g.cursor.x + dx)) g.fb.width cursorWidth = x at hpos
      generalize clampPosition (i32 (g.cursor.y + dy)) g.fb.height cursorHeight = y at hpos
      split
      · next hsame =>
          -- the cursor has not moved
          obtain ⟨rfl, rfl⟩ := hsame
          refine ⟨h.position, h.position, ?_, h.saved, fun hoff hon => absurd hoff hon⟩
          rwa [if_pos hvisible]
      · unfold restoreBackground
        rw [if_neg hfb.placed.mapped]
        dsimp only
        have hclean : Shows (g.emit (backgroundStores g.fb g.cursor.savedBg g.cursor.x g.cursor.y)) b := by
          by_cases hoff : OffScreen g.fb g.cursor.x g.cursor.y
          · exact (hshows.of_overlay_offScreen hoff).background_offScreen hfb.apart
              h.position.toPosition hoff _
          · exact hshows.background hfb.apart h.position.toPosition (h.saved hvisible hoff)
        exact (Shows.savedDrawn (g := { (g.emit _) with
          cursor := { g.cursor with x, y, oldX := g.cursor.x, oldY := g.cursor.y } })
          hclean hfb hpos).hidable hvisible hpos h.position fun _ hon => h.saved hvisible hon

theorem Hidable.hide (h : Hidable g b) (hfb : HasPlace g.fb) (hplace : HidesInPlace g .hide) :
    Hidable (cursorHide g) b := by
  unfold cursorHide
  split
  · exact h
  · next hshown =>
      have hvisible : g.cursor.visible = true := by simpa using hshown
      have hshows := h.shows
      rw [if_pos hvisible] at hshows
      unfold restoreBackground
      rw [if_neg hfb.placed.mapped]
      refine ⟨h.position, h.oldPosition, ?_, (fun hv => nomatch hv), h.savedOld⟩
      change Shows (g.emit (backgroundStores g.fb g.cursor.savedBg g.cursor.oldX g.cursor.oldY)) b
      by_cases hoff : OffScreen g.fb g.cursor.x g.cursor.y
      · -- the sprite is not on the screen, and what is saved is still that of the old position
        have hclean := hshows.of_overlay_offScreen hoff
        by_cases hold : OffScreen g.fb g.cursor.oldX g.cursor.oldY
        · exact hclean.background_offScreen hfb.apart h.oldPosition.toPosition hold _
        · rw [backgroundStores_eq]
          have hsaved := h.savedOld hoff hold
          exact (hclean.emit hfb.apart h.oldPosition.toPosition).congr fun sx sy =>
            overlay_saved h.oldPosition.left.1 h.oldPosition.top.1 hsaved fun _ => rfl
      · obtain ⟨hx, hy⟩ := hplace rfl hvisible hoff
        rw [hx, hy]
        exact hshows.background hfb.apart h.position.toPosition (h.saved hvisible hoff)

/-- The picture has a value of its own at each pixel, and none of them is that of the sprite's
tip. -/
structure Distinct (fb : Framebuffer) (b : Picture) : Prop where
  inj : ∀ {sx sy tx ty : Nat}, sx < fb.width → sy < fb.height → tx < fb.width → ty < fb.height →
    b sx sy = b tx ty → sx = tx ∧ sy = ty
  tip : ∀ sx sy, b sx sy ≠ 0

theorem overlay_corner {f : Nat → Nat → Option Nat} {v : Nat} (hpos : Position x y)
    (hf : f 0 0 = some v) : overlay f b x y x.toNat y.toNat = v := by
  have hcw : cursorWidth = 16 := rfl
  have hch : cursorHeight = 16 := rfl
  have hleft := hpos.left
  have htop := hpos.top
  unfold overlay
  rw [if_pos (by omega), show ((y.toNat : Nat) - y).toNat = 0 by omega,
    show ((x.toNat : Nat) - x).toNat = 0 by omega, hf, Option.getD_some]

/-- A cursor that is hidden somewhere else than at its last position leaves pixels behind. -/
theorem Hidable.hidesInPlace (h : Hidable g b) (hfb : HasPlace g.fb) (hdistinct : Distinct g.fb b)
    (hshown : Shows (cursorHide g) b) : HidesInPlace g .hide := by
  intro _ hvisible hon
  have hshows := h.shows
  rw [if_pos hvisible] at hshows
  have hpos := h.position.toPosition
  have holdPos := h.oldPosition.toPosition
  have hafter : Shows (g.emit (backgroundStores g.fb g.cursor.savedBg g.cursor.oldX g.cursor.oldY))
      b := by
    unfold cursorHide restoreBackground at hshown
    rwa [if_neg (by simp [hvisible]), if_neg hfb.placed.mapped] at hshown
  have hsaved := h.saved hvisible hon
  have hleft := hpos.left
  have htop := hpos.top
  have hright : g.cursor.x.toNat < g.fb.width := by unfold OffScreen at hon; omega
  have hbottom : g.cursor.y.toNat < g.fb.height := by unfold OffScreen at hon; omega
  by_cases hold : OffScreen g.fb g.cursor.oldX g.cursor.oldY
  · -- nothing is put back, and the sprite stays
    have hkept := hshows.background_offScreen hfb.apart holdPos hold g.cursor.savedBg
    have htip := (hafter _ hright _ hbottom).symm.trans (hkept _ hright _ hbottom)
    rw [overlay_corner hpos (show spritePixel 0 0 = some 0 from rfl)] at htip
    exact absurd htip (hdistinct.tip _ _)
  · -- the pixels of the position are put back at the old one
    have holdLeft := holdPos.left
    have holdTop := holdPos.top
    have holdRight : g.cursor.oldX.toNat < g.fb.width := by unfold OffScreen at hold; omega
    have holdBottom : g.cursor.oldY.toNat < g.fb.height := by unfold OffScreen at hold; omega
    have hput := hshows.emit hfb.apart (f := fun row col => some (g.cursor.savedBg row col)) holdPos
    rw [← backgroundStores_eq] at hput
    have hcorner := (hafter _ holdRight _ holdBottom).symm.trans (hput _ holdRight _ holdBottom)
    rw [overlay_corner holdPos rfl, hsaved 0 (by decide) 0 (by decide)] at hcorner
    obtain ⟨hx, hy⟩ := hdistinct.inj holdRight holdBottom hright hbottom hcorner
    exact ⟨by omega, by omega⟩

/-! ## Runs -/

theorem cursorOp_fb (op : CursorOp) : (cursorOp g op).fb = g.fb := by
  cases op with
  | move dx dy => exact (painted_cursorMove dx dy).fb
  | hide => exact painted_cursorHide.fb
  | «show» => exact painted_cursorShow.fb

theorem Hidable.cursorOp (h : Hidable g b) (hfb : HasPlace g.fb) {op : CursorOp}
    (hplace : HidesInPlace g op) : Hidable (cursorOp g op) b := by
  cases op with
  | move dx dy => exact h.move hfb dx dy
  | hide => exact h.hide hfb hplace
  | «show» => exact h.show hfb

theorem cursorHide_visible : (cursorHide g).cursor.visible = false := by
  unfold cursorHide restoreBackground
  split
  · next hhidden => simpa using hhidden
  · split <;> rfl

/-- Behind every call that hides the cursor in place, the picture is there. -/
theorem Hidable.restoresPicture (h : Hidable g b) (hfb : HasPlace g.fb) {op : CursorOp}
    (hplace : HidesInPlace g op) : RestoresPicture b g op := by
  have hafter := (h.cursorOp hfb hplace).shows
  cases op with
  | hide =>
      rw [show (Gui.cursorOp g .hide).cursor.visible = false from cursorHide_visible] at hafter
      exact hafter
  | move dx dy =>
      intro hvisible
      rwa [if_pos hvisible] at hafter
  | «show» =>
      intro hvisible
      rwa [if_pos hvisible] at hafter

/-- The cursor has the same place in two states. -/
structure SameCursor (g g' : State) : Prop where
  fb : g'.fb = g.fb
  visible : g'.cursor.visible = g.cursor.visible
  x : g'.cursor.x = g.cursor.x
  y : g'.cursor.y = g.cursor.y
  oldX : g'.cursor.oldX = g.cursor.oldX
  oldY : g'.cursor.oldY = g.cursor.oldY

namespace SameCursor

variable {g' g'' : State}

theorem symm (h : SameCursor g g') : SameCursor g' g :=
  ⟨h.fb.symm, h.visible.symm, h.x.symm, h.y.symm, h.oldX.symm, h.oldY.symm⟩

theorem trans (h : SameCursor g g') (h' : SameCursor g' g'') : SameCursor g g'' :=
  ⟨h'.fb.trans h.fb, h'.visible.trans h.visible, h'.x.trans h.x, h'.y.trans h.y,
    h'.oldX.trans h.oldX, h'.oldY.trans h.oldY⟩

theorem restoreBackground : SameCursor g (restoreBackground g) := by
  unfold Gui.restoreBackground
  split <;> exact ⟨rfl, rfl, rfl, rfl, rfl, rfl⟩

theorem saveDraw : SameCursor g (drawCursor (saveBackground g)) := by
  unfold drawCursor saveBackground
  split <;> exact ⟨rfl, rfl, rfl, rfl, rfl, rfl⟩

theorem drawn (h : SameCursor g g') :
    SameCursor (drawCursor (saveBackground g)) (drawCursor (saveBackground g')) :=
  (saveDraw.symm.trans h).trans saveDraw

theorem restored (h : SameCursor g g') :
    SameCursor (Gui.restoreBackground g) (Gui.restoreBackground g') :=
  (restoreBackground.symm.trans h).trans restoreBackground

theorem hidesInPlace (h : SameCursor g g') {op : CursorOp} (hplace : HidesInPlace g op) :
    HidesInPlace g' op := by
  unfold HidesInPlace OffScreen at *
  rw [h.fb, h.visible, h.x, h.y, h.oldX, h.oldY]
  exact hplace

theorem cursorInit (h : g'.fb = g.fb) : SameCursor (cursorInit g) (cursorInit g') := by
  unfold Gui.cursorInit
  rw [h]
  dsimp only
  split
  · exact drawn ⟨rfl, rfl, rfl, rfl, rfl, rfl⟩
  · exact ⟨rfl, rfl, rfl, rfl, rfl, rfl⟩

theorem cursorOp (h : SameCursor g g') (op : CursorOp) :
    SameCursor (cursorOp g op) (cursorOp g' op) := by
  obtain ⟨hfb, hvisible, hx, hy, hoX, hoY⟩ := h
  cases op with
  | hide =>
      change SameCursor (cursorHide g) (cursorHide g')
      unfold cursorHide
      rw [hvisible]
      split
      · exact ⟨hfb, hvisible, hx, hy, hoX, hoY⟩
      · exact restored ⟨hfb, rfl, hx, hy, hoX, hoY⟩
  | «show» =>
      change SameCursor (cursorShow g) (cursorShow g')
      unfold cursorShow
      rw [hvisible]
      split
      · exact ⟨hfb, hvisible, hx, hy, hoX, hoY⟩
      · exact drawn ⟨hfb, rfl, hx, hy, hoX, hoY⟩
  | move dx dy =>
      change SameCursor (cursorMove g dx dy) (cursorMove g' dx dy)
      unfold cursorMove
      rw [hfb, hvisible, hx, hy]
      dsimp only
      split
      · exact ⟨hfb, hvisible, hx, hy, hoX, hoY⟩
      · split
        · exact ⟨rfl, hvisible, rfl, rfl, rfl, rfl⟩
        · exact drawn (restored ⟨rfl, hvisible, rfl, rfl, rfl, rfl⟩)

end SameCursor

/-- Words that are different for the pixels of a framebuffer. -/
def distinctWords (a : Nat) : Nat := 2 ^ 30 + a / 4 % 2 ^ 30

theorem distinctWords_lt (a : Nat) : distinctWords a < 2 ^ 32 := by
  unfold distinctWords
  omega

theorem distinct_distinctWords (hfb : HasPlace g.fb) :
    Distinct g.fb (picture { g with vram := distinctWords }) := by
  refine ⟨?_, fun sx sy => Nat.ne_of_gt (Nat.add_pos_left (by decide) _)⟩
  intro sx sy tx ty hsx hsy htx hty heq
  have hs := hfb.placed.line_lt hsx hsy
  have ht := hfb.placed.line_lt htx hty
  have hfits := hfb.placed.fits
  unfold picture distinctWords at heq
  dsimp only at heq
  have hpixel : g.fb.pixel sx sy = g.fb.pixel tx ty := by
    rw [hfb.placed.pixel_eq hsx hsy, hfb.placed.pixel_eq htx hty] at heq ⊢
    omega
  exact hfb.apart.pixel_inj htx hty hsx hsy hpixel

/-- On every framebuffer that the cursor has place on, and for all calls of `cursor_move`,
`cursor_hide` and `cursor_show` behind `cursor_init`: whatever the picture in front of
`cursor_init` is, each `cursor_hide` brings it back and each other call behind which the cursor is
visible leaves it with the sprite over it, exactly if each `cursor_hide` of a cursor on the screen
is called while the old position is the position. -/
theorem hide_restores_iff (g : State) (hfb : HasPlace g.fb) (ops : List CursorOp) :
    (∀ vram : Nat → Nat, (∀ a, vram a < 2 ^ 32) →
      Along Gui.cursorOp (RestoresPicture (picture { g with vram })) (cursorInit { g with vram })
        ops) ↔
      Along Gui.cursorOp HidesInPlace (cursorInit g) ops := by
  have hinit : ∀ vram, HasPlace (cursorInit { g with vram }).fb ∧
      Hidable (cursorInit { g with vram }) (picture { g with vram }) := fun vram => by
    refine ⟨?_, hidable_cursorInit hfb⟩
    rw [painted_cursorInit.fb]
    exact hfb
  constructor
  · intro h
    have hplaces : Along Gui.cursorOp HidesInPlace (cursorInit { g with vram := distinctWords })
        ops := by
      refine (h distinctWords distinctWords_lt).mono (I := fun s => s.fb = g.fb ∧
        Hidable s (picture { g with vram := distinctWords })) ⟨painted_cursorInit.fb,
          (hinit distinctWords).2⟩ ?_
      intro s op ⟨hsame, hhidable⟩ hpicture
      have hfb' : HasPlace s.fb := by rwa [hsame]
      have hplace : HidesInPlace s op := by
        intro hop
        subst hop
        have hdistinct : Distinct s.fb (picture { g with vram := distinctWords }) := by
          rw [hsame]
          exact distinct_distinctWords hfb
        exact hhidable.hidesInPlace hfb' hdistinct hpicture rfl
      exact ⟨hplace, (cursorOp_fb op).trans hsame, hhidable.cursorOp hfb' hplace⟩
    exact hplaces.of_related (SameCursor.cursorInit rfl) (fun _ _ op hsame => hsame.cursorOp op)
      fun _ _ _ hsame hplace => hsame.hidesInPlace hplace
  · intro h vram _
    have hplaces : Along Gui.cursorOp HidesInPlace (cursorInit { g with vram }) ops :=
      h.of_related (SameCursor.cursorInit rfl) (fun _ _ op hsame => hsame.cursorOp op)
        fun _ _ _ hsame hplace => hsame.hidesInPlace hplace
    refine hplaces.mono (I := fun s => HasPlace s.fb ∧ Hidable s (picture { g with vram }))
      (hinit vram) ?_
    intro s op ⟨hfb, hhidable⟩ hplace
    refine ⟨hhidable.restoresPicture hfb hplace, ?_, hhidable.cursorOp hfb hplace⟩
    rwa [cursorOp_fb]

open CursorSys (mode1024)

theorem hasPlace_mode1024 : HasPlace mode1024 :=
  ⟨⟨by decide, by decide, by decide⟩, by decide, by decide⟩

/-- A move to the place where the cursor is, a hidden and a shown cursor, and a move. -/
theorem hide_restores_unmoved : HasPlace mode1024 ∧ ∀ vram : Nat → Nat, (∀ a, vram a < 2 ^ 32) →
    Along Gui.cursorOp (RestoresPicture (picture (.boot mode1024 vram)))
      (cursorInit (.boot mode1024 vram)) [.move 0 0, .hide, .show, .move 5 (-3)] := by
  refine ⟨hasPlace_mode1024, ?_⟩
  refine (hide_restores_iff (.boot mode1024 fun _ => 0) hasPlace_mode1024 _).mpr ?_
  refine along_cons.mpr ⟨nofun, along_cons.mpr ⟨fun _ _ _ => ⟨by decide, by decide⟩, ?_⟩⟩
  exact along_cons.mpr ⟨nofun, along_cons.mpr ⟨nofun, along_nil⟩⟩

/-- A cursor that is moved by one pixel and then hidden leaves pixels of the sprite behind. -/
theorem hide_leaves_sprite : HasPlace mode1024 ∧ (∀ a, distinctWords a < 2 ^ 32) ∧
    ¬ Along Gui.cursorOp (RestoresPicture (picture (.boot mode1024 distinctWords)))
      (cursorInit (.boot mode1024 distinctWords)) [.move 1 0, .hide] := by
  refine ⟨hasPlace_mode1024, distinctWords_lt, fun h => ?_⟩
  have hinit : Hidable (cursorInit (.boot mode1024 distinctWords)) _ :=
    hidable_cursorInit hasPlace_mode1024
  have hplace := (hinit.move hasPlace_mode1024 1 0).hidesInPlace hasPlace_mode1024
    (distinct_distinctWords (g := .boot mode1024 distinctWords) hasPlace_mode1024)
    (h [.move 1 0] .hide [] rfl)
  exact absurd (hplace rfl (by decide) (by unfold OffScreen; decide)).1 (by decide)

end Picture

end SRos.Gui
