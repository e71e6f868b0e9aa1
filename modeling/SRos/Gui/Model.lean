import SRos.Gui.Font
import SRos.Kernel.Machine
import SRos.Lib.LinkedList
import SRos.Lib.Stores

/-!
# The window manager

`src/drivers/window.c`, `src/drivers/cursor.c` and the framebuffer descriptor of
`src/drivers/framebuffer.c`. Signed sums wrap modulo 2^32, as the compiled code does. A loop
that only draws is the list of its stores; a pixel buffer is an object of its own, indexed by
words. A window is reached through its address: `heap` is `none` where no window is allocated,
and an operation that would read there has no result.
-/

namespace SRos.Gui

open LinkedList Stores

/-- The value of a C `int` expression. -/
def i32 (z : Int) : Int := int32 (u32OfInt z)

theorem i32_of_range {z : Int} (hlow : -2 ^ 31 ≤ z) (hhigh : z < 2 ^ 31) : i32 z = z := by
  unfold i32 int32 u32OfInt
  split <;> omega

structure Color where
  r : UInt8
  g : UInt8
  b : UInt8
  a : UInt8
  deriving DecidableEq

def colorToPixel (c : Color) : Nat := c.r.toNat <<< 16 ||| c.g.toNat <<< 8 ||| c.b.toNat

/-! ## The framebuffer -/

/-- `framebuffer_t`; the address is `0` as long as nothing is mapped. -/
structure Framebuffer where
  width : Nat
  height : Nat
  pitch : Nat
  bpp : Nat
  addr : Nat
  physAddr : Nat
  deriving DecidableEq

def framebufferInit (physAddr width height pitch bpp : Nat) : Framebuffer :=
  { physAddr, width, height, pitch, bpp, addr := 0 }

/-- The address that `framebuffer_map` maps the framebuffer at. -/
def virtBase : Nat := 0xF0000000

def framebufferMap (fb : Framebuffer) : Framebuffer :=
  if fb.addr ≠ 0 then fb else { fb with addr := virtBase }

def Framebuffer.pitchDwords (fb : Framebuffer) : Nat := fb.pitch / 4

/-- The address of `fb.addr[sy * pitch_dwords + sx]`. -/
def Framebuffer.pixel (fb : Framebuffer) (sx sy : Nat) : Nat :=
  fb.addr + 4 * u32 (sy * fb.pitchDwords + sx)

abbrev Store := Nat × Nat

/-- The store of a pixel value, if the pixel is on the screen. -/
def put (fb : Framebuffer) (sx sy v : Nat) : List Store :=
  if sx < fb.width ∧ sy < fb.height then [(fb.pixel sx sy, v)] else []

/-! ## Windows -/

def wmMaxWindows : Int := 16
def wmTitleHeight : Nat := 20
def wmBorderWidth : Nat := 2
def wmCloseBtnW : Nat := 14
def wmCloseBtnH : Nat := 14
def wmCloseBtnMarg : Nat := 3
def wmMaxTitleLen : Nat := 31

def wmDesktopColor : Color := ⟨40, 40, 80, 0⟩
def wmTitleActive : Color := ⟨50, 80, 200, 0⟩
def wmTitleInactive : Color := ⟨100, 100, 120, 0⟩
def wmCloseNormal : Color := ⟨200, 50, 50, 0⟩
def wmCloseXColor : Color := ⟨255, 255, 255, 0⟩
def wmBorderActive : Color := ⟨80, 110, 230, 0⟩
def wmBorderInactive : Color := ⟨130, 130, 140, 0⟩
def wmContentBg : Color := ⟨245, 245, 245, 0⟩
def wmTitleText : Color := ⟨255, 255, 255, 0⟩

abbrev Ptr := Nat

/-- `window_t`. The title is given by the bytes in front of its NUL. -/
structure Window where
  x : Int
  y : Int
  width : Nat
  height : Nat
  contentW : Nat
  contentH : Nat
  title : List UInt8
  zOrder : Nat
  visible : Bool
  focused : Bool
  buffer : Option (Nat → Nat)
  dirty : Bool
  next : Option Ptr

/-- `wm_t`. -/
structure Wm where
  windows : Option Ptr
  focused : Option Ptr
  count : Int
  needsComposite : Bool
  desktopColor : Color

/-- `cursor_t`. -/
structure Cursor where
  x : Int
  y : Int
  oldX : Int
  oldY : Int
  visible : Bool
  savedBg : Nat → Nat → Nat

/-- What one call of `wm_composite` found and did. Nothing of the source reads it. -/
structure Composite where
  count : Int
  needsComposite : Bool
  before : Framebuffer
  after : Framebuffer
  stored : List Nat

/-- The global state. `stored` and `composites` record the addresses that pixels were stored to
and the calls of `wm_composite`. -/
structure State where
  fb : Framebuffer
  vram : Nat → Nat
  cursor : Cursor
  wm : Wm
  heap : Ptr → Option Window
  buttonsLast : Nat
  stored : List Nat
  composites : List Composite

/-- The zero-initialised globals, with a framebuffer. -/
def State.boot (fb : Framebuffer) (vram : Nat → Nat) : State where
  fb := fb
  vram := vram
  cursor := ⟨0, 0, 0, 0, false, fun _ _ => 0⟩
  wm := ⟨none, none, 0, false, ⟨0, 0, 0, 0⟩⟩
  heap := fun _ => none
  buttonsLast := 0
  stored := []
  composites := []

/-- Performs stores to the framebuffer. -/
def State.emit (g : State) (ss : List Store) : State :=
  { g with vram := perform ss g.vram, stored := g.stored ++ ss.map Prod.fst }

/-- Writes fields of an allocated window. -/
def State.modify (g : State) (win : Ptr) (f : Window → Window) : Option State := do
  let w ← g.heap win
  return { g with heap := Function.update g.heap win (some (f w)) }

def insertSorted (fuel : Nat) (g : State) (win : Ptr) : Option State := do
  let w ← g.heap win
  match g.wm.windows with
  | none =>
      let g ← g.modify win fun w => { w with next := none }
      return { g with wm := { g.wm with windows := some win } }
  | some head =>
      let h ← g.heap head
      if w.zOrder < h.zOrder then
        let g ← g.modify win fun w => { w with next := some head }
        return { g with wm := { g.wm with windows := some win } }
      else
        let prev ← seek g.heap Window.next (fun _ v => v.zOrder ≤ w.zOrder) fuel head
        let p ← g.heap prev
        let g ← g.modify win fun w => { w with next := p.next }
        g.modify prev fun p => { p with next := some win }

def removeFromList (fuel : Nat) (g : State) (win : Ptr) : Option State :=
  match g.wm.windows with
  | none => some g
  | some head =>
      if head = win then do
        let w ← g.heap win
        return { g with wm := { g.wm with windows := w.next } }
      else do
        let prev ← seek g.heap Window.next (fun q _ => q ≠ win) fuel head
        let p ← g.heap prev
        match p.next with
        | none => return g
        | some _ =>
            let w ← g.heap win
            g.modify prev fun p => { p with next := w.next }

def getNextZOrder (fuel : Nat) (g : State) : Option Nat := do
  let ws ← walk g.heap Window.next fuel g.wm.windows
  let maxZ := ws.foldl (fun maxZ x => if x.2.zOrder > maxZ then x.2.zOrder else maxZ) 0
  return u32 (maxZ + 1)

def computeWindowSize (w : Window) : Window :=
  { w with
    width := u32 (w.contentW + wmBorderWidth * 2)
    height := u32 (w.contentH + wmTitleHeight + wmBorderWidth) }

/-! ## Drawing a window -/

def drawBorder (fb : Framebuffer) (w : Window) (fgBorder : Nat) : List Store :=
  (List.range wmBorderWidth).flatMap fun (b : Nat) =>
    ((List.range w.width).flatMap fun (cx : Nat) =>
      put fb (u32OfInt (w.x + cx)) (u32OfInt (w.y + b)) fgBorder) ++
    ((List.range w.width).flatMap fun (cx : Nat) =>
      put fb (u32OfInt (w.x + cx)) (u32OfInt (w.y + w.height - 1 - b)) fgBorder) ++
    ((List.range w.height).flatMap fun (cy : Nat) =>
      put fb (u32OfInt (w.x + b)) (u32OfInt (w.y + cy)) fgBorder) ++
    ((List.range w.height).flatMap fun (cy : Nat) =>
      put fb (u32OfInt (w.x + w.width - 1 - b)) (u32OfInt (w.y + cy)) fgBorder)

def drawTitleBar (fb : Framebuffer) (w : Window) (titleY : Int) (fgTitle : Nat) : List Store :=
  (List.range wmTitleHeight).flatMap fun (ty : Nat) =>
    (List.range' wmBorderWidth (u32Sub w.width wmBorderWidth - wmBorderWidth)).flatMap fun (tx : Nat) =>
      put fb (u32OfInt (w.x + tx)) (u32OfInt (titleY + ty)) fgTitle

/-- `max_title_chars`. -/
def maxTitleChars (w : Window) : Nat :=
  u32Sub (u32Sub (u32Sub (u32Sub w.width (wmBorderWidth * 2)) 4) wmCloseBtnW)
    (wmCloseBtnMarg * 2) / fontCharWidth

/-- The loops over the rows and columns of one character of the title. -/
def drawTitleChar (fb : Framebuffer) (idx : Nat) (cx cy : Int) (titleText fgTitle : Nat) :
    List Store :=
  (List.range fontCharHeight).flatMap fun (row : Nat) =>
    (List.range fontCharWidth).flatMap fun (col : Nat) =>
      put fb (u32OfInt (cx + col)) (u32OfInt (cy + row))
        (if fontBit (fontVga8x16 idx row) col then titleText else fgTitle)

def drawTitleText (fb : Framebuffer) (w : Window) (titleY : Int) (titleText fgTitle : Nat) :
    List Store :=
  let textX := i32 (w.x + wmBorderWidth + 4)
  (List.range (min w.title.length (maxTitleChars w))).flatMap fun (ci : Nat) =>
    let cx := i32 (textX + ci * fontCharWidth)
    let cy := i32 (titleY + (wmTitleHeight - fontCharHeight) / 2)
    drawTitleChar fb (fontIndex (w.title.getD ci 0).toNat) cx cy titleText fgTitle

def drawCloseButton (fb : Framebuffer) (btnX btnY : Int) (closePixel closeXPixel : Nat) :
    List Store :=
  ((List.range wmCloseBtnH).flatMap fun (by_ : Nat) =>
    (List.range wmCloseBtnW).flatMap fun (bx : Nat) =>
      put fb (u32OfInt (btnX + bx)) (u32OfInt (btnY + by_)) closePixel) ++
  ((List.range wmCloseBtnW).flatMap fun (i : Nat) =>
    put fb (u32OfInt (btnX + i)) (u32OfInt (btnY + i)) closeXPixel ++
    put fb (u32OfInt (btnX + i)) (u32OfInt (btnY + wmCloseBtnH - 1 - i)) closeXPixel)

def drawWindowFrame (fb : Framebuffer) (w : Window) : List Store :=
  let fgBorder := colorToPixel (if w.focused then wmBorderActive else wmBorderInactive)
  let fgTitle := colorToPixel (if w.focused then wmTitleActive else wmTitleInactive)
  let titleY := i32 (w.y + wmBorderWidth)
  let btnX := i32 (w.x + int32 w.width - wmBorderWidth - wmCloseBtnMarg - wmCloseBtnW)
  let btnY := i32 (titleY + (wmTitleHeight - wmCloseBtnH) / 2)
  drawBorder fb w fgBorder ++ drawTitleBar fb w titleY fgTitle ++
    drawTitleText fb w titleY (colorToPixel wmTitleText) fgTitle ++
    drawCloseButton fb btnX btnY (colorToPixel wmCloseNormal) (colorToPixel wmCloseXColor)

def drawWindowContent (fb : Framebuffer) (w : Window) : List Store :=
  match w.buffer with
  | none => []
  | some buffer =>
      let contentX := i32 (w.x + wmBorderWidth)
      let contentY := i32 (w.y + wmBorderWidth + wmTitleHeight)
      (List.range w.contentH).flatMap fun (ry : Nat) =>
        (List.range w.contentW).flatMap fun (rx : Nat) =>
          put fb (u32OfInt (contentX + rx)) (u32OfInt (contentY + ry))
            (buffer (u32 (ry * w.contentW + rx)))

/-- What `wm_composite` draws for one visible window. -/
def drawWindow (fb : Framebuffer) (w : Window) : List Store :=
  drawWindowFrame fb w ++ drawWindowContent fb w

def windowContains (w : Window) (px py : Int) : Bool :=
  w.x ≤ px ∧ px < i32 (w.x + int32 w.width) ∧ w.y ≤ py ∧ py < i32 (w.y + int32 w.height)

/-! ## The cursor -/

def cursorWidth : Nat := 16
def cursorHeight : Nat := 16

def sCursorSprite : List (List Nat) := [
  [1, 0, 0, 0, 0, 0, 0, 0, 0, 0, 0, 0, 0, 0, 0, 0],
  [1, 1, 0, 0, 0, 0, 0, 0, 0, 0, 0, 0, 0, 0, 0, 0],
  [1, 2, 1, 0, 0, 0, 0, 0, 0, 0, 0, 0, 0, 0, 0, 0],
  [1, 2, 2, 1, 0, 0, 0, 0, 0, 0, 0, 0, 0, 0, 0, 0],
  [1, 2, 2, 2, 1, 0, 0, 0, 0, 0, 0, 0, 0, 0, 0, 0],
  [1, 2, 2, 2, 2, 1, 0, 0, 0, 0, 0, 0, 0, 0, 0, 0],
  [1, 2, 2, 2, 2, 2, 1, 0, 0, 0, 0, 0, 0, 0, 0, 0],
  [1, 2, 2, 2, 2, 2, 2, 1, 0, 0, 0, 0, 0, 0, 0, 0],
  [1, 2, 2, 2, 2, 2, 2, 2, 1, 0, 0, 0, 0, 0, 0, 0],
  [1, 2, 2, 2, 2, 2, 2, 2, 2, 1, 0, 0, 0, 0, 0, 0],
  [1, 2, 2, 2, 2, 2, 2, 2, 2, 2, 1, 0, 0, 0, 0, 0],
  [1, 2, 2, 2, 2, 2, 2, 2, 2, 2, 2, 1, 0, 0, 0, 0],
  [1, 1, 1, 1, 1, 1, 1, 1, 1, 1, 1, 1, 1, 0, 0, 0],
  [0, 0, 0, 0, 0, 0, 0, 0, 0, 0, 0, 0, 0, 0, 0, 0],
  [0, 0, 0, 0, 0, 0, 0, 0, 0, 0, 0, 0, 0, 0, 0, 0],
  [0, 0, 0, 0, 0, 0, 0, 0, 0, 0, 0, 0, 0, 0, 0, 0]]

def sCursorBlack : Color := ⟨0, 0, 0, 0⟩
def sCursorWhite : Color := ⟨255, 255, 255, 0⟩

/-- `clamp_position` for one coordinate, of a screen with this many pixels in its direction. -/
def clampPosition (v : Int) (size extent : Nat) : Int :=
  let v := if v < 0 then 0 else v
  if i32 (v + extent) > int32 size then i32 (int32 size - extent) else v

def saveBackground (g : State) : State :=
  if g.fb.addr = 0 then g
  else
    let savedBg := fun (row col : Nat) =>
      let sx := u32OfInt (g.cursor.x + col)
      let sy := u32OfInt (g.cursor.y + row)
      if row < cursorHeight ∧ col < cursorWidth ∧ sx < g.fb.width ∧ sy < g.fb.height then
        g.vram (g.fb.pixel sx sy)
      else g.cursor.savedBg row col
    { g with cursor := { g.cursor with savedBg } }

/-- The stores that put the saved background back at a position. -/
def backgroundStores (fb : Framebuffer) (savedBg : Nat → Nat → Nat) (x y : Int) : List Store :=
  (List.range cursorHeight).flatMap fun (row : Nat) =>
    (List.range cursorWidth).flatMap fun (col : Nat) =>
      put fb (u32OfInt (x + col)) (u32OfInt (y + row)) (savedBg row col)

def restoreBackground (g : State) : State :=
  if g.fb.addr = 0 then g
  else g.emit (backgroundStores g.fb g.cursor.savedBg g.cursor.oldX g.cursor.oldY)

def spriteStores (fb : Framebuffer) (x y : Int) : List Store :=
  (List.range cursorHeight).flatMap fun (row : Nat) =>
    (List.range cursorWidth).flatMap fun (col : Nat) =>
      let val := (sCursorSprite.getD row []).getD col 0
      if val = 0 then []
      else
        put fb (u32OfInt (x + col)) (u32OfInt (y + row))
          (colorToPixel (if val = 1 then sCursorBlack else sCursorWhite))

def drawCursor (g : State) : State :=
  if g.fb.addr = 0 then g else g.emit (spriteStores g.fb g.cursor.x g.cursor.y)

def cursorInit (g : State) : State :=
  let x := clampPosition (int32 (g.fb.width / 2)) g.fb.width cursorWidth
  let y := clampPosition (int32 (g.fb.height / 2)) g.fb.height cursorHeight
  let g := { g with cursor := { g.cursor with x, y, oldX := x, oldY := y, visible := true } }
  if g.fb.addr ≠ 0 then drawCursor (saveBackground g) else g

def cursorShow (g : State) : State :=
  if g.cursor.visible then g
  else drawCursor (saveBackground { g with cursor := { g.cursor with visible := true } })

def cursorHide (g : State) : State :=
  if !g.cursor.visible then g
  else restoreBackground { g with cursor := { g.cursor with visible := false } }

def cursorMove (g : State) (dx dy : Int) : State :=
  if !g.cursor.visible ∨ g.fb.addr = 0 then g
  else
    let oldX := g.cursor.x
    let oldY := g.cursor.y
    let x := clampPosition (i32 (oldX + dx)) g.fb.width cursorWidth
    let y := clampPosition (i32 (oldY + dy)) g.fb.height cursorHeight
    let g := { g with cursor := { g.cursor with x, y, oldX, oldY } }
    if x = oldX ∧ y = oldY then g
    else drawCursor (saveBackground (restoreBackground g))

/-- `mouse_event_t`. -/
structure MouseEvent where
  buttons : Nat
  dx : Int
  dy : Int

/-- `cursor_poll_mouse` on the events that `mouse_read` returns. -/
def cursorPollMouse (g : State) (events : List MouseEvent) : State :=
  events.foldl (fun g ev => cursorMove g ev.dx (-ev.dy)) g

def cursorRedraw (g : State) : State :=
  if !g.cursor.visible ∨ g.fb.addr = 0 then g else drawCursor (saveBackground g)

def cursorRemove (g : State) : State :=
  if g.fb.addr = 0 ∨ !g.cursor.visible then g
  else g.emit (backgroundStores g.fb g.cursor.savedBg g.cursor.x g.cursor.y)

def cursorRestore (g : State) : State :=
  if g.fb.addr = 0 ∨ !g.cursor.visible then g
  else
    drawCursor (saveBackground
      { g with cursor := { g.cursor with oldX := g.cursor.x, oldY := g.cursor.y } })

/-! ## The interface of the window manager -/

def wmInit (g : State) : State :=
  { g with
    wm :=
      { windows := none, focused := none, count := 0, needsComposite := true,
        desktopColor := wmDesktopColor } }

/-- The part of `wm_focus_window` that takes the flag of the old focus. -/
def dropFocus (g : State) : Option State :=
  match g.wm.focused with
  | none => some g
  | some old => g.modify old fun w => { w with focused := false }

/-- The part of `wm_focus_window` that gives a window the highest z-order. -/
def raiseWindow (fuel : Nat) (g : State) (win : Ptr) : Option State := do
  let newZ ← getNextZOrder fuel g
  let g ← removeFromList fuel g win
  let g ← g.modify win fun w => { w with zOrder := newZ }
  insertSorted fuel g win

def wmFocusWindow (fuel : Nat) (g : State) : Option Ptr → Option State
  | none => some g
  | some win =>
      if g.wm.focused = some win then g.modify win fun w => { w with focused := true }
      else do
        let g ← dropFocus g
        let g ← g.modify win fun w => { w with focused := true }
        let g := { g with wm := { g.wm with focused := some win } }
        let g ← raiseWindow fuel g win
        let g ← g.modify win fun w => { w with dirty := true }
        return { g with wm := { g.wm with needsComposite := true } }

/-- The fields that `wm_create_window` sets before the window is inserted, with its buffer
filled. -/
def newWindow (x y : Int) (contentW contentH : Nat) (title : CStr) (old : Nat → Nat) : Window :=
  let bg := colorToPixel wmContentBg
  computeWindowSize
    { x, y, contentW, contentH, width := 0, height := 0
      title := title.bytes.take wmMaxTitleLen, zOrder := 0, visible := true, focused := false
      buffer := some fun i => if i < u32 (contentW * contentH) then bg else old i
      dirty := true, next := none }

/-- `wm_create_window`. `object` is what `kmalloc` returns for the window and `buffer` the object
it returns for the pixels. -/
def wmCreateWindow (fuel : Nat) (g : State) (x y : Int) (contentW contentH : Nat) (title : CStr)
    (object : Option Ptr) (buffer : Option (Nat → Nat)) : Option (State × Option Ptr) :=
  if g.wm.count ≥ wmMaxWindows then some (g, none)
  else
    match object with
    | none => some (g, none)
    | some win =>
        match buffer with
        | none => some ({ g with heap := Function.update g.heap win none }, none)
        | some old => do
            let w := newWindow x y contentW contentH title old
            let g := { g with heap := Function.update g.heap win (some w) }
            let z ← getNextZOrder fuel g
            let g ← g.modify win fun w => { w with zOrder := z }
            let g ← insertSorted fuel g win
            let g := { g with wm := { g.wm with count := g.wm.count + 1 } }
            let g ← wmFocusWindow fuel g (some win)
            return ({ g with wm := { g.wm with needsComposite := true } }, some win)

def wmDestroyWindow (fuel : Nat) (g : State) : Option Ptr → Option State
  | none => some g
  | some win => do
      let g ← removeFromList fuel g win
      let focused := if g.wm.focused = some win then none else g.wm.focused
      let g := { g with wm := { g.wm with focused } }
      let g ← g.modify win fun w => { w with buffer := none }
      let g := { g with wm := { g.wm with count := g.wm.count - 1, needsComposite := true } }
      return { g with heap := Function.update g.heap win none }

def wmMoveWindow (g : State) (win : Option Ptr) (x y : Int) : Option State :=
  match win with
  | none => some g
  | some win => do
      let g ← g.modify win fun w => { w with x, y, dirty := true }
      return { g with wm := { g.wm with needsComposite := true } }

/-- `rep stosl` of a value with `count` in ECX and `fb.addr` bound to EDI: the final EDI is
stored back to `fb.addr`. -/
def repStosl (g : State) (count v : Nat) : State :=
  let g := g.emit ((List.range count).map fun (i : Nat) => (g.fb.addr + 4 * i, v))
  { g with fb := { g.fb with addr := u32 (g.fb.addr + 4 * count) } }

/-- One round of the drawing loop of `wm_composite`. -/
def compositeWindow (g : State) (x : Ptr × Window) : State :=
  if x.2.visible then
    let g := g.emit (drawWindow g.fb x.2)
    { g with
      heap := Function.update g.heap x.1
        ((g.heap x.1).map fun w => { w with dirty := false }) }
  else g

/-- What `wm_composite` draws while the cursor is removed: the desktop if there is no window,
and otherwise the windows in the order of the list. -/
def redraw (fuel : Nat) (g : State) : Option State :=
  if g.wm.count = 0 then
    some (repStosl g (u32 (g.fb.height * g.fb.pitchDwords)) (colorToPixel g.wm.desktopColor))
  else do
    let ws ← walk g.heap Window.next fuel g.wm.windows
    return ws.foldl compositeWindow g

/-- The body of `wm_composite`. -/
def compositeBody (fuel : Nat) (g : State) : Option State :=
  if g.fb.addr = 0 then some g
  else if g.wm.count = 0 ∧ g.wm.needsComposite = false then some g
  else do
    let cursorWasVisible := g.cursor.visible
    let g ← redraw fuel (bif cursorWasVisible then cursorRemove g else g)
    let g := bif cursorWasVisible then cursorRestore g else g
    return { g with wm := { g.wm with needsComposite := false } }

/-- `wm_composite`, with the record of the call. -/
def wmComposite (fuel : Nat) (g : State) : Option State := do
  let g' ← compositeBody fuel g
  let call : Composite :=
    { count := g.wm.count, needsComposite := g.wm.needsComposite, before := g.fb, after := g'.fb
      stored := g'.stored.drop g.stored.length }
  return { g' with composites := g'.composites ++ [call] }

/-- The loop of `wm_get_window_at`: the last visible window that contains the point. -/
def lastHit (x y : Int) (ws : List (Ptr × Window)) : Option Ptr :=
  ws.foldl (fun result w => if w.2.visible ∧ windowContains w.2 x y then some w.1 else result) none

def wmGetWindowAt (fuel : Nat) (g : State) (x y : Int) : Option (Option Ptr) := do
  let ws ← walk g.heap Window.next fuel g.wm.windows
  return lastHit x y ws

def wmIsInCloseBtn (g : State) (win : Option Ptr) (x y : Int) : Option Bool :=
  match win with
  | none => some false
  | some win => do
      let w ← g.heap win
      let btnX := i32 (w.x + int32 w.width - wmBorderWidth - wmCloseBtnMarg - wmCloseBtnW)
      let btnY := i32 (w.y + wmBorderWidth + (wmTitleHeight - wmCloseBtnH) / 2)
      return btnX ≤ x ∧ x < i32 (btnX + wmCloseBtnW) ∧ btnY ≤ y ∧ y < i32 (btnY + wmCloseBtnH)

def mouseLeftBtn : Nat := 0x01

def wmHandleClick (fuel : Nat) (g : State) (x y : Int) (buttons : Nat) : Option (State × Bool) :=
  if buttons &&& mouseLeftBtn = 0 then some (g, false)
  else do
    let win ← wmGetWindowAt fuel g x y
    if win = none then return (g, false)
    else if ← wmIsInCloseBtn g win x y then
      let g ← wmDestroyWindow fuel g win
      let g ← wmComposite fuel g
      return (g, true)
    else
      let g ← wmFocusWindow fuel g win
      let g ← wmComposite fuel g
      return (g, true)

/-- The loop of `wm_update` over the events that `mouse_read` returns. -/
def wmUpdateEvents (fuel : Nat) : List MouseEvent → State → Bool → Option (State × Bool)
  | [], g, clickHandled => some (g, clickHandled)
  | ev :: evs, g, clickHandled => do
      let g := cursorMove g ev.dx (-ev.dy)
      let newButtons := ev.buttons &&& mouseLeftBtn
      let prevButtons := g.buttonsLast &&& mouseLeftBtn
      if newButtons ≠ 0 ∧ prevButtons = 0 ∧ clickHandled = false then
        let (g, _) ← wmHandleClick fuel g g.cursor.x g.cursor.y ev.buttons
        wmUpdateEvents fuel evs { g with buttonsLast := ev.buttons } true
      else wmUpdateEvents fuel evs { g with buttonsLast := ev.buttons } clickHandled

def wmUpdate (fuel : Nat) (g : State) (events : List MouseEvent) : Option State := do
  let (g, clickHandled) ← wmUpdateEvents fuel events g false
  if clickHandled then return g
  else if g.wm.needsComposite then wmComposite fuel g
  else return g

/-! ## Drawing into the buffer of a window -/

/-- Stores to the pixel buffer of a window, which is marked for redrawing. -/
def State.draw (g : State) (win : Ptr) (ss : List Store) : Option State := do
  let g ← g.modify win fun w => { w with buffer := w.buffer.map (perform ss), dirty := true }
  return { g with wm := { g.wm with needsComposite := true } }

def wmFillRect (g : State) (win : Option Ptr) (rx ry rw rh : Nat) (c : Color) : Option State :=
  match win with
  | none => some g
  | some win => do
      let w ← g.heap win
      if w.buffer.isNone then return g
      else if rx ≥ w.contentW ∨ ry ≥ w.contentH then return g
      else
        let rw := if u32 (rx + rw) > w.contentW then u32Sub w.contentW rx else rw
        let rh := if u32 (ry + rh) > w.contentH then u32Sub w.contentH ry else rh
        g.draw win ((List.range rh).flatMap fun (row : Nat) =>
          (List.range rw).map fun (col : Nat) =>
            (u32 ((ry + row) * w.contentW + (rx + col)), colorToPixel c))

def wmPutpixel (g : State) (win : Option Ptr) (px py : Nat) (c : Color) : Option State :=
  match win with
  | none => some g
  | some win => do
      let w ← g.heap win
      if w.buffer.isNone then return g
      else if px ≥ w.contentW ∨ py ≥ w.contentH then return g
      else g.draw win [(u32 (py * w.contentW + px), colorToPixel c)]

def wmPutchar (g : State) (win : Option Ptr) (ch : Int) (px py : Nat) (fg bg : Color) : Option State :=
  match win with
  | none => some g
  | some win => do
      let w ← g.heap win
      if w.buffer.isNone then return g
      else if u32 (px + fontCharWidth) > w.contentW then return g
      else if u32 (py + fontCharHeight) > w.contentH then return g
      else
        g.draw win ((List.range fontCharHeight).flatMap fun (row : Nat) =>
          (List.range fontCharWidth).map fun (col : Nat) =>
            (u32 ((py + row) * w.contentW + (px + col)),
              colorToPixel (if fontBit (fontVga8x16 (fontIndex ch) row) col then fg else bg)))

/-- The value of a `char`, which is signed. -/
def charValue (b : UInt8) : Int := if b.toNat < 128 then b.toNat else b.toNat - 256

/-- The loop of `wm_puts` over the rest of the string, at the position `(cx, cy)`. -/
def putsFrom (win : Ptr) (px : Nat) (fg bg : Color) :
    List UInt8 → Nat → Nat → State → Option State
  | [], _, _, g => some g
  | b :: bs, cx, cy, g =>
      if b = 10 then putsFrom win px fg bg bs px (u32 (cy + fontCharHeight)) g
      else do
        let g ← wmPutchar g (some win) (charValue b) cx cy fg bg
        let w ← g.heap win
        let cx := u32 (cx + fontCharWidth)
        if u32 (cx + fontCharWidth) > w.contentW then
          putsFrom win px fg bg bs px (u32 (cy + fontCharHeight)) g
        else putsFrom win px fg bg bs cx cy g

def wmPuts (g : State) (win : Option Ptr) (s : Option CStr) (px py : Nat) (fg bg : Color) :
    Option State :=
  match win, s with
  | some win, some s => putsFrom win px fg bg s.bytes px py g
  | _, _ => some g

end SRos.Gui
