import SRos.Gui.Model
import SRos.Lib.RingBuffer

/-!
# Keyboard and mouse (`src/drivers/keyboard.c`, `src/drivers/mouse.c`)

The interrupt handlers and the two ring buffers. A handler is given what it reads from the
controller. A global of the source is a field of the state of its driver.
-/

namespace SRos.Input

open Gui (MouseEvent charValue)
open RingBuffer (Table)

/-! ## The mouse -/

def mouseBufferSize : Nat := 64

/-- The static variables of `mouse.c`. -/
structure Mouse where
  buffer : Table MouseEvent
  cycle : Nat
  packet : Nat → UInt8

def mouseBufferPut (m : Mouse) (ev : MouseEvent) : Mouse :=
  { m with buffer := m.buffer.put mouseBufferSize ev }

/-- `mouse_read`: the return value, the event if one is stored, and the state. -/
def mouseRead (m : Mouse) : Int × Option MouseEvent × Mouse :=
  if m.buffer.head = m.buffer.tail then (0, none, m)
  else
    (1, some (m.buffer.slots m.buffer.tail), { m with buffer := m.buffer.drop mouseBufferSize })

def mouseHasData (m : Mouse) : Bool := m.buffer.head ≠ m.buffer.tail

/-- The event that `mouse_handler` puts together from a packet. -/
def assemble (packet : Nat → UInt8) : MouseEvent where
  buttons := (packet 0 &&& 0x07).toNat
  dx := charValue (packet 1)
  dy := charValue (packet 2)

def mouseHandler (data : UInt8) (m : Mouse) : Mouse :=
  match m.cycle with
  | 0 =>
      if data &&& 0x08 = 0 then m
      else { m with packet := Function.update m.packet 0 data, cycle := 1 }
  | 1 => { m with packet := Function.update m.packet 1 data, cycle := 2 }
  | 2 =>
      let m := { m with packet := Function.update m.packet 2 data, cycle := 0 }
      let ev := assemble m.packet
      if m.packet 0 &&& 0xC0 ≠ 0 then m else mouseBufferPut m ev
  | _ => m

/-- The zero-initialised statics. -/
def Mouse.boot : Mouse := ⟨⟨fun _ => ⟨0, 0, 0⟩, 0, 0⟩, 0, fun _ => 0⟩

/-! ## The keyboard -/

def keyboardBufferSize : Nat := 256

/-- The characters, sixteen scan codes in a line. -/
def kbdUsNormal : List UInt8 :=
  [0, 27, 49, 50, 51, 52, 53, 54, 55, 56, 57, 48, 45, 61, 8, 9,
   113, 119, 101, 114, 116, 121, 117, 105, 111, 112, 91, 93, 10, 0, 97, 115,
   100, 102, 103, 104, 106, 107, 108, 59, 39, 96, 0, 92, 122, 120, 99, 118,
   98, 110, 109, 44, 46, 47, 0, 42, 0, 32, 0, 0, 0, 0, 0, 0,
   0, 0, 0, 0, 0, 0, 0, 0, 0, 0, 0, 0, 0, 0, 0, 0,
   0, 0, 0, 0, 0, 0, 0, 0, 0, 0, 0, 0, 0, 0, 0, 0,
   0, 0, 0, 0, 0, 0, 0, 0, 0, 0, 0, 0, 0, 0, 0, 0,
   0, 0, 0, 0, 0, 0, 0, 0, 0, 0, 0, 0, 0, 0, 0, 0]

/-- The characters with a Shift key. -/
def kbdUsShift : List UInt8 :=
  [0, 27, 33, 64, 35, 36, 37, 94, 38, 42, 40, 41, 95, 43, 8, 9,
   81, 87, 69, 82, 84, 89, 85, 73, 79, 80, 123, 125, 10, 0, 65, 83,
   68, 70, 71, 72, 74, 75, 76, 58, 34, 126, 0, 124, 90, 88, 67, 86,
   66, 78, 77, 60, 62, 63, 0, 42, 0, 32, 0, 0, 0, 0, 0, 0,
   0, 0, 0, 0, 0, 0, 0, 0, 0, 0, 0, 0, 0, 0, 0, 0,
   0, 0, 0, 0, 0, 0, 0, 0, 0, 0, 0, 0, 0, 0, 0, 0,
   0, 0, 0, 0, 0, 0, 0, 0, 0, 0, 0, 0, 0, 0, 0, 0,
   0, 0, 0, 0, 0, 0, 0, 0, 0, 0, 0, 0, 0, 0, 0, 0]

def keyUp : Int := 0xE0
def keyDown : Int := 0xE1
def keyLeft : Int := 0xE2
def keyRight : Int := 0xE3

/-- The static variables of `keyboard.c`. -/
structure Keyboard where
  shiftPressed : Bool
  ctrlPressed : Bool
  capsLockActive : Bool
  buffer : Table UInt8

def kbdBufferPut (k : Keyboard) (c : Int) : Keyboard :=
  { k with buffer := k.buffer.put keyboardBufferSize (UInt8.ofInt c) }

def kbdBufferGet (k : Keyboard) : Int × Keyboard :=
  if k.buffer.head = k.buffer.tail then (0, k)
  else
    ((k.buffer.slots k.buffer.tail).toNat, { k with buffer := k.buffer.drop keyboardBufferSize })

def kbdBufferHasData (k : Keyboard) : Bool := k.buffer.head ≠ k.buffer.tail

/-- The part of `keyboard_handler` behind the modifier keys. -/
def translate (scancode : UInt8) (k : Keyboard) : Keyboard :=
  let ch := (if k.shiftPressed then kbdUsShift else kbdUsNormal).getD scancode.toNat 0
  if ch = 0 ∧ scancode = 0x48 then kbdBufferPut k keyUp
  else if ch = 0 ∧ scancode = 0x50 then kbdBufferPut k keyDown
  else if ch = 0 ∧ scancode = 0x4B then kbdBufferPut k keyLeft
  else if ch = 0 ∧ scancode = 0x4D then kbdBufferPut k keyRight
  else
    let ch :=
      if k.capsLockActive ∧ 97 ≤ ch ∧ ch ≤ 122 then ch - 32
      else if k.capsLockActive ∧ 65 ≤ ch ∧ ch ≤ 90 then ch + 32
      else ch
    if ch ≠ 0 then kbdBufferPut k ch.toNat else k

/-- `keyboard_handler` on a byte of the keyboard. -/
def scan (scancode : UInt8) (k : Keyboard) : Keyboard :=
  if scancode &&& 0x80 ≠ 0 then
    let code := scancode &&& 0x7F
    if code = 0x2A ∨ code = 0x36 then { k with shiftPressed := false }
    else if code = 0x1D then { k with ctrlPressed := false }
    else k
  else if scancode = 0x2A ∨ scancode = 0x36 then { k with shiftPressed := true }
  else if scancode = 0x1D then { k with ctrlPressed := true }
  else if scancode = 0x3A then { k with capsLockActive := !k.capsLockActive }
  else translate scancode k

/-- `keyboard_handler`: the status register tells whose byte is in the data register. -/
def keyboardHandler (status data : UInt8) (k : Keyboard) (m : Mouse) : Keyboard × Mouse :=
  if status &&& 0x20 ≠ 0 then (k, mouseHandler data m) else (scan data k, m)

def Keyboard.boot : Keyboard := ⟨false, false, false, ⟨fun _ => 0, 0, 0⟩⟩

end SRos.Input
