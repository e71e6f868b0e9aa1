import Mathlib.Data.Nat.Bitwise

/-!
# The console font

The glyphs of `vgafont.h` for the characters 0x20 to 0x7F. A glyph is written as one number of
16 bytes, its first row in the highest byte; bit 7 of a row is its leftmost pixel.
-/

namespace SRos.Gui

def fontCharWidth : Nat := 8
def fontCharHeight : Nat := 16
def fontNumChars : Nat := 96
def fontFirstChar : Nat := 0x20

def fontGlyphs : List Nat := [
  0x00000000000000000000000000000000, 0x0000183C3C3C18181800181800000000,
  0x00666666240000000000000000000000, 0x0000006C6CFE6C6C6CFE6C6C00000000,
  0x18187CC6C2C07C060686C67C18180000, 0x00000000C2C60C183060C68600000000,
  0x0000386C6C3876DCCCCCCC7600000000, 0x00303030600000000000000000000000,
  0x00000C18303030303030180C00000000, 0x000030180C0C0C0C0C0C183000000000,
  0x000000001818DB3CDB18180000000000, 0x000000001818187E1818180000000000,
  0x00000000000000000000181818300000, 0x00000000000000FE0000000000000000,
  0x00000000000000000000181800000000, 0x0000000002060C183060C08000000000,
  0x00003C666E7E76666666663C00000000, 0x00001838181818181818187E00000000,
  0x00007CC6060C183060C0C6FE00000000, 0x00007CC606063C060606C67C00000000,
  0x00000C1C3C6CCCFE0C0C0C1E00000000, 0x0000FEC0C0C0FC060606C67C00000000,
  0x00003C60C0C0FCE6C6C6663C00000000, 0x0000FEC6060C18303030303000000000,
  0x00007CC6C6C67CC6C6C6C67C00000000, 0x00007CCEC6C6C67E0606067C00000000,
  0x00000000181800000000181800000000, 0x00000000181800000018181830000000,
  0x00000000061C70C0701C060000000000, 0x000000000000FE0000FE000000000000,
  0x00000000C0701C061C70C00000000000, 0x00007CC6C6060C181800181800000000,
  0x00007CC6C6DEDEDEDCC0C67C00000000, 0x0000183C6666C6FEC6C6C6C600000000,
  0x0000FCC6C6C6FCC6C6C6C6FC00000000, 0x00003C66C2C0C0C0C0C2663C00000000,
  0x0000F8CCC6C6C6C6C6C6CCF800000000, 0x0000FEC0C0C0F8C0C0C0C0FE00000000,
  0x0000FEC0C0C0F8C0C0C0C0C000000000, 0x00003C66C2C0C0DEC6C6663A00000000,
  0x0000C6C6C6C6FEC6C6C6C6C600000000, 0x00007E18181818181818187E00000000,
  0x00001E0C0C0C0C0C0CCCCC7800000000, 0x0000C6CCD8F0E0F0D8CCC6C600000000,
  0x0000C0C0C0C0C0C0C0C0C0FE00000000, 0x0000C6EEFED6D6C6C6C6C6C600000000,
  0x0000C6C6E6F6DECEC6C6C6C600000000, 0x00007CC6C6C6C6C6C6C6C67C00000000,
  0x0000FCC6C6C6FCC0C0C0C0C000000000, 0x00007CC6C6C6C6C6D6DECC7A00000000,
  0x0000FCC6C6C6FCD8CCC6C6C600000000, 0x00007CC6C6C07C0606C6C67C00000000,
  0x0000FF18181818181818181800000000, 0x0000C6C6C6C6C6C6C6C6C67C00000000,
  0x0000C6C6C6C6C6C6C6663C1800000000, 0x0000C6C6C6C6D6D6D6FEEEC600000000,
  0x0000C6C6663C18183C66C6C600000000, 0x0000E766663C18181818181800000000,
  0x0000FE860C183060C0C2C6FE00000000, 0x00003C30303030303030303C00000000,
  0x0000000080C06030180C060200000000, 0x00003C0C0C0C0C0C0C0C0C3C00000000,
  0x0010386CC60000000000000000000000, 0x00000000000000000000000000FF0000,
  0x0030180C000000000000000000000000, 0x00000000007C067EC6C6CE7600000000,
  0x0000C0C0C0FCE6C6C6C6E6DC00000000, 0x00000000007CC6C0C0C0C67C00000000,
  0x00000606067EE6C6C6C6E67600000000, 0x00000000007CC6FEC0C0C67C00000000,
  0x00001C36307830303030307800000000, 0x000000000076CEC6C6C67E06C67C0000,
  0x0000C0C0C0FCE6C6C6C6C6C600000000, 0x00001818007818181818187E00000000,
  0x00000C0C003C0C0C0C0C0CCCCC780000, 0x0000C0C0C0CCD8F0E0F0D8CC00000000,
  0x00007818181818181818187E00000000, 0x00000000006CFED6D6D6D6C600000000,
  0x0000000000DCE6C6C6C6C6C600000000, 0x00000000007CC6C6C6C6C67C00000000,
  0x0000000000DCE6C6C6C6FCC0C0C00000, 0x000000000076CEC6C6C67E0606060000,
  0x0000000000DCE6C0C0C0C0C000000000, 0x00000000007CC6701C06C67C00000000,
  0x0000303030FC30303030361C00000000, 0x0000000000C6C6C6C6C6CE7600000000,
  0x0000000000C6C6C6C6663C1800000000, 0x0000000000C6C6D6D6D6FE6C00000000,
  0x0000000000C66C38386CC6C600000000, 0x0000000000C6C6C6C6663C1830600000,
  0x0000000000FE0C183060C6FE00000000, 0x00000E18181870181818180E00000000,
  0x00001818181800181818181800000000, 0x0000701818180E181818187000000000,
  0x000076DC000000000000000000000000, 0x00000000000000000000000000000000]

/-- `font_vga8x16[idx][row]`. -/
def fontVga8x16 (idx row : Nat) : Nat :=
  (fontGlyphs.getD idx 0 >>> (8 * (fontCharHeight - 1 - row))) % 256

/-- The index of the glyph of a character; characters without one are shown as a blank. -/
def fontIndex (ch : Int) : Nat :=
  if ch < fontFirstChar ∨ ch ≥ fontFirstChar + fontNumChars then 0 else (ch - fontFirstChar).toNat

/-- `bits & (0x80 >> col)`. -/
def fontBit (bits col : Nat) : Bool := bits &&& (0x80 >>> col) != 0

end SRos.Gui
