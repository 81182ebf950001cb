import ChipEight.Instruction

/-!
The built-in font: sixteen glyphs for the hexadecimal digits, four pixels wide and five high.
-/
namespace ChipEight.Font

/-- Where the font stands in memory. -/
def start : Int := 0x50

/-- Bytes of a glyph, one for each of its rows. -/
def glyphSize : Int := 5

def bytes : List Byte :=
  [0xF0, 0x90, 0x90, 0x90, 0xF0,
   0x20, 0x60, 0x20, 0x20, 0x70,
   0xF0, 0x10, 0xF0, 0x80, 0xF0,
   0xF0, 0x10, 0xF0, 0x10, 0xF0,
   0x90, 0x90, 0xF0, 0x10, 0x10,
   0xF0, 0x80, 0xF0, 0x10, 0xF0,
   0xF0, 0x80, 0xF0, 0x90, 0xF0,
   0xF0, 0x10, 0x20, 0x40, 0x40,
   0xF0, 0x90, 0xF0, 0x90, 0xF0,
   0xF0, 0x90, 0xF0, 0x10, 0xF0,
   0xF0, 0x90, 0xF0, 0x90, 0x90,
   0xE0, 0x90, 0xE0, 0x90, 0xE0,
   0xF0, 0x80, 0x80, 0x80, 0xF0,
   0xE0, 0x90, 0x90, 0x90, 0xE0,
   0xF0, 0x80, 0xF0, 0x80, 0xF0,
   0xF0, 0x80, 0xF0, 0x80, 0x80]

/-- The address of the glyph for the low four bits of a value. -/
def glyphAddress (value : Int) : Int :=
  start + value % 16 * glyphSize

example : (bytes.length : Int) = 16 * glyphSize := by decide

end ChipEight.Font
