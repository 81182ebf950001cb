import ChipEight.Proofs.Sprites

/-!
# Digits are drawn as their glyphs

The glyphs of the font are four pixels wide, since the low halves of its bytes are zero. So a digit can be drawn
wherever its glyph is on the display, though a row of a sprite is eight pixels wide.
-/

namespace ChipEight

open Effect

namespace Font

/-- A row of the glyph for a digit. -/
def glyphRow (digit row : Nat) : Byte := bytes.getD (5 * digit + row) 0

/-- Whether a pixel of the glyph for a digit is on. -/
def glyphPixel (digit row column : Nat) : Bool := (glyphRow digit row).toNat.testBit (7 - column)

/-- The points of the glyph for a digit, with its upper left corner at a place. -/
def glyphPoints (digit x y : Nat) : Set Point :=
  {p | ∃ row column : Nat, row < 5 ∧ column < 4 ∧ glyphPixel digit row column = true ∧
    p = ((x + column : Int), (y + row : Int))}

/-- The low half of every row is zero. -/
theorem column_lt_of_glyphPixel : ∀ digit < 16, ∀ row < 5, ∀ column < 8,
    glyphPixel digit row column = true → column < 4 := by decide +kernel

theorem mem_glyphPoints {digit x y row column : Nat} (hrow : row < 5) (hcolumn : column < 4) :
    ((x + column : Int), (y + row : Int)) ∈ glyphPoints digit x y ↔ glyphPixel digit row column = true := by
  constructor
  · rintro ⟨row', column', -, -, hpixel, heq⟩
    obtain ⟨hx, hy⟩ := Prod.mk.injEq .. ▸ heq
    obtain rfl : column = column' := by omega
    obtain rfl : row = row' := by omega
    exact hpixel
  · intro hpixel
    exact ⟨row, column, hrow, hcolumn, hpixel, rfl⟩

end Font

/-- The font stands where it is loaded to. -/
def Memory.HoldsFont (m : Memory) : Prop :=
  160 ≤ m.size ∧ ∀ k < 80, m.cell (0x50 + (k : Nat)) = Font.bytes.getD k 0

theorem Memory.holdsFont_putAll {m : Memory} (hsize : 160 ≤ m.size) : (m.putAll Font.start Font.bytes).HoldsFont := by
  have hlength : Font.bytes.length = 80 := rfl
  have hcovers : m.Covers Font.start Font.bytes.length := ⟨by decide, by simp only [Font.start, hlength]; omega⟩
  refine ⟨by simpa using hsize, fun k hk => ?_⟩
  have hindex : (0x50 + (k : Int) - 0x50).toNat = k := by omega
  have hbyte : Memory.blockByte? Font.start Font.bytes (0x50 + k) = some (Font.bytes.getD k 0) := by
    rw [Memory.blockByte?, Font.start, if_pos (by omega), hindex]
    simp [hlength, hk]
  rw [Memory.cell_putAll hcovers (by omega), hbyte, Option.getD_some]

namespace Board

variable {i : Instruction} {b : Board} {digit : Nat}

/-- The board whose index is at the glyph for a digit. -/
def pointed (b : Board) (digit : Nat) : Board :=
  { b with processor := { b.processor with i := 0x50 + 5 * (digit : Int) } }

theorem execute_pointGlyph (hf : i.family = 0xF) (hn : i.nn = 0x29) (b : Board) :
    execute i b = .ok none (b.pointed ((b.processor.v.get i.x).toNat % 16)) := by
  have haddr : Font.glyphAddress (b.processor.v.get i.x).toNat % 65536 =
      0x50 + 5 * (((b.processor.v.get i.x).toNat % 16 : Nat) : Int) := by
    simp only [Font.glyphAddress, Font.start, Font.glyphSize]
    omega
  have htag : i.tag = .ldGlyph := Instruction.tag_of_form ⟨hf, hn⟩ nofun nofun
  rw [execute_ldGlyph htag, Processor.setI, haddr, pointed]

theorem cell_pointed (hfont : b.memory.HoldsFont) (hdigit : digit < 16) {row : Nat} (hrow : row < 5) :
    b.memory.cell ((b.pointed digit).processor.i + row) = Font.glyphRow digit row := by
  have haddr : (b.pointed digit).processor.i + row = 0x50 + ((5 * digit + row : Nat) : Int) := by
    simp only [pointed]
    omega
  rw [haddr, hfont.2 _ (by omega), Font.glyphRow]

/-- The sprite of five rows at the index of a glyph is the glyph. -/
theorem sprite_pointed (hn : i.n = 5) (hfont : b.memory.HoldsFont) (hdigit : digit < 16) :
    sprite i (b.pointed digit) =
      Font.glyphPoints digit (b.processor.v.get i.x).toNat (b.processor.v.get i.y).toNat := by
  have hrows : (i.n : Nat) = 5 := by rw [hn]; rfl
  ext p
  constructor
  · rintro ⟨row, column, hrow, hcolumn, hbit, rfl⟩
    rw [hrows] at hrow
    have hpixel : Font.glyphPixel digit row column = true := by
      rwa [Font.glyphPixel, ← cell_pointed hfont hdigit hrow]
    have hnarrow := Font.column_lt_of_glyphPixel digit hdigit row hrow column hcolumn hpixel
    exact ⟨row, column, hrow, hnarrow, hpixel, rfl⟩
  · rintro ⟨row, column, hrow, hcolumn, hpixel, rfl⟩
    rw [Font.glyphPixel, ← cell_pointed hfont hdigit hrow] at hpixel
    exact ⟨row, column, hrows ▸ hrow, by omega, hpixel, rfl⟩

theorem execute_draw_of_allowed (hi : 0 ≤ b.processor.i) (hd : i.family = 0xD)
    (hrows : b.processor.i + i.n ≤ b.memory.size) (hpoints : ∀ p ∈ sprite i b, b.display.Contains p.1 p.2) :
    ∃ b', execute i b = .ok none b' ∧ Drawn (sprite i b) b b' := by
  have hallowed := (allowed_scan_iff hi).mpr ⟨Or.inr hrows, hpoints⟩
  obtain ⟨b', hexecute, hdone⟩ := (execute_draw_halts hd).completes (forall_bind_eq_none_iff.mpr hallowed)
  have hdrawn := drawn_take i b (scan i b).length
  rw [← hdone, List.take_length, points_of_scan] at hdrawn
  exact ⟨b', hexecute, hdrawn⟩

/-- The glyph for a digit was drawn with its upper left corner at a place: the index is at the glyph, and the pixels
at its points were flipped and no others. Where all was off in its box, the box shows the glyph. -/
structure DrawnDigit (digit x y : Nat) (b b' : Board) : Prop where
  index : b'.processor.i = 0x50 + 5 * (digit : Int)
  extent : b'.display.extent = b.display.extent
  flipped : ∀ p, b.display.Contains p.1 p.2 →
    (b'.display.isOn p ≠ b.display.isOn p ↔ p ∈ Font.glyphPoints digit x y)
  shown : (∀ row column : Nat, row < 5 → column < 4 → b.display.isOn (x + column, y + row) = false) →
    (∀ row column : Nat, row < 5 → column < 4 →
      b'.display.isOn (x + column, y + row) = Font.glyphPixel digit row column) ∧ b'.processor.flag = 0

theorem drawnDigit_of_drawn {x y : Nat} {b' : Board} (hx : x + 4 ≤ b.display.width) (hy : y + 5 ≤ b.display.height)
    (h : Drawn (Font.glyphPoints digit x y) (b.pointed digit) b') : DrawnDigit digit x y b b' where
  index := by simpa [Processor.setV, pointed] using congrArg (fun b => b.processor.i) h.rest
  extent := h.extent
  flipped := h.pixel
  shown := by
    intro hoff
    constructor
    · intro row column hrow hcolumn
      have hcontains : b.display.Contains (x + column) (y + row) := by
        simp only [Display.Contains]
        omega
      have hpixel := h.pixel (x + column, y + row) hcontains
      have hbefore : (b.pointed digit).display.isOn (x + column, y + row) = false := hoff row column hrow hcolumn
      rw [hbefore, Font.mem_glyphPoints hrow hcolumn] at hpixel
      simpa using hpixel
    · apply h.lowered
      rintro ⟨p, ⟨row, column, hrow, hcolumn, -, rfl⟩, hon⟩
      simp [pointed, hoff row column hrow hcolumn] at hon

/-- A register is drawn as the glyph for its low digit: the index is set to the glyph, and five rows are drawn there.
This succeeds wherever the four columns of the glyph are on the display. -/
theorem digit_is_drawn_as_its_glyph {point draw : Instruction} (hpf : point.family = 0xF) (hpn : point.nn = 0x29)
    (hdf : draw.family = 0xD) (hdn : draw.n = 5) (hfont : b.memory.HoldsFont)
    (hx : (b.processor.v.get draw.x).toNat + 4 ≤ b.display.width)
    (hy : (b.processor.v.get draw.y).toNat + 5 ≤ b.display.height) :
    ∃ b₁ b₂, execute point b = .ok none b₁ ∧ execute draw b₁ = .ok none b₂ ∧
      DrawnDigit ((b.processor.v.get point.x).toNat % 16) (b.processor.v.get draw.x).toNat
        (b.processor.v.get draw.y).toNat b b₂ := by
  have hdigit : (b.processor.v.get point.x).toNat % 16 < 16 := Nat.mod_lt _ (by decide)
  generalize hd : (b.processor.v.get point.x).toNat % 16 = digit at hdigit
  have hpoint := execute_pointGlyph hpf hpn b
  rw [hd] at hpoint
  have hsprite := sprite_pointed hdn hfont hdigit
  have hrows : (b.pointed digit).processor.i + draw.n ≤ b.memory.size := by
    have hsize := hfont.1
    simp only [pointed, hdn]
    show (0x50 : Int) + 5 * digit + 5 ≤ b.memory.size
    omega
  obtain ⟨b₂, hdraw, hdrawn⟩ := execute_draw_of_allowed (b := b.pointed digit) (i := draw)
    (by simp only [pointed]; omega) hdf hrows (by
      rw [hsprite]
      rintro p ⟨row, column, hrow, hcolumn, -, rfl⟩
      simp only [pointed, Display.Contains]
      omega)
  rw [hsprite] at hdrawn
  exact ⟨_, b₂, hpoint, hdraw, drawnDigit_of_drawn hx hy hdrawn⟩

/-- The digit A up to the right and the lower edge. The flag register holds the column to begin with. -/
theorem digit_is_drawn_at_edges :
    ∃ (point draw : Instruction) (b b₁ b₂ : Board), point.family = 0xF ∧ point.nn = 0x29 ∧ draw.family = 0xD ∧
      draw.n = 5 ∧ b.memory.HoldsFont ∧ (b.processor.v.get draw.x).toNat + 4 = b.display.width ∧
      (b.processor.v.get draw.y).toNat + 5 = b.display.height ∧ execute point b = .ok none b₁ ∧
      execute draw b₁ = .ok none b₂ ∧ DrawnDigit 0xA 4 1 b b₂ ∧ b₂.processor.i = 0x82 ∧
      b₂.display.isOn (7, 4) = true ∧ b₂.display.isOn (5, 4) = false ∧ b₂.processor.flag = 0 := by
  let point : Instruction := .ofInt 0xF029
  let draw : Instruction := .ofInt 0xDF15
  let b : Board :=
    { processor := (((Processor.fresh 0x200 none).setV 0 0x3A).setV 15 4).setV 1 1
      memory := (Memory.zeroed 160).putAll Font.start Font.bytes
      display := Display.blank 8 6 }
  have hfont : b.memory.HoldsFont := Memory.holdsFont_putAll (by simp)
  have hoff : ∀ row column : Nat, row < 5 → column < 4 → b.display.isOn (4 + column, 1 + row) = false :=
    fun row column _ _ => Display.isOn_clear b.display _
  have hpf : point.family = 0xF ∧ point.nn = 0x29 := by decide
  have hdf : draw.family = 0xD ∧ draw.n = 5 := by decide
  have hx : (b.processor.v.get draw.x).toNat = 4 := by decide
  have hy : (b.processor.v.get draw.y).toNat = 1 := by decide
  have hdigit : (b.processor.v.get point.x).toNat % 16 = 0xA := by decide
  have hwidth : ((b.processor.v.get draw.x).toNat : Int) + 4 = b.display.width := by decide
  have hheight : ((b.processor.v.get draw.y).toNat : Int) + 5 = 6 := by decide
  obtain ⟨b₁, b₂, hpoint, hdraw, hdrawn⟩ := digit_is_drawn_as_its_glyph hpf.1 hpf.2 hdf.1 hdf.2 hfont
    (Int.le_of_eq hwidth) (Int.le_of_eq hheight)
  rw [hx, hy, hdigit] at hdrawn
  obtain ⟨hshown, hflag⟩ := hdrawn.shown hoff
  exact ⟨point, draw, b, b₁, b₂, hpf.1, hpf.2, hdf.1, hdf.2, hfont, hwidth, hheight, hpoint, hdraw, hdrawn,
    hdrawn.index, hshown 3 3 (by decide) (by decide), hshown 3 1 (by decide) (by decide), hflag⟩

end Board
end ChipEight
