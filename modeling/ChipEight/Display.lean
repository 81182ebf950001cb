import ChipEight.Bounds

/-!
The display: rows of pixels, top to bottom, each on or off. Width and height may be any integers; a
negative one counts as zero. Pixels outside are refused, neither wrapped nor clipped.
-/
namespace ChipEight

structure Display where
  width : Int
  height : Int
  pixels : Vector (Vector Bool width.toNat) height.toNat

namespace Display

def defaultWidth : Int := 64
def defaultHeight : Int := 32

/-- A display with every pixel off. -/
def blank (width height : Int) : Display :=
  ⟨width, height, Vector.ofFn fun _ => Vector.replicate _ false⟩

/-- If there are rows, the width must fit, and there must be room for all rows. -/
def checkSize (room : Room) (width height : Int) : Except Failure Unit :=
  if height ≤ 0 then .ok ()
  else if ¬ Bounds.Fits width then .error .overflow
  else if room.rows width.toNat height.toNat then .ok ()
  else .error .noRoom

/-- A display of the size that is asked for, with every pixel off. -/
def build (width height : Int) (room : Room := .usual) : Except Failure Display := do
  checkSize room width height
  return blank width height

def Contains (d : Display) (x y : Int) : Prop :=
  (0 ≤ x ∧ x < d.width) ∧ (0 ≤ y ∧ y < d.height)

instance (d : Display) (x y : Int) : Decidable (d.Contains x y) :=
  inferInstanceAs (Decidable (_ ∧ _))

def clear (d : Display) : Display :=
  blank d.width d.height

def pixel (d : Display) (x y : Int) (h : d.Contains x y) : Bool :=
  have hx : x.toNat < d.width.toNat := by have := h.1; omega
  have hy : y.toNat < d.height.toNat := by have := h.2; omega
  d.pixels[y.toNat][x.toNat]

/-- The display with one pixel on or off. -/
def put (d : Display) (x y : Int) (on : Bool) (h : d.Contains x y) : Display :=
  have hx : x.toNat < d.width.toNat := by have := h.1; omega
  have hy : y.toNat < d.height.toNat := by have := h.2; omega
  { d with pixels := d.pixels.set y.toNat (d.pixels[y.toNat].set x.toNat on hx) hy }

/-- The refusal of a pixel, which names the size of the display. -/
def refusal (d : Display) (x y : Int) : Fault :=
  .outsideDisplay x y d.width d.height

def get (x y : Int) (d : Display) : Except Fault Bool :=
  if h : d.Contains x y then .ok (d.pixel x y h) else .error (d.refusal x y)

def set (x y : Int) (on : Bool) : EStateM Fault Display Unit := fun d =>
  if h : d.Contains x y then .ok () (d.put x y on h) else .error (d.refusal x y) d

/-! ## Views -/

/-- All rows, top to bottom. -/
def rows (d : Display) : List (List Bool) :=
  d.pixels.toList.map Vector.toList

/-- How many pixels are on. -/
def lit (d : Display) : Nat :=
  d.rows.flatten.count true

/-- The text of a row, with one string for a pixel that is on and another for one that is off. -/
def rowText (on off : String) (row : List Bool) : String :=
  String.join (row.map fun pixel => if pixel then on else off)

def render (d : Display) (on off : String) : List String :=
  d.rows.map (rowText on off)

/-- The marks of a pixel unless others are asked for. -/
def onMark : String := "#"
def offMark : String := "."

/-- The rows with a pixel that is on, each with its number. -/
def litRows (d : Display) : List (Nat × String) :=
  (d.rows.zipIdx.filter fun row => row.1.contains true).map fun row =>
    (row.2, rowText onMark offMark row.1)

end Display
end ChipEight
