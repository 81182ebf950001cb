import ChipEight.Instruction

/-!
Listings: the instructions of an image, each with its address.
-/
namespace ChipEight.Instruction

/-- Takes two bytes at a time, the high byte first; an odd last byte is left out. -/
def listing : List Byte → Int → List (Int × Instruction)
  | high :: low :: rest, origin => (origin, ofBytes high low) :: listing rest (origin + 2)
  | _, _ => []

end ChipEight.Instruction
