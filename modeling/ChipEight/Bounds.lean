import ChipEight.Fault

/-!
Bounds on numbers. A size is a signed number of 64 bits, and a host has room for so much only.
-/
namespace ChipEight

/-- Whether a number fits in 64 bits, one of them for the sign. -/
def Bounds.Fits (n : Int) : Prop :=
  -Int.pow 2 63 ≤ n ∧ n < Int.pow 2 63

instance (n : Int) : Decidable (Bounds.Fits n) :=
  inferInstanceAs (Decidable (_ ∧ _))

/-- What a host has room for: memory of so many bytes, and a display of so many rows with so many
pixels each. There is room for the default sizes at least. -/
structure Room where
  bytes : (size : Nat) → Bool
  rows : (width height : Nat) → Bool
  bytes_default : bytes 4096 = true
  rows_default : rows 64 32 = true

/-- Room for 2 ^ 32 bytes, and for as many pixels, where a row counts as one more of them. -/
def Room.usual : Room where
  bytes size := size ≤ 0x100000000
  rows width height := height * (width + 1) ≤ 0x100000000
  bytes_default := by decide
  rows_default := by decide

end ChipEight
