/-!
Blank characters. `isSpace` is the Unicode property White_Space; `isBlank` adds the four information
separators U+001C to U+001F.
-/
namespace ChipEight.Blank

/-- The ranges of the property White_Space, in code-point order. -/
def spaces : List (Nat × Nat) :=
  [(0x0009, 0x000D), (0x0020, 0x0020), (0x0085, 0x0085), (0x00A0, 0x00A0), (0x1680, 0x1680),
   (0x2000, 0x200A), (0x2028, 0x2029), (0x202F, 0x202F), (0x205F, 0x205F), (0x3000, 0x3000)]

def isSpace (c : Char) : Bool :=
  spaces.any fun range => range.1 ≤ c.toNat && c.toNat ≤ range.2

def isBlank (c : Char) : Bool :=
  isSpace c || (0x001C ≤ c.toNat && c.toNat ≤ 0x001F)

/-- Drops the white space at both ends. -/
def trim (cs : List Char) : List Char :=
  ((cs.dropWhile isSpace).reverse.dropWhile isSpace).reverse

example : (spaces.map fun range => range.2 - range.1 + 1).sum = 25 := by decide

end ChipEight.Blank
