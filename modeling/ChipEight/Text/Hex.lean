/-!
Hexadecimal text: numbers written after the mark 0x, and bytes written as pairs of digits and read
back.
-/
namespace ChipEight.Hex

/-- A number after its sign and the mark 0x. Zeros stand before the digits until the whole text,
sign and mark included, has the given width. -/
def marked (width : Nat) (n : Int) : String :=
  let sign := if n < 0 then ['-'] else []
  let digits := Nat.toDigits 16 n.natAbs
  let zeros := List.replicate (width - (sign.length + 2 + digits.length)) '0'
  String.ofList (sign ++ '0' :: 'x' :: zeros ++ digits)

/-- One digit, upper-case. -/
def upperDigit (d : Fin 16) : Char :=
  (Nat.digitChar d).toUpper

/-- The two digits of a byte, lower-case. -/
def ofByte (b : UInt8) : List Char :=
  [Nat.digitChar (b.toNat / 16), Nat.digitChar (b.toNat % 16)]

def ofBytes (bs : List UInt8) : String :=
  String.ofList (bs.flatMap ofByte)

/-- The value of an ASCII hexadecimal digit in either case. -/
def digit? (c : Char) : Option Nat :=
  if '0' ≤ c ∧ c ≤ '9' then some (c.toNat - '0'.toNat)
  else if 'a' ≤ c ∧ c ≤ 'f' then some (c.toNat - 'a'.toNat + 10)
  else if 'A' ≤ c ∧ c ≤ 'F' then some (c.toNat - 'A'.toNat + 10)
  else none

/-- Reads pairs of digits; an odd number of them, or any other character, is refused. -/
def bytes? : List Char → Option (List UInt8)
  | [] => some []
  | [_] => none
  | high :: low :: rest => do
    let h ← digit? high
    let l ← digit? low
    let bs ← bytes? rest
    return UInt8.ofNat (16 * h + l) :: bs

end ChipEight.Hex
