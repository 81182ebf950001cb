import ChipEight.Json
import ChipEight.Table
import ChipEight.Text.Binary64
import ChipEight.Text.Numeral

/-!
Reading JSON text. Real numbers are rounded to binary64; of a field that comes twice the first place
and the last value count. Integers may have so many digits only, unless there is no limit. A text is not
read where a string in it has half of a surrogate pair without the other half.
-/
namespace ChipEight.Json.Reader

/-- Takes a value off the front of a text and gives the rest. -/
abbrev Taking (α : Type) :=
  List Char → Option (α × List Char)

def isWhite (c : Char) : Bool :=
  c = ' ' || c = '\t' || c = '\n' || c = '\r'

def skip (cs : List Char) : List Char :=
  cs.dropWhile isWhite

/-! ## Strings -/

/-- The number written with four hexadecimal digits. -/
def unit? (a b c d : Char) : Option Nat := do
  return 4096 * (← Hex.digit? a) + 256 * (← Hex.digit? b) + 16 * (← Hex.digit? c) + (← Hex.digit? d)

/-- The character that a letter after a backslash stands for. -/
def escaped? : Char → Option Char
  | '"' => some '"'
  | '\\' => some '\\'
  | '/' => some '/'
  | 'b' => some '\x08'
  | 'f' => some '\x0c'
  | 'n' => some '\n'
  | 'r' => some '\r'
  | 't' => some '\t'
  | _ => none

/-- The code units up to the closing quote; `read` holds those before, last first. -/
def units (read : List Nat) : Taking (List Nat)
  | '"' :: rest => some (read.reverse, rest)
  | '\\' :: 'u' :: a :: b :: c :: d :: rest => do
    let unit ← unit? a b c d
    units (unit :: read) rest
  | '\\' :: letter :: rest => do
    let c ← escaped? letter
    units (c.toNat :: read) rest
  | c :: rest => units (c.toNat :: read) rest
  | [] => none

def isHigh (unit : Nat) : Bool := 0xD800 ≤ unit && unit < 0xDC00
def isLow (unit : Nat) : Bool := 0xDC00 ≤ unit && unit < 0xE000

/-- Joins surrogate pairs; `high` is a first half that was just read. -/
def characters? : (high : Option Nat) → List Nat → Option (List Char)
  | none, [] => some []
  | some _, [] => none
  | none, unit :: rest =>
    if isHigh unit then characters? (some unit) rest
    else if isLow unit then none
    else (characters? none rest).map (Char.ofNat unit :: ·)
  | some high, unit :: rest =>
    if isLow unit then
      (characters? none rest).map
        (Char.ofNat (0x10000 + (high - 0xD800) * 0x400 + (unit - 0xDC00)) :: ·)
    else none

/-- A string whose opening quote was read. -/
def string : Taking String := fun cs => do
  let (read, rest) ← units [] cs
  return (String.ofList (← characters? none read), rest)

/-! ## Numbers -/

/-- One ASCII digit or more. -/
def digits : Taking (List Char) := fun cs =>
  match cs.span Char.isDigit with
  | ([], _) => none
  | (read, rest) => some (read, rest)

/-- The digits after a point, if there is a point. -/
def fraction : Taking (List Char)
  | '.' :: cs => digits cs
  | cs => some ([], cs)

/-- The exponent, if one is written. -/
def exponent : Taking (Option Int)
  | e :: cs =>
    if e = 'e' ∨ e = 'E' then
      match cs with
      | '-' :: cs => (digits cs).map fun read => (some (-(Numeral.natural read.1 : Int)), read.2)
      | '+' :: cs => (digits cs).map fun read => (some (Numeral.natural read.1 : Int), read.2)
      | cs => (digits cs).map fun read => (some (Numeral.natural read.1 : Int), read.2)
    else
      some (none, e :: cs)
  | [] => some (none, [])

/-- The value of an unsigned real number: its digits shifted by a power of ten. Where the number is
above 10 ^ 400 or below 10 ^ (-400), how far above or below does not matter. -/
def magnitude (whole fraction : List Char) (exponent : Int) : Rat :=
  let digits := whole ++ fraction
  let least : Int := -400 - digits.length
  let shift := max least (min 400 (exponent - fraction.length))
  let n := Numeral.natural digits
  if 0 ≤ shift then Binary64.nearest (n * Nat.pow 10 shift.toNat) 1
  else Binary64.nearest n (Nat.pow 10 (-shift).toNat)

variable (digitLimit : Option Nat)

/-- A number whose sign was read. -/
def unsigned (negative : Bool) : Taking Json := fun cs => do
  let (whole, rest) ← digits cs
  let (fraction, rest) ← fraction rest
  let (exponent, rest) ← exponent rest
  if fraction.isEmpty ∧ exponent.isNone then
    if digitLimit.any (· < whole.length) then
      none
    let n : Int := Numeral.natural whole
    return (.int (if negative then -n else n), rest)
  else
    let q := magnitude whole fraction (exponent.getD 0)
    if Binary64.limit ≤ q then return (.nonfinite, rest)
    else return (.real (if negative then -q else q), rest)

def number : Taking Json
  | '-' :: cs => unsigned digitLimit true cs
  | cs => unsigned digitLimit false cs

/-! ## Values -/

/-- The values that are written as words, with a sign before one of them. -/
def words : List (String × Json) :=
  [("null", .null), ("true", .bool true), ("false", .bool false),
   ("NaN", .nonfinite), ("Infinity", .nonfinite), ("-Infinity", .nonfinite)]

def word : Taking Json := fun cs =>
  words.findSome? fun entry => (entry.1.toList.isPrefixOf? cs).map fun rest => (entry.2, rest)

/-- A name in quotes and the colon after it. -/
def name : Taking String := fun cs =>
  match skip cs with
  | '"' :: cs => do
    let (name, rest) ← string cs
    match skip rest with
    | ':' :: rest => some (name, rest)
    | _ => none
  | _ => none

mutual

/-- One value, with as many nested readings as `fuel` allows. -/
def value : (fuel : Nat) → Taking Json
  | 0, _ => none
  | fuel + 1, cs =>
    match skip cs with
    | '"' :: rest => (string rest).map fun read => (.str read.1, read.2)
    | '[' :: rest =>
      match skip rest with
      | ']' :: rest => some (.arr [], rest)
      | rest => items fuel [] rest
    | '\x7b' :: rest =>
      match skip rest with
      | '\x7d' :: rest => some (.obj [], rest)
      | rest => fields fuel .empty rest
    | rest => word rest <|> number digitLimit rest

/-- The items of an array from the next one on; `read` holds those before, last first. -/
def items : (fuel : Nat) → List Json → Taking Json
  | 0, _, _ => none
  | fuel + 1, read, cs => do
    let (item, rest) ← value fuel cs
    match skip rest with
    | ',' :: rest => items fuel (item :: read) rest
    | ']' :: rest => some (.arr (item :: read).reverse, rest)
    | _ => none

/-- The fields of an object from the next one on, to be put to those before. -/
def fields : (fuel : Nat) → Table String Json → Taking Json
  | 0, _, _ => none
  | fuel + 1, read, cs => do
    let (name, rest) ← name cs
    let (item, rest) ← value fuel rest
    let read := read.put name item
    match skip rest with
    | ',' :: rest => fields fuel read rest
    | '\x7d' :: rest => some (.obj read.entries, rest)
    | _ => none

end

end Reader

/-- Reads a whole text. Every second nested reading takes a character, which bounds their number. -/
def parse? (text : String) (digitLimit : Option Nat := some Numeral.digitLimit) : Option Json :=
  let cs := text.toList
  match Reader.value digitLimit (2 * cs.length + 2) cs with
  | some (json, rest) => if (Reader.skip rest).isEmpty then some json else none
  | none => none

end ChipEight.Json
