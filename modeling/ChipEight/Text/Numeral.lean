import ChipEight.Text.Blank
import ChipEight.Text.DecimalDigit
import ChipEight.Text.Hex

/-!
Written integers. `literal?` reads an integer in one of four bases, as addresses are written;
`decimal` reads a decimal integer, as numbers in a request are written; `text?` writes a decimal
integer.
-/
namespace ChipEight.Numeral

/-- The most digits with which a decimal number is read or written. -/
def digitLimit : Nat := 4300

/-- Whether a number has no more decimal digits than can be written. -/
def Writable (n : Int) : Prop :=
  n.natAbs < Nat.pow 10 digitLimit

instance (n : Int) : Decidable (Writable n) :=
  inferInstanceAs (Decidable (_ < _))

/-- The decimal text of a number, if it can be written. -/
def text? (n : Int) : Option String :=
  if Writable n then some (toString n) else none

/-- The number that ASCII decimal digits write. -/
def natural (digits : List Char) : Nat :=
  digits.foldl (fun n c => 10 * n + (c.toNat - '0'.toNat)) 0

/-! ## Literals -/

/-- The value of a digit in a base: a decimal digit of any script, or an ASCII letter above nine. -/
def digit? (base : Nat) (c : Char) : Option Nat :=
  (DecimalDigit.value? c <|> Hex.digit? c).filter (· < base)

/-- Reads on after a digit; a single underscore may stand between two digits. -/
def moreDigits? (base value : Nat) : List Char → Option Nat
  | [] => some value
  | '_' :: c :: rest => do
    let d ← digit? base c
    moreDigits? base (value * base + d) rest
  | c :: rest => do
    let d ← digit? base c
    moreDigits? base (value * base + d) rest

/-- One digit or more, with single underscores between them. -/
def digits? (base : Nat) : List Char → Option Nat
  | [] => none
  | c :: rest => do
    let d ← digit? base c
    moreDigits? base d rest

/-- The base that the letter after a leading zero names. -/
def base? : Char → Option Nat
  | 'x' | 'X' => some 16
  | 'o' | 'O' => some 8
  | 'b' | 'B' => some 2
  | _ => none

/-- A decimal number is not too long, and if it starts with zero it is zero. -/
def unmarked? (cs : List Char) : Option Nat := do
  if digitLimit < cs.countP (· ≠ '_') then
    none
  let n ← digits? 10 cs
  if cs.head?.bind (digit? 10) = some 0 ∧ n ≠ 0 then none else some n

/-- The digits after a mark, before which one underscore may stand. -/
def afterMark? (base : Nat) : List Char → Option Nat
  | '_' :: cs => digits? base cs
  | cs => digits? base cs

/-- A number without a sign: the mark of a base and its digits, or a decimal number. -/
def magnitude? : List Char → Option Nat
  | zero :: letter :: rest =>
    match digit? 10 zero, base? letter with
    | some 0, some base => afterMark? base rest
    | _, _ => unmarked? (zero :: letter :: rest)
  | cs => unmarked? cs

/-- A number with an optional sign before it. -/
def signed? (magnitude : List Char → Option Nat) : List Char → Option Int
  | '-' :: cs => (magnitude cs).map fun n => -(n : Int)
  | '+' :: cs => (magnitude cs).map fun n => (n : Int)
  | cs => (magnitude cs).map fun n => (n : Int)

/-- An integer literal: white space around it, a sign, and a number in base 2, 8, 10 or 16. -/
def literal? (text : String) : Option Int :=
  signed? magnitude? (Blank.trim text.toList)

/-! ## Decimal integers -/

/-- Why a text is not read as a decimal integer. -/
inductive Flaw
  | malformed
  | tooLong
  deriving DecidableEq, Repr

/-- Whether a text starts with more digits than are read, of which the first is not zero. -/
def overlongDigits (cs : List Char) : Bool :=
  let digits := cs.takeWhile Char.isDigit
  digits.head? != some '0' && digitLimit < digits.length

/-- Whether a text starts with too many digits, after a minus sign or without one. -/
def overlong : List Char → Bool
  | '-' :: cs => overlongDigits cs
  | cs => overlongDigits cs

/-- Drops zeros and underscores up to a minus sign or another digit. At the end or before a point
the last character dropped, which was `last` so far, stays. -/
def afterZeros? (last : Char) : List Char → Option (List Char)
  | [] => some [last]
  | c :: cs =>
    if c = '0' ∨ c = '_' then afterZeros? c cs
    else if c = '.' then some (last :: c :: cs)
    else if c = '-' ∨ c.isDigit then some (c :: cs)
    else none

/-- Drops leading zeros with the underscores among them. -/
def significant? : List Char → Option (List Char)
  | [] => none
  | c :: cs =>
    if c = '0' then afterZeros? c cs
    else if c = '-' ∨ c.isDigit then some (c :: cs)
    else none

/-- Drops a point and the zeros after it, of which there is one at least; any other point stays. -/
def dropFraction (cs : List Char) : List Char :=
  match cs.span (· ≠ '.') with
  | (whole, _ :: zero :: zeros) => if (zero :: zeros).all (· = '0') then whole else cs
  | _ => cs

/-- Whether two underscores stand side by side. -/
def doubled : List Char → Bool
  | '_' :: '_' :: _ => true
  | _ :: cs => doubled cs
  | [] => false

/-- Drops the underscores, if each of them stands alone and none at an end. -/
def dropUnderscores (cs : List Char) : List Char :=
  if cs.head? = some '_' ∨ cs.getLast? = some '_' ∨ doubled cs then cs else cs.filter (· ≠ '_')

/-- What is left of a number without leading zeros, a point with zeros, and underscores. -/
def clean? (cs : List Char) : Option (List Char) :=
  (significant? cs).map fun cs => dropUnderscores (dropFraction cs)

/-- ASCII digits, not too many, which start with zero only if that is all. -/
def plain? (cs : List Char) : Option Nat :=
  if cs.isEmpty || !cs.all Char.isDigit || digitLimit < cs.length then none
  else if cs.head? = some '0' ∧ cs ≠ ['0'] then none
  else some (natural cs)

/-- A sign and a number. A minus sign may also stand behind the leading zeros of a number, which
has no other minus sign then. -/
def integer? : List Char → Option Int
  | '-' :: cs => do
    let n ← plain? (← clean? cs)
    return -(n : Int)
  | '+' :: '-' :: _ => none
  | '+' :: cs => do signed? plain? (← clean? cs)
  | cs => do signed? plain? (← clean? cs)

example : integer? "-0__12.0".toList = some (-12) := by decide +kernel
example : integer? "0_-12".toList = some (-12) := by decide +kernel
example : integer? "0-012".toList = none := by decide +kernel
example : integer? "-_12".toList = none := by decide +kernel

/-- A decimal integer: white space around it, a sign, digits with single underscores among them, and
possibly a point with zeros. Leading zeros do not count. A text is too long only by the digits at
its very start; any other that holds too many is malformed. -/
def decimal (text : String) : Except Flaw Int :=
  let cs := text.toList
  if overlong cs then .error .tooLong
  else match integer? (Blank.trim cs) with
    | some n => .ok n
    | none => .error .malformed

end ChipEight.Numeral
