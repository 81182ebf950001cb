import ChipEight.Bounds
import ChipEight.Json
import ChipEight.Text.Numeral

/-!
Checking requests. A check goes on after an issue, so that all issues of a request are found at
once.
-/
namespace ChipEight.Service

/-- What can be wrong with a value. -/
inductive Complaint
  | missing
  | notObject
  | notTable
  | notString
  | notInteger
  | unreadableInteger
  | oversizedInteger
  | fractionalInteger
  | nonfiniteInteger
  | notBoolean
  | unreadableBoolean
  | tooSmall
  | tooLarge
  deriving DecidableEq, Repr

def Complaint.name : Complaint → String
  | missing => "missing"
  | notObject => "model_attributes_type"
  | notTable => "dict_type"
  | notString => "string_type"
  | notInteger => "int_type"
  | unreadableInteger => "int_parsing"
  | oversizedInteger => "int_parsing_size"
  | fractionalInteger => "int_from_float"
  | nonfiniteInteger => "finite_number"
  | notBoolean => "bool_type"
  | unreadableBoolean => "bool_parsing"
  | tooSmall => "greater_than_equal"
  | tooLarge => "less_than_equal"

/-- A complaint, the path to what it is about, and the value there. Of a missing field the value is
that of the object that lacks it. -/
structure Issue where
  place : List String
  complaint : Complaint
  value : Json

/-- How the names of hidden fields start. A hidden field is read, but a value is told without it. -/
def hiddenStart : String := "_sa"

def hidden (name : String) : Bool :=
  hiddenStart.toList.isPrefixOf name.toList

mutual

/-- Whether a value can be told: every number in it is finite, hidden fields apart. -/
def tellable : Json → Bool
  | .nonfinite => false
  | .arr items => tellableItems items
  | .obj fields => tellableFields fields
  | _ => true

def tellableItems : List Json → Bool
  | [] => true
  | item :: rest => tellable item && tellableItems rest

def tellableFields : List (String × Json) → Bool
  | [] => true
  | (name, value) :: rest => (hidden name || tellable value) && tellableFields rest

end

/-- A value with the issues that were met on the way to it. It counts only if there are none. -/
structure Checked (α : Type) where
  value : α
  issues : List Issue

namespace Checked

variable {α β : Type}

instance : Monad Checked where
  pure a := ⟨a, []⟩
  bind c f := ⟨(f c.value).value, c.issues ++ (f c.value).issues⟩

instance : LawfulMonad Checked :=
  LawfulMonad.mk' _
    (fun c => by simp [Functor.map])
    (fun a f => by simp [bind, pure])
    (fun c f g => by simp [bind, List.append_assoc])

/-- A stand-in for a value with an issue. -/
def amiss (standIn : α) (place : List String) (complaint : Complaint) (json : Json) : Checked α :=
  ⟨standIn, [⟨place, complaint, json⟩]⟩

/-- Checks a value. -/
def check (standIn : α) (place : List String) (rule : Json → Except Complaint α) (json : Json) :
    Checked α :=
  match rule json with
  | .ok a => pure a
  | .error complaint => amiss standIn place complaint json

def result (c : Checked α) : Except (List Issue) α :=
  if c.issues.isEmpty then .ok c.value else .error c.issues

end Checked

/-! ## Single values -/

/-- The integer that a real number is. It must be of less than 2 ^ 63 in magnitude. -/
def whole (value : Rat) : Except Complaint Int :=
  if value.den ≠ 1 then .error .fractionalInteger
  else if value.num.natAbs < Nat.pow 2 63 then .ok value.num
  else .error .oversizedInteger

/-- Numbers without a fraction, booleans as 1 and 0, and strings that hold a decimal integer. -/
def integer : Json → Except Complaint Int
  | .int value => .ok value
  | .real value => whole value
  | .nonfinite => .error .nonfiniteInteger
  | .bool value => .ok (if value then 1 else 0)
  | .str text =>
    match Numeral.decimal text with
    | .ok n => .ok n
    | .error .malformed => .error .unreadableInteger
    | .error .tooLong => .error .oversizedInteger
  | _ => .error .notInteger

def integerWithin (low high : Int) (json : Json) : Except Complaint Int := do
  let n ← integer json
  if n < low then
    throw .tooSmall
  if high < n then
    throw .tooLarge
  return n

/-- An integer within bounds, or null for none. -/
def optionalWithin (low high : Int) : Json → Except Complaint (Option Int)
  | .null => .ok none
  | json => some <$> integerWithin low high json

def trueWords : List String := ["1", "on", "t", "true", "y", "yes"]
def falseWords : List String := ["0", "off", "f", "false", "n", "no"]

/-- The boolean that a number stands for. -/
def ofNumber (n : Int) : Except Complaint Bool :=
  if n = 0 then .ok false
  else if n = 1 then .ok true
  else .error .unreadableBoolean

/-- Booleans, the numbers 1 and 0, and the words for them in either case. A number of more than 64
bits, or with a fraction, is none that could be meant. -/
def boolean : Json → Except Complaint Bool
  | .bool value => .ok value
  | .int value => if Bounds.Fits value then ofNumber value else .error .notBoolean
  | .real value =>
    match whole value with
    | .ok n => ofNumber n
    | .error _ => .error .notBoolean
  | .str text =>
    let word := text.map Char.toLower
    if trueWords.contains word then .ok true
    else if falseWords.contains word then .ok false
    else .error .unreadableBoolean
  | _ => .error .notBoolean

def string : Json → Except Complaint String
  | .str text => .ok text
  | _ => .error .notString

/-! ## Fields -/

variable {α : Type}

/-- A field that may be left out. -/
def optional (place : List String) (json : Json) (name : String) (default : α)
    (rule : Json → Except Complaint α) : Checked α :=
  match json.field? name with
  | some value => .check default (place ++ [name]) rule value
  | none => pure default

/-- A field that must be there; `standIn` takes its place in the value of a request with issues. -/
def required (place : List String) (json : Json) (name : String) (standIn : α)
    (rule : Json → Except Complaint α) : Checked α :=
  match json.field? name with
  | some value => .check standIn (place ++ [name]) rule value
  | none => .amiss standIn (place ++ [name]) .missing json

/-- An object whose values are all integers. -/
def integerTable (place : List String) : Json → Checked (List (String × Int))
  | .obj fields => fields.mapM fun field => do
    let n ← Checked.check 0 (place ++ [field.1]) integer field.2
    return (field.1, n)
  | json => .amiss [] place .notTable json

end ChipEight.Service
