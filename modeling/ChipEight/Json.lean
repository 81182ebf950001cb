/-!
JSON values. The fields of an object keep their order. A number that is written with a fraction or
an exponent is real, also if its value is an integer. Real numbers that are infinite, of either
sign, and what is written for no number at all make one value: nothing tells them apart.
-/
namespace ChipEight

inductive Json
  | null
  | bool (value : Bool)
  | int (value : Int)
  | real (value : Rat)
  | nonfinite
  | str (value : String)
  | arr (items : List Json)
  | obj (fields : List (String × Json))

namespace Json

/-- The value of a field of an object. -/
def field? (name : String) : Json → Option Json
  | obj fields => fields.lookup name
  | _ => none

/-- Whether a value counts as true: everything but null, false, zero and what is empty. -/
def truthy : Json → Bool
  | null => false
  | bool value => value
  | int value => value != 0
  | real value => value != 0
  | nonfinite => true
  | str value => value != ""
  | arr items => !items.isEmpty
  | obj fields => !fields.isEmpty

end Json
end ChipEight
