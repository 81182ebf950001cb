import ChipEight.Instruction.Listing
import ChipEight.Service.Request

/-!
The framework that the service stands on: it reads requests from JSON and writes answers as JSON. Both
can fail, and neither is the service's own, so a framework is a parameter of it.
-/
namespace ChipEight

/-! ## The numbers that an answer holds -/

/-- The numbers in a report. -/
def Report.numbers (r : Report) : List Int :=
  r.step :: r.addr :: r.word.toList

namespace Run

def Row.numbers (row : Row) : List Int :=
  [(row.step : Int), row.addr, row.instruction.word.toNat, row.index] ++
    (row.registers.elim [] fun v => v.toList.map fun b => (b.toNat : Int)) ++ row.stack.getD []

namespace Result

/-- The report of the fault that ended a run. -/
def report? (r : Result) : Option Report :=
  r.fault.bind Failure.report?

def numbers (r : Result) : List Int :=
  let processor := r.final.board.processor
  [(r.steps : Int), processor.i, processor.pc] ++ (processor.v.toList.map fun b => (b.toNat : Int)) ++
    processor.stack ++ r.trace.flatMap Row.numbers ++
    (r.final.log.reports ++ r.report?.toList).flatMap Report.numbers

end Result
end Run

namespace Service

/-! ## Answers -/

/-- What the service comes to. A request that does not pass is `invalid`. -/
inductive Answer
  | ran (result : Run.Result)
  | listed (listing : List (Int × Instruction))
  | refused (refusal : Refusal)
  | invalid (issues : List Issue)

/-- An answer of the service with the status it was given. -/
structure Response where
  status : Nat
  answer : Answer

/-- Whether an answer can be written as JSON. No integer may be too long. The issues of a request are
told with the values they are about, and those must be tellable. -/
def Answer.Writable : Answer → Prop
  | ran result => ∀ n ∈ result.numbers, Numeral.Writable n
  | listed listing => ∀ line ∈ listing, Numeral.Writable line.1
  | refused _ => True
  | invalid issues => ∀ issue ∈ issues, tellable issue.value

instance : DecidablePred Answer.Writable
  | .ran result => inferInstanceAs (Decidable (∀ n ∈ result.numbers, Numeral.Writable n))
  | .listed listing => inferInstanceAs (Decidable (∀ line ∈ listing, Numeral.Writable line.1))
  | .refused _ => inferInstanceAs (Decidable True)
  | .invalid issues => inferInstanceAs (Decidable (∀ issue ∈ issues, tellable issue.value = true))

/-- A framework reads the bodies of requests, or finds issues in them, and renders answers. -/
structure Framework where
  readRun : Json → Except (List Issue) RunRequest
  readList : Json → Except (List Issue) ListRequest
  render : Answer → Except Failure Response

end Service
end ChipEight
