import ChipEight.Fault

/-!
Replies: what a step on a part of the machine answers, and how it tells its faults.
-/
namespace ChipEight

inductive Reply
  | done
  | number (value : Int)
  | flag (on : Bool)
  | bytes (data : List Byte)
  | lines (rows : List String)
  | grid (rows : List (List Bool))
  | several (replies : List Reply)
  | instruction (instruction : Option Instruction)
  | target (addr : Option Int)
  | reports (reports : List Report)

/-- The same operation with its faults told. -/
def told {σ α : Type} (act : EStateM Fault σ α) : EStateM Failure σ α :=
  EStateM.adaptExcept Fault.failure act

end ChipEight
