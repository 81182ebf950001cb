import ChipEight.Fault

/-!
The log of a machine: reports of the faults it recovered from, oldest first. It holds the last 256 of
them.
-/
namespace ChipEight

/-- How many reports a log holds. -/
def logCapacity : Nat := 256

structure Log where
  entries : Array Report
  bounded : entries.size ≤ logCapacity

namespace Log

def empty : Log := ⟨#[], by decide⟩

/-- Adds a report at the end; a full log drops its oldest. -/
def push (report : Report) (log : Log) : Log :=
  match log with
  | ⟨entries, bounded⟩ =>
    if room : entries.size < logCapacity then
      ⟨entries.push report, by rw [Array.size_push]; omega⟩
    else
      have nonempty : 0 < entries.size := by
        have : 0 < logCapacity := by decide
        omega
      ⟨(entries.eraseIdx 0 nonempty).push report, by
        rw [Array.size_push, Array.size_eraseIdx]; omega⟩

def size (log : Log) : Nat :=
  log.entries.size

def reports (log : Log) : List Report :=
  log.entries.toList

end Log
end ChipEight
