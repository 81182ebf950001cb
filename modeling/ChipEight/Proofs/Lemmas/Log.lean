import ChipEight.Log

/-!
# What a log holds

Pushing appends; a log that was full has lost its oldest report then. So a log holds the last of all that
were ever pushed.
-/

namespace ChipEight.Log

theorem reports_push (report : Report) (log : Log) :
    (log.push report).reports = (log.reports ++ [report]).drop (log.size + 1 - logCapacity) := by
  obtain ⟨entries, bounded⟩ := log
  by_cases room : entries.size < logCapacity
  · have hdrop : entries.size + 1 - logCapacity = 0 := by omega
    simp [push, room, size, reports, hdrop]
  · have hdrop : entries.size + 1 - logCapacity = 1 := by omega
    have hne : entries.toList ≠ [] := by
      have hcap : 0 < logCapacity := by decide
      rw [← List.length_pos_iff, Array.length_toList]
      omega
    simp [push, room, size, reports, hdrop, List.tail_append_of_ne_nil hne]

@[simp] theorem length_reports (log : Log) : log.reports.length = log.size := by
  simp [reports, size]

theorem mem_reports_push (report : Report) (log : Log) : report ∈ (log.push report).reports := by
  have hcap : 0 < logCapacity := by decide
  have hdrop : log.size + 1 - logCapacity ≤ log.reports.length := by
    rw [length_reports]
    omega
  -- what is dropped is older
  rw [reports_push, List.drop_append_of_le_length hdrop]
  exact List.mem_append_right _ List.mem_cons_self

theorem mem_reports_of_push {report pushed : Report} {log : Log} (h : report ∈ (log.push pushed).reports) :
    report ∈ log.reports ∨ report = pushed := by
  rw [reports_push] at h
  simpa using List.mem_of_mem_drop h

/-- The log holds the last of these reports, and all of them as long as it has room. -/
def Holds (log : Log) (past : List Report) : Prop :=
  log.reports = past.drop (past.length - logCapacity)

theorem holds_empty : Log.empty.Holds [] := rfl

theorem Holds.push {log : Log} {past : List Report} (h : log.Holds past) (report : Report) :
    (log.push report).Holds (past ++ [report]) := by
  have hsize : log.size = past.length - (past.length - logCapacity) := by
    rw [← length_reports, h, List.length_drop]
  have hdrop : past.length - logCapacity + (log.size + 1 - logCapacity) =
      (past ++ [report]).length - logCapacity := by
    rw [List.length_append, List.length_singleton]
    omega
  rw [Holds, reports_push, h, ← List.drop_append_of_le_length (Nat.sub_le _ _), List.drop_drop, hdrop]

theorem Holds.sublist {log : Log} {past : List Report} (h : log.Holds past) :
    log.reports.Sublist past := by
  rw [h]
  exact List.drop_sublist _ _

end ChipEight.Log
