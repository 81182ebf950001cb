import ChipEight.Proofs.Endings
import ChipEight.Proofs.Lemmas.Stack
import ChipEight.Proofs.Representation
import ChipEight.Service.Framework

/-!
# The numbers in a result

A run that starts at an address of 16 bits stays at such addresses, and it counts no more cycles than it may. So all
numbers in its result can be written, but for one: the address of a single value that could not be loaded.
-/

namespace ChipEight

open Effect
open Numeral (Writable writable_of_lt writable_of_small)

theorem Numeral.writable_of_count {n : Nat} (h : n ≤ 1000000) : Writable (n : Int) := by
  refine writable_of_lt ?_
  have hpow : Nat.pow 10 10 = 10000000000 := by decide
  omega

theorem Numeral.writable_of_byte (b : Byte) : Writable (b.toNat : Int) := by
  have hb := b.toNat_lt
  exact writable_of_small (by omega) (by omega)

/-! ## Reports -/

/-- The report is of one of so many cycles, and its address and its word are of 16 bits. -/
structure Report.Within (steps : Nat) (r : Report) : Prop where
  step : 0 ≤ r.step ∧ r.step ≤ steps
  addr : 0 ≤ r.addr ∧ r.addr < 65536
  word : ∀ word, r.word = some word → 0 ≤ word ∧ word < 65536

namespace Report.Within

variable {r : Report} {steps steps' : Nat}

theorem mono (h : r.Within steps) (hle : steps ≤ steps') : r.Within steps' where
  step := ⟨h.step.1, Int.le_trans h.step.2 (Int.ofNat_le.mpr hle)⟩
  addr := h.addr
  word := h.word

theorem writable (h : r.Within steps) (hsteps : steps ≤ 1000000) : ∀ n ∈ r.numbers, Writable n := by
  intro n hn
  rcases List.mem_cons.mp hn with rfl | hn
  · refine writable_of_lt ?_
    have hpow : Nat.pow 10 10 = 10000000000 := by decide
    have hstep := h.step
    omega
  · rcases List.mem_cons.mp hn with rfl | hn
    · exact writable_of_small h.addr.1 h.addr.2
    · obtain ⟨hlow, hhigh⟩ := h.word n (Option.mem_toList.mp hn)
      exact writable_of_small hlow hhigh

end Report.Within

/-! ## Machines -/

namespace Machine

variable {m m' : Machine}

/-- All addresses that the machine holds are of 16 bits, and its log is of the cycles that it has counted. -/
structure Terse (m : Machine) : Prop where
  processor : m.board.processor.InRange
  callers : ∀ caller ∈ m.stack, 0 ≤ caller ∧ caller < 65536
  reports : ∀ report ∈ m.log.reports, report.Within m.cycles

theorem within_incident (h : 0 ≤ m.pc ∧ m.pc < 65536) (fault : Fault) (i : Instruction) :
    (m.incident fault (some i)).report.Within (m.cycles + 1) where
  step := ⟨Int.natCast_nonneg _, Int.le_refl _⟩
  addr := h
  word word hword := by
    cases hword
    have hi := i.word.toNat_lt
    omega

theorem within_of_cycle_error {incident : Incident} (h : 0 ≤ m.pc ∧ m.pc < 65536)
    (hc : cycle m = .error incident m') : incident.report.Within (m.cycles + 1) := by
  cases Cycled.of_eq hc with
  | unfetched => exact ⟨⟨Int.natCast_nonneg _, Int.le_refl _⟩, h, nofun⟩
  | struck => exact within_incident h _ _

theorem reports_next (h : m.Terse) : ∀ report ∈ m.next.log.reports, report.Within (m.cycles + 1) := by
  have hold : ∀ report ∈ m.log.reports, report.Within (m.cycles + 1) :=
    fun report hr => (h.reports report hr).mono (Nat.le_succ _)
  rw [next]
  generalize hc : cycle m = r
  cases Cycled.of_eq hc with
  | unfetched | done | struck => exact hold
  | recovered =>
      intro report hr
      rcases Log.mem_reports_of_push hr with hr | rfl
      · exact hold report hr
      · exact within_incident h.processor.pc _ _

theorem terse_next (h : m.Terse) : m.next.Terse where
  processor := inRange_next h.processor
  callers caller hmem := by
    rcases mem_stack_next hmem with rfl | hmem
    · exact h.processor.pc
    · exact h.callers caller hmem
  reports := by
    rw [cycles_next]
    exact reports_next h

theorem terse_advance (h : m.Terse) (n : Nat) : (m.advance n).Terse := by
  induction n with
  | zero => exact h
  | succ n ih => rw [advance_succ']; exact terse_next ih

end Machine

/-! ## Results -/

namespace Run

theorem Result.report?_eq_some_iff {r : Result} {report : Report} :
    r.report? = some report ↔ r.fault = some (.reported report) := by
  rw [Result.report?]
  cases r.fault with
  | none => exact iff_of_false nofun nofun
  | some failure => cases failure <;> simp [Failure.report?]

variable {image : List Byte} {o : Options} {m : Machine}

theorem terse_of_load (hstart : 0 ≤ o.start ∧ o.start < 65536)
    (h : m.withoutMemory = (Machine.new o.toConfig).withoutMemory) : m.Terse := by
  have hprocessor : m.board.processor = .fresh o.start o.maxDepth := congrArg (fun m => m.board.processor) h
  have hlog : m.log = .empty := congrArg Machine.log h
  refine { processor := ?_, callers := ?_, reports := ?_ }
  · rw [hprocessor]
    exact ⟨mod_in_range 0, hstart⟩
  · rw [Machine.stack, hprocessor]
    nofun
  · rw [hlog]
    nofun

theorem writable_row {addr : Int} (haddr : 0 ≤ addr ∧ addr < 65536) (hm : m.Terse) (hcycles : m.cycles ≤ 1000000)
    (i : Instruction) : ∀ n ∈ (row o addr i m).numbers, Writable n := by
  have hword : (row o addr i m).instruction.word.toNat < 65536 := i.word.toNat_lt
  have hindex := hm.processor.index
  intro n hn
  rcases List.mem_append.mp hn with hn | hn
  · rcases List.mem_append.mp hn with hn | hn
    · simp only [List.mem_cons, List.not_mem_nil, or_false] at hn
      rcases hn with rfl | rfl | rfl | rfl
      · exact Numeral.writable_of_count hcycles
      · exact writable_of_small haddr.1 haddr.2
      · exact writable_of_small (by omega) (by omega)
      · exact writable_of_small hindex.1 hindex.2
    · simp only [row] at hn
      split at hn
      · obtain ⟨b, -, rfl⟩ := List.mem_map.mp hn
        exact Numeral.writable_of_byte b
      · cases hn
  · simp only [row] at hn
    split at hn
    · obtain ⟨hlow, hhigh⟩ := hm.callers n (List.mem_reverse.mp hn)
      exact writable_of_small hlow hhigh
    · cases hn

theorem lt_maxSteps_of_row {rows : List Row} {m' : Machine} {left k : Nat} {r : Result} {entry : Row}
    (hl : o.maxSteps.toNat = rows.length + left) (hend : Ending o m' (kept o rows) left r)
    (h : r.trace[k]? = some entry) : k < o.maxSteps.toNat := by
  have hkept : ∀ rows : List Row, (kept o rows).length ≤ rows.length := by
    intro rows
    rw [kept]
    split
    · exact Nat.le_refl _
    · exact Nat.zero_le _
  have hrows := hkept rows
  obtain ⟨hlt, -⟩ := List.getElem?_eq_some_iff.mp h
  cases hend with
  | limit | fault =>
      change k < (kept o rows).length at hlt
      omega
  | @halt m'' i _ _ =>
      have hlast := hkept [row o m'.pc i m'']
      rw [List.length_append] at hlt
      rw [List.length_singleton] at hlast
      omega

theorem report_of_loaded (hload : load image o (.new o.toConfig) = .ok () m) (hm : m.Terse) {report : Report}
    (h : (result image o).report? = some report) : report.Within (result image o).steps := by
  have hfault := Result.report?_eq_some_iff.mp h
  have hz := cycles_of_loaded hload
  rw [result_of_loaded hload] at hfault ⊢
  obtain ⟨k, incident, hk, hreport, hc⟩ := fault_of_loop hz hfault
  have hwithin := Machine.within_of_cycle_error (Machine.terse_advance hm k).processor.pc hc
  rw [Machine.cycles_advance, hz, Nat.zero_add, ← hk] at hwithin
  rw [Incident.failure_eq_reported hreport]
  exact hwithin

/-- The numbers of a result apart from those in the report of its fault. -/
theorem writable_parts {r : Result} (hfinal : r.final.Terse) (hsteps : r.steps ≤ 1000000)
    (htrace : ∀ entry ∈ r.trace, ∀ n ∈ entry.numbers, Writable n)
    (hfault : ∀ report, r.report? = some report → ∀ n ∈ report.numbers, Writable n) :
    ∀ n ∈ r.numbers, Writable n := by
  have hindex := hfinal.processor.index
  have hpc := hfinal.processor.pc
  intro n hn
  simp only [Result.numbers, List.mem_append, List.mem_cons, List.not_mem_nil, or_false, List.mem_map,
    List.mem_flatMap] at hn
  rcases hn with ((((rfl | rfl | rfl) | ⟨b, -, rfl⟩) | hn) | ⟨entry, hentry, hn⟩) | ⟨report, hreport | hreport, hn⟩
  · exact Numeral.writable_of_count hsteps
  · exact writable_of_small hindex.1 hindex.2
  · exact writable_of_small hpc.1 hpc.2
  · exact Numeral.writable_of_byte b
  · obtain ⟨hlow, hhigh⟩ := hfinal.callers n hn
    exact writable_of_small hlow hhigh
  · exact htrace entry hentry n hn
  · exact (hfinal.reports report hreport).writable hsteps n hn
  · exact hfault report (Option.mem_toList.mp hreport) n hn

theorem writable_of_loaded (hload : load image o (.new o.toConfig) = .ok () m)
    (hstart : 0 ≤ o.start ∧ o.start < 65536) (hmax : o.maxSteps ≤ 1000000) :
    ∀ n ∈ (result image o).numbers, Writable n := by
  have hkeeps := load_keeps image o (.new o.toConfig)
  rw [hload] at hkeeps
  have hm : m.Terse := terse_of_load hstart hkeeps
  have hz := cycles_of_loaded hload
  have hsteps := steps_le_of_loaded hload
  refine writable_parts ?final (by omega) ?trace ?fault
  case final =>
    rw [final_of_loaded hload]
    exact Machine.terse_advance hm _
  case trace =>
    intro entry hentry
    obtain ⟨k, hk⟩ := List.getElem?_of_mem hentry
    obtain ⟨rows, m', left, hon, hl, hend⟩ := divides_of_loaded hload
    have hlt := lt_maxSteps_of_row hl hend hk
    obtain ⟨i, -, rfl⟩ := row_of_ending hon hend hk
    have hcycles := Machine.cycles_advance (k + 1) m
    exact writable_row (Machine.terse_advance hm k).processor.pc (Machine.terse_advance hm (k + 1)) (by omega) i
  case fault =>
    intro report hreport
    exact (report_of_loaded hload hm hreport).writable (by omega)

end Run
end ChipEight
