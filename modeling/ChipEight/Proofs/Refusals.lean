import ChipEight.Proofs.Lemmas.Log
import ChipEight.Proofs.Lemmas.Telling

/-!
# What a cycle refuses

A cycle adds to the log if and only if the board refuses its instruction, which then has no effect. A call that is
refused for a limit that is too long to be written has no effect either, but is raised and not logged.
-/

namespace ChipEight.Machine

open Effect
open Numeral (Writable)

variable {m : Machine} {i : Instruction} {fault : Fault}

/-! ## The log tells of the past -/

/-- The log tells of cycles that have been counted. -/
def LogInPast (m : Machine) : Prop := ∀ report ∈ m.log.reports, report.step ≤ m.cycles

theorem logInPast_next (h : m.LogInPast) : m.next.LogInPast := by
  have hold : ∀ report ∈ m.log.reports, report.step ≤ (m.cycles + 1 : Nat) := by
    intro report hr
    have := h report hr
    omega
  rw [next]
  generalize hc : cycle m = r
  cases Cycled.of_eq hc with
  | unfetched | done | struck => exact hold
  | recovered =>
      intro report hr
      rcases Log.mem_reports_of_push hr with hr | rfl
      · exact hold report hr
      · exact Int.le_refl _

theorem Reachable.logInPast (h : m.Reachable) : m.LogInPast := by
  refine h.invariant (fun config report hr => absurd hr List.not_mem_nil) fun step m hm => ?_
  generalize hs : stateOf (step.perform m) = m'
  cases hs ▸ stepped step m with
  | cycle => exact logInPast_next hm
  | reset => exact fun report hr => absurd hr List.not_mem_nil
  | _ => exact hm

/-! ## Cycles that refuse and cycles that do not -/

theorem cycle_of_refuses (hf : m.board.memory.fetch m.pc = .ok i) (hr : m.board.Refuses i fault)
    (ht : fault.Tellable) :
    cycle m = .ok i (commit (m.pc + 2)
      { m with log := m.log.push (m.incident fault (some i)).report, last := some i }) :=
  cycle_of_recovered hf (Board.execute_of_refuses hr) hr.recoverable ht

theorem log_next_of_not_refuses (hf : m.board.memory.fetch m.pc = .ok i)
    (h : ∀ fault, m.board.Refuses i fault → ¬ fault.Tellable) : m.next.log = m.log := by
  rw [next]
  generalize hc : cycle m = r
  cases Cycled.of_eq hc with
  | unfetched | done | struck => rfl
  | recovered hf' he hr ht =>
      cases hf.symm.trans hf'
      exact absurd ht (h _ (Board.refuses_of_recoverable he hr))

/-- What the log says of an instruction that the next cycle refuses. -/
def refusal (m : Machine) (i : Instruction) (fault : Fault) : Report :=
  { kind := fault.kind, message := fault.message, step := m.next.cycles, addr := m.pc
    word := some i.word.toNat }

/-- How a cycle that refuses its instruction leaves the machine. On the board only the program counter has
moved. The log has one report more, and one less at its front if it was full. -/
structure Refused (m m' : Machine) (i : Instruction) (fault : Fault) : Prop where
  board : m'.board = { m.board with processor.pc := (m.pc + 2) % 65536 }
  cycles : m'.cycles = m.cycles + 1
  reports : m'.log.reports =
    (m.log.reports ++ [m.refusal i fault]).drop (m.log.reports.length + 1 - 256)

theorem refused_next (hf : m.board.memory.fetch m.pc = .ok i) (hr : m.board.Refuses i fault)
    (ht : fault.Tellable) : m.Refused m.next i fault := by
  have hreport : m.refusal i fault = (m.incident fault (some i)).report := by
    rw [refusal, cycles_next]
    rfl
  rw [next_of_ok (cycle_of_refuses hf hr ht)]
  refine { board := rfl, cycles := rfl, reports := ?_ }
  rw [hreport, Log.length_reports]
  exact Log.reports_push _ _

/-- A cycle adds to the log if and only if it refuses its instruction: one without an effect on this
machine, a return from no call, or a call that goes too deep. The instruction has no effect then, and
the cycle answers it as if it had been executed. A call is refused so only if the limit of the stack
can be written; else the cycle raises, and nothing is logged. -/
theorem cycle_logs_refusals_only (hm : m.Reachable) (hf : m.board.memory.fetch m.pc = .ok i) :
    (m.next.log.reports ≠ m.log.reports ↔ ∃ fault, m.board.Refuses i fault ∧ fault.Tellable) ∧
      ∀ fault, m.board.Refuses i fault →
        (fault.Tellable ↔ ∀ limit, fault = .fullStack limit → Writable limit) ∧
        (fault.Tellable →
          Step.perform .cycle m = .ok (.instruction (some i)) m.next ∧ m.Refused m.next i fault) ∧
        (¬ fault.Tellable →
          Step.perform .cycle m = .error .unwritable m.next ∧
            m.next = commit (m.pc + 2) { m with last := some i }) := by
  refine ⟨⟨fun h => ?_, ?_⟩, fun fault hr => ⟨hr.tellable_iff, fun ht => ⟨?_, refused_next hf hr ht⟩, fun ht => ?_⟩⟩
  · by_contra hnone
    have hnone' : ∀ fault, m.board.Refuses i fault → ¬ fault.Tellable := fun fault hr ht => hnone ⟨fault, hr, ht⟩
    exact h (congrArg Log.reports (log_next_of_not_refuses hf hnone'))
  · rintro ⟨fault, hr, ht⟩ heq
    -- the new report is of a cycle that no report of the past can be of
    rw [next_of_ok (cycle_of_refuses hf hr ht)] at heq
    have hnew := Log.mem_reports_push (m.incident fault (some i)).report m.log
    have hpast := hm.logInPast _ (heq ▸ hnew)
    exact absurd hpast (Int.not_le.mpr (Int.lt_succ _))
  · rw [perform_cycle, next_of_ok (cycle_of_refuses hf hr ht), cycle_of_refuses hf hr ht]
  · exact ⟨perform_cycle_of_untold hf hr ht, next_of_untold hf hr ht⟩

/-- A call that calls itself is refused the second time, if only one call may be open. -/
theorem second_call_is_logged :
    ∃ m : Machine, m.Reachable ∧ m.board.memory.fetch m.pc = .ok (.ofBytes 0x22 0x00) ∧
      m.board.Refuses (.ofBytes 0x22 0x00) (.fullStack 1) ∧ m.next.log.reports ≠ m.log.reports ∧
      m.Refused m.next (.ofBytes 0x22 0x00) (.fullStack 1) := by
  let config : Config := { memorySize := 0x202, maxDepth := some 1 }
  let m := (new config).after [.load [0x22, 0x00] 0x200, .cycle]
  have hm : m.Reachable := ⟨config, _, by decide, rfl⟩
  have hf : m.board.memory.fetch m.pc = .ok (.ofBytes 0x22 0x00) :=
    Memory.fetch_of_cells (by decide +kernel) (by decide +kernel) (by decide +kernel)
  have hr : m.board.Refuses (.ofBytes 0x22 0x00) (.fullStack 1) :=
    .fullStack (by decide) (by decide +kernel) (by decide +kernel)
  obtain ⟨hlogs, hrefused⟩ := cycle_logs_refusals_only hm hf
  obtain ⟨htellable, htold, -⟩ := hrefused _ hr
  have hone : Writable 1 := Numeral.writable_of_small (by decide) (by decide)
  have ht : (Fault.fullStack 1).Tellable := htellable.mpr fun _ heq => Fault.fullStack.inj heq ▸ hone
  exact ⟨m, hm, hf, hr, hlogs.mpr ⟨_, hr, ht⟩, (htold ht).2⟩

/-- A call is refused where the limit of the stack is below zero and too long to be written. The cycle does not
answer it, and nothing is logged. -/
theorem untold_refusal_is_not_logged :
    ∃ m : Machine, m.Reachable ∧ m.board.memory.fetch m.pc = .ok (.ofBytes 0x22 0x00) ∧
      m.board.Refuses (.ofBytes 0x22 0x00) (.fullStack Numeral.unwritable) ∧
      Step.perform .cycle m = .error .unwritable m.next ∧ m.next.log = m.log := by
  have hf := fetch_atUntoldCall
  have hr := refuses_atUntoldCall
  have ht := not_tellable_atUntoldCall
  exact ⟨_, reachable_atUntoldCall, hf, hr, perform_cycle_of_untold hf hr ht, log_next_of_untold hf hr ht⟩

end ChipEight.Machine
