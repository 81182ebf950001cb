import ChipEight.Proofs.Lemmas.Log
import ChipEight.Proofs.Lemmas.Loop
import ChipEight.Proofs.Lemmas.Sizes
import ChipEight.Proofs.Lemmas.Step

/-!
# What the log keeps

The log is the end of the history of recoveries: of the cycles since the last reset in which an instruction
had a recoverable fault.
-/

namespace ChipEight.Machine

open Effect

/-- What is to be noted of the next cycle, which is cycle `n`, if it recovers from a fault. -/
def recovery? (n : Nat) (m : Machine) : Option Report :=
  match m.board.memory.fetch m.pc with
  | .error _ => none
  | .ok i =>
    match Board.execute i m.board with
    | .ok _ _ => none
    | .error fault _ =>
      if fault.recoverable ∧ fault.Tellable then
        some { kind := fault.kind, message := fault.message, step := n, addr := m.pc
               word := some i.word.toNat }
      else none

variable {m : Machine} {report : Report}

theorem log_next_of_no_recovery {n : Nat} (h : m.recovery? n = none) : m.next.log = m.log := by
  rw [next]
  generalize hc : cycle m = r
  cases Cycled.of_eq hc with
  | unfetched | done | struck => rfl
  | recovered hf he hr ht => simp [recovery?, hf, he, hr, ht] at h

theorem cycle_of_recovery (h : m.recovery? (m.cycles + 1) = some report) :
    ∃ i fault, cycle m = .ok i m.next ∧ report = (m.incident fault (some i)).report ∧
      m.next.log = m.log.push (m.incident fault (some i)).report := by
  rw [next]
  generalize hc : cycle m = r
  cases Cycled.of_eq hc with
  | unfetched hm => simp [recovery?, Memory.fetch_of_not_covers hm] at h
  | done hf he => simp [recovery?, hf, he] at h
  | struck hf he hs => simp [recovery?, hf, he, not_and.mpr hs] at h
  | @recovered i fault board hf he hr ht =>
      simp only [recovery?, hf, he, hr, ht, and_self, if_true, Option.some.injEq] at h
      exact ⟨i, fault, rfl, h.symm, rfl⟩

theorem log_of_cycle_error {m' : Machine} {incident : Incident} (h : cycle m = .error incident m') :
    m'.log = m.log := by
  cases Cycled.of_eq h <;> rfl

theorem log_perform {step : Step} (hc : step ≠ .cycle) (hr : step ≠ .reset) :
    (stateOf (step.perform m)).log = m.log := by
  generalize hs : stateOf (step.perform m) = m'
  cases hs ▸ stepped step m with
  | cycle => exact absurd rfl hc
  | reset => exact absurd rfl hr
  | _ => rfl

/-! ## The history of a machine -/

/-- What was done since the last reset: how many cycles, and what they recovered from, oldest first. -/
structure History where
  cycles : Nat
  recoveries : List Report

namespace History

def opening : History := ⟨0, []⟩

/-- The history with a step that the machine is about to take. -/
def note (m : Machine) (history : History) : Step → History
  | .cycle =>
    { cycles := history.cycles + 1
      recoveries := history.recoveries ++ (m.recovery? (history.cycles + 1)).toList }
  | .reset => opening
  | _ => history

/-- The history of the steps that a machine takes. -/
def since (m : Machine) (steps : List Step) : History := noteAll note steps m opening

end History

/-- The log of a machine holds the end of its history, in which every cycle comes once. -/
structure Remembers (history : History) (m : Machine) : Prop where
  cycles : m.cycles = history.cycles
  log : m.log.Holds history.recoveries
  increasing : history.recoveries.Pairwise fun earlier later => earlier.step < later.step
  counted : ∀ report ∈ history.recoveries, report.step ≤ m.cycles

namespace Remembers

variable {history : History} {m' : Machine}

theorem opening (hc : m.cycles = 0) (hl : m.log = .empty) : Remembers .opening m where
  cycles := hc
  log := by rw [hl]; exact Log.holds_empty
  increasing := .nil
  counted := by nofun

theorem kept (h : Remembers history m) (hc : m'.cycles = m.cycles) (hl : m'.log = m.log) :
    Remembers history m' where
  cycles := by rw [hc]; exact h.cycles
  log := by rw [hl]; exact h.log
  increasing := h.increasing
  counted := by rw [hc]; exact h.counted

theorem next (h : Remembers history m) : Remembers (history.note m .cycle) m.next := by
  have hcycles := cycles_next m
  have hold : ∀ report ∈ history.recoveries, report.step ≤ m.next.cycles := by
    intro report hr
    have hcounted := h.counted report hr
    omega
  rw [History.note, ← h.cycles]
  cases hr : m.recovery? (m.cycles + 1) with
  | none =>
      rw [Option.toList_none, List.append_nil]
      refine { cycles := hcycles, log := ?_, increasing := h.increasing, counted := hold }
      rw [log_next_of_no_recovery hr]
      exact h.log
  | some report =>
      obtain ⟨i, fault, -, rfl, hlog⟩ := cycle_of_recovery hr
      have hstep : (m.incident fault (some i)).report.step = m.next.cycles := by rw [hcycles]; rfl
      refine { cycles := hcycles, log := ?log, increasing := ?increasing, counted := ?counted }
      case log => rw [hlog]; exact h.log.push _
      case increasing =>
        -- what came before was counted before this cycle was
        refine List.pairwise_append.mpr ⟨h.increasing, List.pairwise_singleton _ _, ?_⟩
        intro earlier he later hl
        rw [Option.toList_some, List.mem_singleton] at hl
        have hearlier := h.counted earlier he
        rw [hl, hstep]
        omega
      case counted =>
        intro report hr
        rcases List.mem_append.mp hr with hr | hr
        · exact hold report hr
        · rw [Option.toList_some, List.mem_singleton] at hr
          rw [hr]
          exact Int.le_of_eq hstep

theorem perform (h : Remembers history m) (step : Step) :
    Remembers (history.note m step) (stateOf (step.perform m)) := by
  generalize hs : stateOf (step.perform m) = m'
  cases hs ▸ stepped step m with
  | cycle => exact h.next
  | reset => exact opening rfl rfl
  | _ => exact h.kept rfl rfl

end Remembers

/-- What the log of a machine with such a history has to tell. -/
structure Chronicled (history : History) (m : Machine) : Prop where
  cycles : m.cycles = history.cycles
  latest : m.log.reports = history.recoveries.drop (history.recoveries.length - 256)
  increasing : m.log.reports.Pairwise fun earlier later => earlier.step < later.step
  counted : ∀ report ∈ m.log.reports, report.step ≤ m.cycles
  raised : ∀ incident m', cycle m = .error incident m' → m'.log = m.log
  kept : ∀ step : Step, step ≠ .cycle → step ≠ .reset → (stateOf (step.perform m)).log = m.log

theorem Remembers.chronicled {history : History} (h : Remembers history m) : Chronicled history m where
  cycles := h.cycles
  latest := h.log
  increasing := h.increasing.sublist h.log.sublist
  counted report hr := h.counted report (h.log.sublist.subset hr)
  raised _ _ := log_of_cycle_error
  kept _ := log_perform

/-! ## The log of a run -/

theorem mem_reports_advance (hl : m.log = .empty) {n : Nat}
    (h : report ∈ (m.advance n).log.reports) :
    ∃ k < n, (m.advance k).recovery? ((m.advance k).cycles + 1) = some report := by
  induction n with
  | zero => rw [advance, Function.iterate_zero_apply, hl] at h; cases h
  | succ n ih =>
      rw [advance_succ'] at h
      cases hr : (m.advance n).recovery? ((m.advance n).cycles + 1) with
      | none =>
          rw [log_next_of_no_recovery hr] at h
          obtain ⟨k, hk, hrecovery⟩ := ih h
          exact ⟨k, Nat.lt_succ_of_lt hk, hrecovery⟩
      | some latest =>
          obtain ⟨i, fault, -, hlatest, hlog⟩ := cycle_of_recovery hr
          rw [hlog] at h
          rcases Log.mem_reports_of_push h with h | h
          · obtain ⟨k, hk, hrecovery⟩ := ih h
            exact ⟨k, Nat.lt_succ_of_lt hk, hrecovery⟩
          · exact ⟨n, Nat.lt_succ_self n, by rw [hr, hlatest, h]⟩

end ChipEight.Machine

namespace ChipEight.Run

open Machine (Step History Remembers Chronicled)

variable {image : List Byte} {o : Options} {r : Result} {report : Report}

/-- A report tells of the row that has its number. -/
def Result.Locates (r : Result) (report : Report) : Prop :=
  ∃ k entry, r.trace[k]? = some entry ∧ report.step = (k + 1 : Nat) ∧ entry.step = k + 1 ∧
    report.addr = entry.addr ∧ report.word = some ↑entry.instruction.word.toNat

theorem locates_of_run {room : Room} (h : run image o room = .ok r) (ht : o.trace = true)
    (hr : report ∈ r.final.log.reports) : r.Locates report := by
  obtain ⟨-, rfl⟩ := run_eq_ok.mp h
  have hkeeps := load_keeps image o (.new o.toConfig)
  cases hload : load image o (.new o.toConfig) with
  | error fault m =>
      rw [hload] at hkeeps
      have hlog : m.log = .empty := congrArg Machine.log hkeeps
      rw [result_of_refused hload] at hr
      change report ∈ m.log.reports at hr
      rw [hlog] at hr
      cases hr
  | ok _ m =>
      rw [hload] at hkeeps
      have hz := cycles_of_loaded hload
      have hlog : m.log = .empty := congrArg Machine.log hkeeps
      obtain ⟨rows, m', left, hon, -, hend⟩ := divides_of_loaded hload
      rw [final_of_loaded hload] at hr
      obtain ⟨k, hk, hrecovery⟩ := Machine.mem_reports_advance hlog hr
      -- a cycle that recovers completes, so it has a row even if the run ends with a fault
      obtain ⟨i, fault, hc, rfl, -⟩ := Machine.cycle_of_recovery hrecovery
      have hcycles : (m.advance k).cycles = k := by rw [Machine.cycles_advance, hz, Nat.zero_add]
      refine ⟨k, _, row_of_completed hz ht hon hend hk hc, ?step, ?number, rfl, rfl⟩
      case step =>
        show (((m.advance k).cycles + 1 : Nat) : Int) = _
        rw [hcycles]
      case number =>
        show (m.advance k).next.cycles = k + 1
        rw [Machine.cycles_next, hcycles]

/-- The log keeps the latest recoveries. Whatever was done to a machine since a reset, its log holds the last
256 of all recoveries, in the order of their cycles; cycles that raise and steps outside the cycles add
nothing. In a run whose rows are kept, each of its reports tells of the row that has its number. -/
theorem log_keeps_latest_recoveries (m : Machine) (steps : List Step) :
    Chronicled (.since m.reset steps) (m.reset.after steps) ∧
      ∀ image o room r, run image o room = .ok r → o.trace = true →
        ∀ report ∈ r.final.log.reports, r.Locates report := by
  have hreset : Remembers .opening m.reset := .opening rfl rfl
  have hremembers : Remembers (.since m.reset steps) (m.reset.after steps) :=
    Machine.noteAll_invariant (fun step _ _ _ h => h.perform step) hreset
  exact ⟨hremembers.chronicled, fun image o room r h ht report hr => locates_of_run h ht hr⟩

/-- A return from no call, before a jump back to it. It is logged in every other cycle, and not when it is
executed outside the cycles; the reports of a run of the same image are in rows one and three. -/
theorem log_keeps_returns_from_no_call :
    ∃ (m : Machine) (steps : List Step) (o : Options) (r : Result),
      (History.since m.reset steps).recoveries.map Report.step = [1, 3] ∧
      Chronicled (.since m.reset steps) (m.reset.after steps) ∧
      run [0x00, 0xEE, 0x10, 0x00] o = .ok r ∧ o.trace = true ∧
      r.final.log.reports.map Report.step = [1, 3] ∧ ∀ report ∈ r.final.log.reports, r.Locates report := by
  let m := Machine.new { memorySize := 4, start := 0 }
  let steps : List Step :=
    [.load [0x00, 0xEE, 0x10, 0x00] 0, .cycle, .execute 0x00EE, .cycle, .cycle, .processor (.rawPc (-1)),
      .cycle]
  let o : Options := { memorySize := 4, start := 0, loadFont := false, maxSteps := 3 }
  have hsteps : (History.since m.reset steps).recoveries.map Report.step = [1, 3] := by decide +kernel
  have hr : run [0x00, 0xEE, 0x10, 0x00] o = .ok (result [0x00, 0xEE, 0x10, 0x00] o) :=
    run_eq_ok.mpr ⟨⟨Machine.Config.check_of_usual_display (by decide) rfl rfl, by decide +kernel⟩, rfl⟩
  have hreports : (result [0x00, 0xEE, 0x10, 0x00] o).final.log.reports.map Report.step = [1, 3] := by
    decide +kernel
  obtain ⟨hchronicled, hlocates⟩ := log_keeps_latest_recoveries m steps
  exact ⟨m, steps, o, _, hsteps, hchronicled, hr, rfl, hreports, hlocates _ o _ _ hr rfl⟩

end ChipEight.Run
