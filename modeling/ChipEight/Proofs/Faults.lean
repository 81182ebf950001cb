import ChipEight.Proofs.Lemmas.Telling

/-!
# What a cycle lets out

Only faults of accesses to memory and to the display leave a cycle, and only after it has been counted
and the program counter has been moved. The one exception is a fault that cannot be told, for which the
limit of the stack or the display must have a number that is too long to be written.
-/

namespace ChipEight.Machine

/-- How a cycle that raises is told, and how it leaves the machine. The report has no word exactly if
the fetch failed; then all but the program counter and the count of cycles is as it was. -/
structure Raised (m m' : Machine) (report : Report) : Prop where
  kind : report.kind = .memoryAccess ∨ report.kind = .displayAccess
  pc : m'.pc = (m.pc + 2) % 65536
  step : report.step = m'.cycles
  addr : report.addr = m.pc
  noWord : report.word = none ↔ m.pc < 0 ∨ m.board.memory.size < m.pc + 2
  word : ∀ word, report.word = some word →
    word = 256 * (m.board.memory.cell m.pc).toNat + (m.board.memory.cell (m.pc + 1)).toNat
  frame : report.word = none →
    m' = { m with cycles := m.cycles + 1, board.processor.pc := (m.pc + 2) % 65536 }

theorem raised_unfetched {m : Machine} (hm : ¬ m.board.memory.Covers m.pc 2) :
    Raised m (m.commit (m.pc + 2)) (m.incident (.outsideMemory m.pc 2) none).report where
  kind := Or.inl rfl
  pc := rfl
  step := rfl
  addr := rfl
  noWord := ⟨fun _ => Memory.not_covers_iff.mp hm, fun _ => rfl⟩
  word := by intro word h; cases h
  frame _ := rfl

theorem raised_struck {m : Machine} {i : Instruction} {fault : Fault} {board : Board}
    (hf : m.board.memory.fetch m.pc = .ok i) (he : Board.execute i m.board = .error fault board)
    (hfault : fault.OfAccess) :
    Raised m (commit (m.pc + 2) { m with board, last := some i }) (m.incident fault (some i)).report := by
  obtain ⟨hc, rfl⟩ := Memory.covers_of_fetch hf
  refine {
    kind := hfault.kind, pc := rfl, step := rfl, addr := rfl
    noWord := ?noWord, word := ?word, frame := ?frame }
  case noWord =>
    constructor
    · intro h; cases h
    · intro h; exact absurd hc (Memory.not_covers_iff.mpr h)
  case word =>
    intro word h
    cases h
    rw [Instruction.word_ofBytes]
    omega
  case frame => intro h; cases h

/-- A fault that is raised and can be told is one of an access. -/
theorem access_of_struck {m : Machine} {i : Instruction} {fault : Fault} {board : Board}
    (he : Board.execute i m.board = .error fault board) (hs : fault.recoverable = true → ¬ fault.Tellable)
    (ht : fault.Tellable) : fault.OfAccess :=
  Board.access_of_execute he (Bool.eq_false_iff.mpr fun hr => hs hr ht)

theorem raised_of_cycle_error {m m' : Machine} {incident : Incident} (h : cycle m = .error incident m')
    (ht : incident.fault.Tellable) : Raised m m' incident.report := by
  cases Cycled.of_eq h with
  | unfetched hm => exact raised_unfetched hm
  | struck hf he hs => exact raised_struck hf he (access_of_struck he hs ht)

theorem commit_pc_bounds (next : Int) (m : Machine) :
    0 ≤ (m.commit next).pc ∧ (m.commit next).pc < 65536 := by
  show 0 ≤ next % 65536 ∧ next % 65536 < 65536
  omega

theorem pc_next_bounds (m : Machine) : 0 ≤ m.next.pc ∧ m.next.pc < 65536 := by
  rw [next]
  generalize hc : cycle m = r
  cases Cycled.of_eq hc <;> exact ⟨Int.emod_nonneg _ (by decide), Int.emod_lt_of_pos _ (by decide)⟩

/-- Nothing leaves a cycle but the instruction that was executed, the fault of an access to memory or to
the display, or that a fault cannot be told; and that does not happen if the limit of the stack and the
size of the display can be written. The machine is any, so whatever was done to it before, and whatever
failed. -/
theorem cycle_lets_out_access_faults_only (m : Machine) :
    ∃ m', m'.cycles = m.cycles + 1 ∧ (0 ≤ m'.pc ∧ m'.pc < 65536) ∧
      ((∃ i, Step.perform .cycle m = .ok (.instruction (some i)) m') ∨
        (∃ report, Step.perform .cycle m = .error (.reported report) m' ∧ Raised m m' report) ∨
        (¬ m.board.Plain ∧ Step.perform .cycle m = .error .unwritable m' ∧ m'.pc = (m.pc + 2) % 65536)) := by
  rw [perform_cycle]
  generalize hc : cycle m = r
  cases Cycled.of_eq hc with
  | unfetched hm =>
      exact ⟨_, rfl, commit_pc_bounds _ _, Or.inr (Or.inl ⟨_, rfl, raised_unfetched hm⟩)⟩
  | done hf he => exact ⟨_, rfl, commit_pc_bounds _ _, Or.inl ⟨_, rfl⟩⟩
  | recovered hf he => exact ⟨_, rfl, commit_pc_bounds _ _, Or.inl ⟨_, rfl⟩⟩
  | @struck i fault board hf he hs =>
      refine ⟨commit (m.pc + 2) { m with board, last := some i }, rfl, commit_pc_bounds _ _, Or.inr ?_⟩
      by_cases ht : fault.Tellable
      · have hfailure := Incident.failure_of_tellable (i := m.incident fault (some i)) ht
        exact Or.inl ⟨_, congrArg (EStateM.Result.error · _) hfailure, raised_struck hf he (access_of_struck he hs ht)⟩
      · have hfailure := Incident.failure_of_not_tellable (i := m.incident fault (some i)) ht
        exact Or.inr ⟨fun hplain => ht (Board.tellable_of_execute hplain he),
          congrArg (EStateM.Result.error · _) hfailure, rfl⟩

/-- A call is refused where the limit of the stack is below zero and too long to be written. What leaves the cycle
is no fault that can be told then. -/
theorem untold_refusal_leaves_cycle :
    ∃ m : Machine, m.Reachable ∧ m.board.processor.maxDepth = some Numeral.unwritable ∧
      ∃ m', Step.perform .cycle m = .error .unwritable m' :=
  ⟨atUntoldCall, reachable_atUntoldCall, maxDepth_atUntoldCall, _,
    perform_cycle_of_untold fetch_atUntoldCall refuses_atUntoldCall not_tellable_atUntoldCall⟩

end ChipEight.Machine
