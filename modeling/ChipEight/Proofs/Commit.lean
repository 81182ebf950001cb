import ChipEight.Proofs.Lemmas.Telling

/-!
# A cycle is a fetch, an execution and a commit

Executing a word by itself moves nothing but the board. A cycle that fetches the word does the same to the
board, and then moves the program counter.
-/

namespace ChipEight.Machine

open Effect

variable {m : Machine} {i : Instruction}

theorem perform_readWord (addr : Int) (m : Machine) :
    Step.perform (.memory (.readWord addr)) m = match m.board.memory.fetch addr with
      | .ok i => .ok (.number i.word.toNat) m
      | .error fault => .error fault.failure m := by
  simp only [Step.perform, Memory.Step.perform, told, EStateM.adaptExcept, onBoard, Board.onMemory, ask]
  cases m.board.memory.fetch addr <;> rfl

theorem perform_execute (word : Int) (m : Machine) :
    Step.perform (.execute word) m = match Board.execute (.ofInt word) m.board with
      | .ok next board => .ok (.target next) { m with board }
      | .error fault board => .error fault.failure { m with board } := by
  show EStateM.adaptExcept _ (EStateM.bind (execute (.ofInt word)) _) m = _
  simp only [EStateM.adaptExcept, EStateM.bind, execute, onBoard]
  cases Board.execute (.ofInt word) m.board <;> rfl

theorem fetch_of_readWord {addr word : Int}
    (h : Step.perform (.memory (.readWord addr)) m = .ok (.number word) m) :
    ∃ i, m.board.memory.fetch addr = .ok i ∧ word = i.word.toNat := by
  rw [perform_readWord] at h
  cases hf : m.board.memory.fetch addr with
  | ok i =>
      rw [hf] at h
      cases h
      exact ⟨i, rfl, rfl⟩
  | error fault =>
      rw [hf] at h
      cases h

/-- Given how an instruction ends when it is executed by itself: how the cycle that fetches it ends, and which
address the cycle commits. A fault that cannot be told by itself cannot be told of the cycle. -/
inductive Answers (m : Machine) (i : Instruction) :
    Except Failure Reply → Except Failure Reply → Int → Prop
  | target (addr : Int) :
      Answers m i (.ok (.target (some addr))) (.ok (.instruction (some i))) addr
  | noTarget : Answers m i (.ok (.target none)) (.ok (.instruction (some i))) (m.pc + 2)
  | recovered {report : Report} (hr : report.kind.lineage.contains .recoverable = true) :
      Answers m i (.error (.reported report)) (.ok (.instruction (some i))) (m.pc + 2)
  | raised {report : Report} (hr : report.kind = .memoryAccess ∨ report.kind = .displayAccess) :
      Answers m i (.error (.reported report))
        (.error (.reported
          { report with step := m.next.cycles, addr := m.pc, word := some i.word.toNat }))
        (m.pc + 2)
  | untold (h : ¬ m.board.Plain) : Answers m i (.error .unwritable) (.error .unwritable) (m.pc + 2)

/-- Executed by itself, the instruction changed nothing but the board, and not the program counter. The cycle
left the same board, but for the program counter that it committed. -/
structure Committed (m : Machine) (i : Instruction)
    (alone cycled : EStateM.Result Failure Machine Reply) : Prop where
  frame : stateOf alone = { m with board := (stateOf alone).board }
  pc : (stateOf alone).pc = m.pc
  commit : ∃ next, Answers m i (outcomeOf alone) (outcomeOf cycled) next ∧
    (stateOf cycled).board = { (stateOf alone).board with processor.pc := next % 65536 }

section Fault

variable {fault : Fault} {board : Board} (hf : m.board.memory.fetch m.pc = .ok i)
  (he : Board.execute i m.board = .error fault board)

include hf he

theorem board_next_of_fault : m.next.board = { board with processor.pc := (m.pc + 2) % 65536 } := by
  by_cases hs : fault.recoverable = true → ¬ fault.Tellable
  · rw [next_of_error (cycle_of_struck hf he hs)]
    rfl
  · obtain ⟨hr, ht⟩ := Classical.not_imp.mp hs
    rw [next_of_ok (cycle_of_recovered hf he hr (not_not.mp ht))]
    rfl

theorem outcomeOf_cycle_of_struck (hs : fault.recoverable = true → ¬ fault.Tellable) :
    outcomeOf (Step.perform .cycle m) = .error (m.incident fault (some i)).failure := by
  rw [perform_cycle, cycle_of_struck hf he hs]
  rfl

theorem answers_of_fault : Answers m i (.error fault.failure) (outcomeOf (Step.perform .cycle m)) (m.pc + 2) := by
  by_cases ht : fault.Tellable
  · rw [Fault.failure_of_tellable ht]
    cases hr : fault.recoverable with
    | true =>
        rw [perform_cycle, cycle_of_recovered hf he hr ht]
        exact .recovered hr
    | false =>
        have hraised : Answers m i (.error (.reported fault.report)) _ _ :=
          .raised (Board.access_of_execute he hr).kind
        rw [cycles_next] at hraised
        rw [outcomeOf_cycle_of_struck hf he fun hrec => absurd (hr.symm.trans hrec) nofun,
          Incident.failure_of_tellable ht]
        exact hraised
  · rw [Fault.failure_of_not_tellable ht, outcomeOf_cycle_of_struck hf he fun _ => ht,
      Incident.failure_of_not_tellable ht]
    exact .untold fun hplain => ht (Board.tellable_of_execute hplain he)

end Fault

/-- A cycle is the execution of the word that it fetches, and a commit. -/
theorem cycle_commits_execution {word : Int}
    (hw : Step.perform (.memory (.readWord m.pc)) m = .ok (.number word) m) :
    Committed m (.ofInt word) (Step.perform (.execute word) m) (Step.perform .cycle m) := by
  obtain ⟨i, hf, rfl⟩ := fetch_of_readWord hw
  have hpc := congrArg Prod.fst (Board.execute_keeps i m.board)
  rw [perform_execute, Instruction.ofInt_word]
  cases he : Board.execute i m.board with
  | ok next board =>
      rw [he] at hpc
      rw [perform_cycle, cycle_of_done hf he]
      cases next with
      | none => exact { frame := rfl, pc := hpc, commit := ⟨_, .noTarget, rfl⟩ }
      | some addr => exact { frame := rfl, pc := hpc, commit := ⟨addr, .target addr, rfl⟩ }
  | error fault board =>
      rw [he] at hpc
      refine { frame := rfl, pc := hpc, commit := ⟨_, answers_of_fault hf he, ?_⟩ }
      rw [stateOf_perform_cycle, board_next_of_fault hf he]
      rfl

/-- Two registers are to be stored, but memory has room for the first of them only. -/
theorem committed_of_half_a_store :
    ∃ m : Machine, Step.perform (.memory (.readWord m.pc)) m = .ok (.number 0xF155) m ∧
      Committed m (.ofInt 0xF155) (Step.perform (.execute 0xF155) m) (Step.perform .cycle m) ∧
      m.board.memory.cell 0x202 = 0 ∧ m.next.board.memory.cell 0x202 = 7 := by
  let m := (new { memorySize := 0x203 }).after
    [.load [0xF1, 0x55] 0x200, .processor (.setV 0 7), .processor (.setI 0x202)]
  have hf : m.board.memory.fetch m.pc = .ok (.ofBytes 0xF1 0x55) :=
    Memory.fetch_of_cells (by decide +kernel) (by decide +kernel) (by decide +kernel)
  have hw : Step.perform (.memory (.readWord m.pc)) m = .ok (.number 0xF155) m := by
    rw [perform_readWord, hf]
    rfl
  exact ⟨m, hw, cycle_commits_execution hw, by decide +kernel, by decide +kernel⟩

end ChipEight.Machine
