import Mathlib.Logic.Function.Iterate
import ChipEight.Machine.Step
import ChipEight.Proofs.Lemmas.Execute
import ChipEight.Proofs.Lemmas.Memory

/-!
# One cycle and many

`Cycled` lists the four ways a cycle can go. Proofs about cycles split on it and do not open `cycle`.
`advance` repeats cycles whatever they raise.
-/

namespace ChipEight.Machine

abbrev pc (m : Machine) : Int := m.board.processor.pc

/-- The incident of a fault that strikes the next cycle. -/
def incident (m : Machine) (fault : Fault) (i : Option Instruction) : Incident :=
  ⟨fault, m.cycles + 1, m.pc, i⟩

/-- How a cycle goes: what it answers or raises, and the machine it leaves. A fault that it would recover from but
cannot tell is raised like any other. -/
inductive Cycled (m : Machine) : EStateM.Result Incident Machine Instruction → Prop
  | unfetched (hm : ¬ m.board.memory.Covers m.pc 2) :
      Cycled m (.error (m.incident (.outsideMemory m.pc 2) none) (m.commit (m.pc + 2)))
  | done {i : Instruction} {next : Option Int} {board : Board}
      (hf : m.board.memory.fetch m.pc = .ok i) (he : Board.execute i m.board = .ok next board) :
      Cycled m (.ok i (commit (next.getD (m.pc + 2)) { m with board, last := some i }))
  | recovered {i : Instruction} {fault : Fault} {board : Board}
      (hf : m.board.memory.fetch m.pc = .ok i) (he : Board.execute i m.board = .error fault board)
      (hr : fault.recoverable = true) (ht : fault.Tellable) :
      Cycled m (.ok i (commit (m.pc + 2)
        { m with board, log := m.log.push (m.incident fault (some i)).report, last := some i }))
  | struck {i : Instruction} {fault : Fault} {board : Board}
      (hf : m.board.memory.fetch m.pc = .ok i) (he : Board.execute i m.board = .error fault board)
      (hs : fault.recoverable = true → ¬ fault.Tellable) :
      Cycled m (.error (m.incident fault (some i)) (commit (m.pc + 2) { m with board, last := some i }))

theorem cycle_of_unfetched {m : Machine} {fault : Fault} (hf : m.board.memory.fetch m.pc = .error fault) :
    cycle m = .error (m.incident fault none) (m.commit (m.pc + 2)) := by
  unfold cycle
  simp only [hf]
  rfl

theorem cycle_of_done {m : Machine} {i : Instruction} {next : Option Int} {board : Board}
    (hf : m.board.memory.fetch m.pc = .ok i) (he : Board.execute i m.board = .ok next board) :
    cycle m = .ok i (commit (next.getD (m.pc + 2)) { m with board, last := some i }) := by
  unfold cycle
  simp only [hf, he]

theorem cycle_of_recovered {m : Machine} {i : Instruction} {fault : Fault} {board : Board}
    (hf : m.board.memory.fetch m.pc = .ok i) (he : Board.execute i m.board = .error fault board)
    (hr : fault.recoverable = true) (ht : fault.Tellable) :
    cycle m = .ok i (commit (m.pc + 2)
      { m with board, log := m.log.push (m.incident fault (some i)).report, last := some i }) := by
  have hnote : (m.incident fault (some i)).note? = some _ := Incident.note?_of_noted hr ht
  simp only [incident] at hnote
  unfold cycle
  simp only [hf, he, hnote]
  rfl

theorem cycle_of_struck {m : Machine} {i : Instruction} {fault : Fault} {board : Board}
    (hf : m.board.memory.fetch m.pc = .ok i) (he : Board.execute i m.board = .error fault board)
    (hs : fault.recoverable = true → ¬ fault.Tellable) :
    cycle m =
      .error (m.incident fault (some i)) (commit (m.pc + 2) { m with board, last := some i }) := by
  have hnote : (m.incident fault (some i)).note? = none := Incident.note?_of_not_noted hs
  simp only [incident] at hnote
  unfold cycle
  simp only [hf, he, hnote]
  rfl

theorem cycled (m : Machine) : Cycled m (cycle m) := by
  by_cases hc : m.board.memory.Covers m.pc 2
  · have hf := Memory.fetch_of_covers hc
    cases he : Board.execute _ m.board with
    | ok next board => rw [cycle_of_done hf he]; exact .done hf he
    | error fault board =>
        by_cases hs : fault.recoverable = true → ¬ fault.Tellable
        · rw [cycle_of_struck hf he hs]; exact .struck hf he hs
        · obtain ⟨hr, ht⟩ := Classical.not_imp.mp hs
          rw [cycle_of_recovered hf he hr (not_not.mp ht)]
          exact .recovered hf he hr (not_not.mp ht)
  · rw [cycle_of_unfetched (Memory.fetch_of_not_covers hc)]
    exact .unfetched hc

theorem Cycled.of_eq {m : Machine} {r : EStateM.Result Incident Machine Instruction}
    (h : cycle m = r) : Cycled m r := h ▸ cycled m

theorem fetch_of_cycle_ok {m m' : Machine} {i : Instruction} (h : cycle m = .ok i m') :
    m.board.memory.fetch m.pc = .ok i := by
  cases Cycled.of_eq h <;> assumption

theorem cycles_of_cycle_ok {m m' : Machine} {i : Instruction} (h : cycle m = .ok i m') :
    m'.cycles = m.cycles + 1 := by
  cases Cycled.of_eq h <;> rfl

theorem cycles_of_cycle_error {m m' : Machine} {incident : Incident}
    (h : cycle m = .error incident m') : m'.cycles = m.cycles + 1 := by
  cases Cycled.of_eq h <;> rfl

theorem addr_of_cycle_error {m m' : Machine} {incident : Incident}
    (h : cycle m = .error incident m') : incident.addr = m.pc := by
  cases Cycled.of_eq h <;> rfl

theorem perform_cycle (m : Machine) :
    Step.perform .cycle m = match cycle m with
      | .ok i m' => .ok (.instruction (some i)) m'
      | .error incident m' => .error incident.failure m' := by
  show EStateM.adaptExcept _ (EStateM.bind cycle _) m = _
  unfold EStateM.adaptExcept EStateM.bind
  cases cycle m <;> rfl

/-! ## Many cycles -/

/-- The machine after a cycle, whatever the cycle raised. -/
def next (m : Machine) : Machine := Effect.stateOf (cycle m)

/-- The machine after a number of cycles, whatever they raised. -/
def advance (n : Nat) : Machine → Machine := next^[n]

theorem next_of_ok {m m' : Machine} {i : Instruction} (h : cycle m = .ok i m') : m.next = m' := by
  rw [next, h, Effect.stateOf]

theorem next_of_error {m m' : Machine} {incident : Incident} (h : cycle m = .error incident m') :
    m.next = m' := by
  rw [next, h, Effect.stateOf]

theorem cycles_next (m : Machine) : m.next.cycles = m.cycles + 1 := by
  cases h : cycle m with
  | ok i m' => rw [next_of_ok h, cycles_of_cycle_ok h]
  | error incident m' => rw [next_of_error h, cycles_of_cycle_error h]

theorem start_next (m : Machine) : m.next.start = m.start := by
  rw [next]
  generalize hc : cycle m = r
  cases Cycled.of_eq hc <;> rfl

/-- What every execution preserves, and every commit, a cycle preserves. -/
theorem board_next {I : Board → Prop} (hexec : ∀ i, Effect.Preserves I (Board.execute i))
    (hcommit : ∀ b addr, I b → I { b with processor.pc := addr % 65536 }) {m : Machine}
    (hm : I m.board) : I m.next.board := by
  have hexecuted : ∀ {i r}, Board.execute i m.board = r → I (Effect.stateOf r) := by
    rintro i _ rfl
    exact hexec i _ hm
  rw [next]
  generalize hc : cycle m = r
  cases Cycled.of_eq hc with
  | unfetched => exact hcommit _ _ hm
  | done _ he => exact hcommit _ _ (hexecuted he)
  | recovered _ he | struck _ he => exact hcommit _ _ (hexecuted he)

theorem maxDepth_next (m : Machine) : m.next.board.processor.maxDepth = m.board.processor.maxDepth := by
  refine board_next (I := fun b => b.processor.maxDepth = m.board.processor.maxDepth) ?_ ?_ rfl
  · exact fun i b hb => (congrArg Prod.snd (Board.execute_keeps i b)).trans hb
  · exact fun _ _ hb => hb

theorem advance_succ (n : Nat) (m : Machine) : m.advance (n + 1) = m.next.advance n := rfl

theorem advance_succ' (n : Nat) (m : Machine) : m.advance (n + 1) = (m.advance n).next :=
  Function.iterate_succ_apply' next n m

theorem cycles_advance (n : Nat) (m : Machine) : (m.advance n).cycles = m.cycles + n := by
  induction n generalizing m with
  | zero => rfl
  | succ n ih => rw [advance_succ, ih, cycles_next]; omega

theorem maxDepth_advance (n : Nat) (m : Machine) :
    (m.advance n).board.processor.maxDepth = m.board.processor.maxDepth := by
  induction n with
  | zero => rfl
  | succ n ih => rw [advance_succ', maxDepth_next, ih]

end ChipEight.Machine
