import ChipEight.Proofs.Lemmas.Cycle

/-!
# What stores into memory

Two kinds of instruction write to memory, and nothing else that a cycle does changes a byte.
-/

namespace ChipEight

open Effect

/-- The instruction writes to memory: the digits of a register, or registers. -/
def Instruction.Stores (i : Instruction) : Prop := i.tag = .ldDigits ∨ i.tag = .ldMemory

instance (i : Instruction) : Decidable i.Stores := inferInstanceAs (Decidable (_ ∨ _))

theorem Instruction.memory_notMem_writes {i : Instruction} (h : ¬ i.Stores) :
    .memory ∉ i.operation.writes := by
  rw [Stores, tag] at h
  cases ho : i.operation with
  | storeDigits x => rw [ho] at h; exact absurd (Or.inl rfl) h
  | storeRegisters x => rw [ho] at h; exact absurd (Or.inr rfl) h
  | _ => simp [Operation.writes]

namespace Machine

/-- The next cycle executes an instruction that stores. -/
def Stores (m : Machine) : Prop := ∃ i, m.board.memory.fetch m.pc = .ok i ∧ i.Stores

instance (m : Machine) : Decidable m.Stores := inferInstanceAs (Decidable (∃ _, _ ∧ _))

theorem memory_next {m : Machine} (h : ¬ m.Stores) : m.next.board.memory = m.board.memory := by
  have hkept : ∀ {i r}, m.board.memory.fetch m.pc = .ok i → Board.execute i m.board = r →
      (stateOf r).memory = m.board.memory := by
    rintro i _ hf rfl
    exact Board.execute_unchanged (i.memory_notMem_writes fun hi => h ⟨i, hf, hi⟩) m.board
  rw [next]
  generalize hc : cycle m = r
  cases Cycled.of_eq hc with
  | unfetched => rfl
  | done hf he | recovered hf he | struck hf he => exact hkept hf he

theorem memory_advance {m : Machine} {n : Nat} (h : ∀ k < n, ¬ (m.advance k).Stores) :
    (m.advance n).board.memory = m.board.memory := by
  induction n with
  | zero => rfl
  | succ n ih =>
      rw [advance_succ', memory_next (h n (Nat.lt_succ_self n)), ih]
      exact fun k hk => h k (Nat.lt_succ_of_lt hk)

end Machine
end ChipEight
