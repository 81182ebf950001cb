import ChipEight.Proofs.Lemmas.Block
import ChipEight.Proofs.Lemmas.Shape

/-!
# What instructions leave untouched

Each part of a board is changed by few kinds of words (`Part.Writer`), and a byte of memory by a store to its address
only. That is so also of an instruction that fails.
-/

namespace ChipEight

open Effect

/-! ## The words that change a part -/

/-- The words that may change a part. The flag register is changed by two more kinds of words than the others. -/
def Part.Writer (i : Instruction) : Part → Prop
  | register k =>
    i.x = k ∧ (i.family = 0x6 ∨ i.family = 0x7) ∨ (i.family = 0xF ∧ i.nn = 0x65) ∧ k ≤ i.x ∨
      k = Processor.flagRegister ∧ (i.family = 0xD ∨ i.family = 0xF ∧ i.nn = 0x1E)
  | index => i.family = 0xA ∨ i.family = 0xF ∧ (i.nn = 0x1E ∨ i.nn = 0x29 ∨ i.nn = 0x55 ∨ i.nn = 0x65)
  | stack => i.family = 0x2 ∨ i.word = 0x00EE
  | memory => i.family = 0xF ∧ (i.nn = 0x33 ∨ i.nn = 0x55)
  | display => i.word = 0x00E0 ∨ i.family = 0xD

theorem Part.writer_of_mem_writes {i : Instruction} {part : Part} (h : part ∈ i.operation.writes) :
    part.Writer i := by
  obtain ⟨hform, hop⟩ := i.decoded
  rw [hop] at h
  generalize i.tag = tag at hform h
  cases tag with
  | cls | ret | call | ldByte | addByte | ldIndex | ldGlyph | ldDigits =>
      obtain rfl := List.mem_singleton.mp h
      simp_all [Tag.Form, Writer]
  | drw | addIndex | ldMemory =>
      simp only [Tag.operation, Operation.writes, List.mem_cons, List.not_mem_nil, or_false] at h
      rcases h with rfl | rfl <;> simp_all [Tag.Form, Writer]
  | ldRegisters =>
      rcases List.mem_cons.mp h with rfl | hregister
      · simp_all [Tag.Form, Writer]
      · obtain ⟨r, hr, rfl⟩ := List.mem_map.mp hregister
        have hrx : r ≤ i.x := by simpa [Board.registersTo] using hr
        exact .inr (.inl ⟨hform, hrx⟩)
  | _ => cases h

/-! ## The bytes that a store changes -/

namespace Board

variable {i : Instruction} {b : Board} {a : Int}

theorem digit_of_changed (h : 0 ≤ b.processor.i) (hf : i.family = 0xF) (hn : i.nn = 0x33) (ha : 0 ≤ a)
    (hne : (stateOf (execute i b)).memory.cell a ≠ b.memory.cell a) : ∃ j < 3, a = b.processor.i + (j : Nat) := by
  obtain ⟨k, hk, hstored⟩ := (execute_storeDigits_halts h hf hn).left
  by_contra hnone
  exact hne (hstored.memory.others a ha fun j hj heq => hnone ⟨j, Nat.lt_of_lt_of_le hj hk, heq⟩)

theorem ahead_of_changed (h : b.ahead 0 = b.processor.i) (hf : i.family = 0xF) (hn : i.nn = 0x55) (ha : 0 ≤ a)
    (hne : (stateOf (execute i b)).memory.cell a ≠ b.memory.cell a) : ∃ j ≤ i.x.val, a = b.ahead j := by
  obtain ⟨k, hk, hstored⟩ := (execute_storeRegisters_halts h hf hn).left
  by_contra hnone
  exact hne (hstored.memory.others a ha fun j hj heq => hnone ⟨j, Nat.le_of_lt_succ (Nat.lt_of_lt_of_le hj hk), heq⟩)

end Board

/-! ## All instructions -/

namespace Machine

/-- What an instruction may have done to a machine. -/
structure Framed (i : Instruction) (m m' : Machine) : Prop where
  part : ∀ part : Part, ¬ part.Unchanged m.board m'.board → part.Writer i
  byte : ∀ a, 0 ≤ a → m'.board.memory.cell a ≠ m.board.memory.cell a → i.family = 0xF ∧
    (i.nn = 0x33 ∧ (∃ j < 3, a = m.board.processor.i + (j : Nat)) ∨
      i.nn = 0x55 ∧ ∃ j ≤ i.x.val, a = (m.board.processor.i + (j : Nat)) % 65536)
  shape : m'.shape = m.shape
  pc : m'.pc = m.pc
  maxDepth : m'.board.processor.maxDepth = m.board.processor.maxDepth
  rest : m' = { m with board := m'.board }

/-- An instruction changes what words of its kind may change and nothing else, whether it completes or fails. -/
theorem execute_leaves_untouched {m : Machine} (h : 0 ≤ m.board.processor.i) (hlt : m.board.processor.i < 65536)
    (i : Instruction) : Framed i m (stateOf (execute i m)) := by
  have hpart : ∀ part : Part, ¬ part.Unchanged m.board (stateOf (Board.execute i m.board)) → part.Writer i := by
    intro part hchanged
    refine Part.writer_of_mem_writes (by_contra fun hwrites => ?_)
    exact hchanged (Board.execute_unchanged hwrites m.board)
  have hkept := Board.execute_keeps i m.board
  rw [execute, stateOf_onBoard]
  refine { part := hpart, byte := fun a ha hne => ?byte, shape := ?shape, pc := congrArg Prod.fst hkept,
           maxDepth := congrArg Prod.snd hkept, rest := rfl }
  case byte =>
    obtain ⟨hf, hn | hn⟩ := hpart .memory fun hsame => hne (congrArg (fun memory => memory.cell a) hsame)
    · exact ⟨hf, .inl ⟨hn, Board.digit_of_changed h hf hn ha hne⟩⟩
    · exact ⟨hf, .inr ⟨hn, Board.ahead_of_changed (Board.ahead_zero h hlt) hf hn ha hne⟩⟩
  case shape =>
    exact congrArg (fun shape => (shape, m.start)) (Board.execute_keeps_shape i m.board)

/-- Two registers are stored at the last byte of memory. The first of them is, and the index has moved on. -/
theorem half_a_store_leaves_untouched :
    ∃ m m' : Machine, 0 ≤ m.board.processor.i ∧ m.board.processor.i < 65536 ∧
      execute (.ofInt 0xF155) m = .error (.outsideMemory 3 1) m' ∧ m'.board.memory.cell 2 ≠ m.board.memory.cell 2 ∧
      m'.board.processor.i ≠ m.board.processor.i ∧ Framed (.ofInt 0xF155) m m' := by
  let m := (new { memorySize := 3, displayWidth := 0 }).after [.processor (.setV 0 7), .processor (.setI 2)]
  have h : 0 ≤ m.board.processor.i := by decide
  have hlt : m.board.processor.i < 65536 := by decide
  have hfault : outcomeOf (execute (.ofInt 0xF155) m) = .error (.outsideMemory 3 1) := by decide +kernel
  exact ⟨m, _, h, hlt, eq_error_of_outcomeOf hfault, by decide +kernel, by decide +kernel,
    execute_leaves_untouched h hlt _⟩

end Machine
end ChipEight
