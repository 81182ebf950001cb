import ChipEight.Proofs.Lemmas.Step

/-!
# What happens to the call stack

An instruction keeps the stack, or it is a call that is taken, or a return to the call that was made last.
`Board.Stacked` says so of executions and `Machine.StackMove` of cycles.
-/

namespace ChipEight

open Effect

theorem Instruction.call_of_tag {i : Instruction} (h : i.tag = .call) :
    ∃ target, i.operation = .call target := ⟨i.nnn, operation_of_tag h⟩

theorem Instruction.ret_of_tag {i : Instruction} (h : i.tag = .ret) : i.operation = .ret := operation_of_tag h

namespace Board

/-- How an instruction ends, as far as the stack is concerned. -/
inductive Stacked (i : Instruction) (b : Board) : EStateM.Result Fault Board (Option Int) → Prop
  | kept {r : EStateM.Result Fault Board (Option Int)}
      (hs : (stateOf r).processor.stack = b.processor.stack) : Stacked i b r
  | called {target : Address} (ho : i.operation = .call target)
      (hl : b.processor.limitReached? = none) :
      Stacked i b (.ok (some target.val) { b with processor := b.processor.push b.processor.pc })
  | returned {caller : Int} {rest : List Int} (ho : i.operation = .ret)
      (hs : b.processor.stack = caller :: rest) :
      Stacked i b (.ok (some (caller + 2)) { b with processor.stack := rest })

theorem stacked (i : Instruction) (b : Board) : Stacked i b (execute i b) := by
  cases ho : i.operation with
  | call target =>
      rw [execute_call ho, call_eq]
      cases hl : b.processor.limitReached? with
      | some limit => exact .kept rfl
      | none => exact .called ho hl
  | ret =>
      rw [execute_ret ho, ret_eq]
      cases hs : b.processor.stack with
      | nil => exact .kept rfl
      | cons caller rest => exact .returned ho hs
  | _ =>
      have hwrites : .stack ∉ i.operation.writes := by simp [ho, Operation.writes]
      exact .kept (execute_unchanged hwrites b)

theorem stack_of_error {i : Instruction} {fault : Fault} {b b' : Board}
    (h : execute i b = .error fault b') : b'.processor.stack = b.processor.stack := by
  have hstacked := stacked i b
  rw [h] at hstacked
  cases hstacked with
  | kept hs => exact hs

/-! ## Calls and returns that are carried out -/

/-- The instruction is of the kind `tag`, and executing it does not raise `refusal`. -/
def carriesOut (tag : Tag) (refusal : FaultKind) (i : Instruction) (b : Board) : Bool :=
  i.tag == tag &&
    match execute i b with
    | .ok _ _ => true
    | .error fault _ => fault.kind != refusal

variable {i : Instruction} {b : Board}

theorem carriesOut_call_iff :
    carriesOut .call .stackOverflow i b = true ↔ i.tag = .call ∧ b.processor.limitReached? = none := by
  constructor
  · intro h
    obtain ⟨ht, hne⟩ := Bool.and_eq_true_iff.mp h
    obtain ⟨target, ho⟩ := Instruction.call_of_tag (eq_of_beq ht)
    rw [execute_call ho, call_eq] at hne
    cases hl : b.processor.limitReached? with
    | none => exact ⟨eq_of_beq ht, rfl⟩
    | some limit => rw [hl] at hne; cases hne
  · rintro ⟨ht, hl⟩
    obtain ⟨target, ho⟩ := Instruction.call_of_tag ht
    simp [carriesOut, ht, execute_call ho, call_eq, hl]

theorem carriesOut_ret_iff :
    carriesOut .ret .stackUnderflow i b = true ↔ i.tag = .ret ∧ b.processor.stack ≠ [] := by
  constructor
  · intro h
    obtain ⟨ht, hne⟩ := Bool.and_eq_true_iff.mp h
    rw [execute_ret (Instruction.ret_of_tag (eq_of_beq ht)), ret_eq] at hne
    cases hs : b.processor.stack with
    | nil => rw [hs] at hne; cases hne
    | cons caller rest => exact ⟨eq_of_beq ht, List.cons_ne_nil _ _⟩
  · rintro ⟨ht, hs⟩
    obtain ⟨caller, rest, hs⟩ := List.exists_cons_of_ne_nil hs
    simp [carriesOut, ht, execute_ret (Instruction.ret_of_tag ht), ret_eq, hs]

/-- An instruction pushes its own address if it is a call that is carried out, and pops an entry if it is a
return that is. -/
theorem stack_execute (i : Instruction) (b : Board) :
    (stateOf (execute i b)).processor.stack =
      if carriesOut .call .stackOverflow i b then b.processor.pc :: b.processor.stack
      else if carriesOut .ret .stackUnderflow i b then b.processor.stack.tail
      else b.processor.stack := by
  by_cases hc : carriesOut .call .stackOverflow i b = true
  · obtain ⟨ht, hl⟩ := carriesOut_call_iff.mp hc
    obtain ⟨target, ho⟩ := Instruction.call_of_tag ht
    rw [if_pos hc, execute_call ho, call_eq, hl]
    rfl
  by_cases hr : carriesOut .ret .stackUnderflow i b = true
  · obtain ⟨ht, hs⟩ := carriesOut_ret_iff.mp hr
    obtain ⟨caller, rest, hs⟩ := List.exists_cons_of_ne_nil hs
    rw [if_neg hc, if_pos hr, execute_ret (Instruction.ret_of_tag ht), ret_eq, hs]
    rfl
  · rw [if_neg hc, if_neg hr]
    have hstacked := stacked i b
    generalize execute i b = r at hstacked ⊢
    cases hstacked with
    | kept hs => exact hs
    | called ho hl =>
        have ht : i.tag = .call := by rw [Instruction.tag, ho]; rfl
        exact absurd (carriesOut_call_iff.mpr ⟨ht, hl⟩) hc
    | returned ho hs =>
        have ht : i.tag = .ret := by rw [Instruction.tag, ho]; rfl
        exact absurd (carriesOut_ret_iff.mpr ⟨ht, by simp [hs]⟩) hr

end Board

namespace Machine

abbrev stack (m : Machine) : List Int := m.board.processor.stack

/-- The next cycle is a call, and one that is taken. -/
def TakesCall (m : Machine) : Prop :=
  ∃ i, m.board.memory.fetch m.pc = .ok i ∧ i.tag = .call ∧
    ∀ limit, m.board.processor.maxDepth = some limit → m.stack.length < limit

/-- What the next cycle does to the stack. -/
inductive StackMove (m : Machine) : Prop
  | kept (hs : m.next.stack = m.stack)
  | called (hs : m.next.stack = m.pc :: m.stack)
  | returned {i : Instruction} {caller : Int} (ht : i.tag = .ret) (hc : cycle m = .ok i m.next)
      (hs : m.stack = caller :: m.next.stack) (hp : m.next.pc = (caller + 2) % 65536)

theorem stackMove (m : Machine) : StackMove m := by
  generalize hc : cycle m = r
  cases Cycled.of_eq hc with
  | unfetched => exact .kept (by rw [next_of_error hc]; rfl)
  | @done i next board hf he =>
      have hstacked := Board.stacked i m.board
      have hnext := next_of_ok hc
      rw [he] at hstacked
      rw [← hnext] at hc
      cases hstacked with
      | kept hs => exact .kept (by rw [hnext]; exact hs)
      | called ho hl => exact .called (by rw [hnext]; rfl)
      | returned ho hs =>
          refine .returned (by rw [Instruction.tag, ho]; rfl) hc ?_ (by rw [hnext]; rfl)
          rw [hnext]
          exact hs
  | recovered _ he =>
      have hs := Board.stack_of_error he
      exact .kept (by rw [next_of_ok hc]; exact hs)
  | struck _ he =>
      have hs := Board.stack_of_error he
      exact .kept (by rw [next_of_error hc]; exact hs)

/-- What is on the stack after a cycle was there before it, or is the address of the cycle. -/
theorem mem_stack_next {m : Machine} {caller : Int} (h : caller ∈ m.next.stack) :
    caller = m.pc ∨ caller ∈ m.stack := by
  cases stackMove m with
  | kept hs => rw [hs] at h; exact Or.inr h
  | called hs => rw [hs] at h; exact List.mem_cons.mp h
  | returned _ _ hs => rw [hs]; exact Or.inr (List.mem_cons_of_mem _ h)

theorem stack_next_of_takesCall {m : Machine} (h : m.TakesCall) : m.next.stack = m.pc :: m.stack := by
  obtain ⟨i, hf, ht, hl⟩ := h
  obtain ⟨target, ho⟩ := Instruction.call_of_tag ht
  have he : Board.execute i m.board = .ok (some target.val)
      { m.board with processor := m.board.processor.push m.pc } := by
    rw [Board.execute_call ho, Board.call_eq, Processor.limitReached?_eq_none_iff.mpr hl]
  rw [next_of_ok (cycle_of_done hf he)]
  rfl

end Machine
end ChipEight
