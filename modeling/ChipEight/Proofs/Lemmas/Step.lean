import ChipEight.Proofs.Lemmas.Cycle

/-!
# One step and many

`Stepped` says what each kind of step does to a machine, whether it completes or fails. `after` performs
steps in their order whatever they raise, and `Reachable` are the machines that steps lead to.
-/

namespace ChipEight

open Effect

variable {ε α : Type}

/-! ## Operations on parts -/

namespace Board

theorem stateOf_onProcessor (act : EStateM ε Processor α) (b : Board) :
    stateOf (onProcessor act b) = { b with processor := stateOf (act b.processor) } := by
  simp only [onProcessor]
  cases act b.processor <;> rfl

theorem stateOf_onMemory (act : EStateM ε Memory α) (b : Board) :
    stateOf (onMemory act b) = { b with memory := stateOf (act b.memory) } := by
  simp only [onMemory]
  cases act b.memory <;> rfl

theorem stateOf_onDisplay (act : EStateM ε Display α) (b : Board) :
    stateOf (onDisplay act b) = { b with display := stateOf (act b.display) } := by
  simp only [onDisplay]
  cases act b.display <;> rfl

end Board

theorem stateOf_told {σ : Type} (act : EStateM Fault σ α) (s : σ) :
    stateOf (told act s) = stateOf (act s) :=
  stateOf_adaptExcept _ act s

namespace Machine

theorem stateOf_onBoard (act : EStateM ε Board α) (m : Machine) :
    stateOf (onBoard act m) = { m with board := stateOf (act m.board) } := by
  simp only [onBoard]
  cases act m.board <;> rfl

theorem stateOf_load (image : List Byte) (offset : Int) (m : Machine) :
    stateOf (load image offset m) =
      { m with board.memory := stateOf (Memory.writeRange offset image m.board.memory) } := by
  rw [load, get_bind]
  by_cases hl : offset + image.length > m.board.memory.size
  · -- the load is refused, and the write would be too
    have hc : ¬ m.board.memory.Covers offset image.length := fun hc => absurd hc.2 (Int.not_le.mpr hl)
    rw [if_pos hl, Memory.writeRange, if_neg hc]
    rfl
  · rw [if_neg hl]
    show stateOf (onBoard (Board.onMemory (Memory.writeRange offset image)) m) = _
    rw [stateOf_onBoard, Board.stateOf_onMemory]

theorem stateOf_perform_cycle (m : Machine) : stateOf (Step.perform .cycle m) = m.next := by
  rw [perform_cycle]
  cases hc : cycle m with
  | ok i m' => exact (next_of_ok hc).symm
  | error incident m' => exact (next_of_error hc).symm

/-! ## One step -/

/-- What a step does to a machine. -/
inductive Stepped (m : Machine) : Step → Machine → Prop
  | memory (step : Memory.Step) :
      Stepped m (.memory step) { m with board.memory := stateOf (step.perform m.board.memory) }
  | display (step : Display.Step) :
      Stepped m (.display step) { m with board.display := stateOf (step.perform m.board.display) }
  | processor (step : Processor.Step) :
      Stepped m (.processor step) { m with board.processor := stateOf (step.perform m.board.processor) }
  | loadFont :
      Stepped m .loadFont
        { m with board.memory := stateOf (Memory.writeRange Font.start Font.bytes m.board.memory) }
  | load (image : List Byte) (offset : Int) :
      Stepped m (.load image offset)
        { m with board.memory := stateOf (Memory.writeRange offset image m.board.memory) }
  | cycle : Stepped m .cycle m.next
  | execute (word : Int) :
      Stepped m (.execute word) { m with board := stateOf (Board.execute (.ofInt word) m.board) }
  | reset : Stepped m .reset m.reset
  | last : Stepped m .last m
  | diagnostics : Stepped m .diagnostics m

theorem stepped (step : Step) (m : Machine) : Stepped m step (stateOf (step.perform m)) := by
  cases step with
  | memory step =>
      rw [Step.perform, stateOf_told, stateOf_onBoard, Board.stateOf_onMemory]
      exact .memory step
  | display step =>
      rw [Step.perform, stateOf_told, stateOf_onBoard, Board.stateOf_onDisplay]
      exact .display step
  | processor step =>
      rw [Step.perform, stateOf_onBoard, Board.stateOf_onProcessor]
      exact .processor step
  | loadFont =>
      rw [Step.perform, stateOf_told, stateOf_bind_pure, loadFont, stateOf_onBoard,
        Board.stateOf_onMemory]
      exact .loadFont
  | load image offset =>
      rw [Step.perform, stateOf_told, stateOf_bind_pure, stateOf_load]
      exact .load image offset
  | cycle => rw [stateOf_perform_cycle]; exact .cycle
  | execute word =>
      rw [Step.perform, stateOf_told, stateOf_bind_pure, execute, stateOf_onBoard]
      exact .execute word
  | reset => exact .reset
  | last => exact .last
  | diagnostics => exact .diagnostics

/-! ## Many steps -/

/-- The machine after steps in their order, whatever they raised. -/
def after (steps : List Step) (m : Machine) : Machine := (attempts Step.perform steps m).2

theorem after_cons (step : Step) (steps : List Step) (m : Machine) :
    m.after (step :: steps) = (stateOf (step.perform m)).after steps := rfl

theorem after_append (steps steps' : List Step) (m : Machine) :
    m.after (steps ++ steps') = (m.after steps).after steps' := by
  induction steps generalizing m with
  | nil => rfl
  | cons step steps ih => rw [List.cons_append, after_cons, ih, after_cons]

theorem after_cycles (n : Nat) (m : Machine) : m.after (List.replicate n .cycle) = m.advance n := by
  induction n generalizing m with
  | zero => rfl
  | succ n ih => rw [List.replicate_succ, after_cons, stateOf_perform_cycle, ih, advance_succ]

theorem after_preserves {I : Machine → Prop} {steps : List Step} {m : Machine}
    (h : ∀ step ∈ steps, Preserves I step.perform) (hm : I m) : I (m.after steps) :=
  preserves_attempts steps h hm

/-- Notes steps one after the other, each with the machine that is about to take it. -/
def noteAll {ι : Type} (note : Machine → ι → Step → ι) : List Step → Machine → ι → ι
  | [], _, notes => notes
  | step :: steps, m, notes => noteAll note steps (stateOf (step.perform m)) (note m notes step)

theorem noteAll_invariant {ι : Type} {note : Machine → ι → Step → ι} {P : ι → Machine → Prop}
    {steps : List Step} {notes : ι} {m : Machine}
    (h : ∀ step ∈ steps, ∀ notes m, P notes m → P (note m notes step) (stateOf (step.perform m)))
    (hm : P notes m) : P (noteAll note steps m notes) (m.after steps) := by
  induction steps generalizing notes m with
  | nil => exact hm
  | cons step steps ih =>
      exact ih (fun s hs => h s (List.mem_cons_of_mem _ hs)) (h step List.mem_cons_self notes m hm)

/-- The machines that any steps lead to from a new machine. Its memory may have any size. -/
def Reachable (m : Machine) : Prop :=
  ∃ config : Config, ∃ steps, 0 ≤ config.memorySize ∧ m = (new config).after steps

theorem Reachable.invariant {I : Machine → Prop} {m : Machine} (hnew : ∀ config, I (new config))
    (hstep : ∀ step, Preserves I (Step.perform step)) (h : m.Reachable) : I m := by
  obtain ⟨config, steps, -, rfl⟩ := h
  exact after_preserves (fun step _ => hstep step) (hnew config)

end Machine
end ChipEight
