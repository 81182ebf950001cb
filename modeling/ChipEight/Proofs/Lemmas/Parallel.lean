import ChipEight.Proofs.Lemmas.Agree
import ChipEight.Proofs.Lemmas.Loop

/-!
# Two machines side by side

A relation between boards that goes on to hold whatever is computed, written and cleared on both (`Parallel`) is
kept by every instruction, except that drawing and loading registers look at more of the boards than it says. So
it is kept by cycles and loops as long as it is by these two.
-/

namespace ChipEight

open Effect

namespace Board

/-- Boards with equal processors and memories of one size, related whatever is done to both of them. -/
structure Parallel (R : Board → Board → Prop) : Prop where
  processor : ∀ {b b'}, R b b' → b'.processor = b.processor
  size : ∀ {b b'}, R b b' → b'.memory.size = b.memory.size
  compute : ∀ {b b'} p, R b b' → R { b with processor := p } { b' with processor := p }
  write : ∀ {b b'} addr value, R b b' → b.memory.Covers addr 1 →
    R { b with memory := b.memory.put addr value } { b' with memory := b'.memory.put addr value }
  clear : ∀ {b b'}, R b b' → R { b with display := b.display.clear } { b' with display := b'.display.clear }

section Parallel

variable {R : Board → Board → Prop} (h : Parallel R)

include h

/-! ## The single operations -/

theorem getV_agree (x : Register) : Agree R (getV x) (getV x) := by
  intro b b' hR
  show Alike R (.ok _ b) (.ok (b'.processor.v.get x) b')
  rw [h.processor hR]
  exact .ok _ hR

theorem getI_agree : Agree R getI getI := by
  intro b b' hR
  show Alike R (.ok _ b) (.ok b'.processor.i b')
  rw [h.processor hR]
  exact .ok _ hR

theorem onProcessor_agree (f : Processor → Processor) :
    Agree (ε := Fault) R (onProcessor (modify f)) (onProcessor (modify f)) := by
  intro b b' hR
  show Alike R (.ok () _) (.ok () { b' with processor := f b'.processor })
  rw [h.processor hR]
  exact .ok () (h.compute (f b.processor) hR)

theorem setV_agree (x : Register) (value : Byte) : Agree R (setV x value) (setV x value) :=
  onProcessor_agree h _

theorem setI_agree (value : Int) : Agree R (setI value) (setI value) := onProcessor_agree h _

theorem writeByte_agree (addr : Int) (value : Byte) : Agree R (writeByte addr value) (writeByte addr value) := by
  intro b b' hR
  have hcovers := Memory.covers_congr (h.size hR) addr 1
  by_cases hc : b.memory.Covers addr 1
  · simp only [writeByte, onMemory, Memory.write, hc, hcovers.mpr hc, if_true]
    exact .ok () (h.write addr value hR hc)
  · simp only [writeByte, onMemory, Memory.write, hc, mt hcovers.mp hc, if_false]
    exact .error _ hR

theorem skipIf_agree (condition : Bool) : Agree R (skipIf condition) (skipIf condition) := by
  intro b b' hR
  show Alike R (.ok _ b) (.ok (if condition then some (b'.processor.pc + 4) else none) b')
  rw [h.processor hR]
  exact .ok _ hR

theorem call_agree (target : Address) : Agree R (call target) (call target) := by
  intro b b' hR
  rw [call_eq, call_eq, h.processor hR]
  cases b.processor.limitReached? with
  | some limit => exact .error _ hR
  | none => exact .ok _ (h.compute _ hR)

theorem ret_agree : Agree R ret ret := by
  intro b b' hR
  rw [ret_eq, ret_eq, h.processor hR]
  cases b.processor.stack with
  | nil => exact .error _ hR
  | cons caller rest => exact .ok _ (h.compute _ hR)

/-! ## Blocks of memory -/

theorem addIndex_agree (x : Register) : Agree R (addIndex x) (addIndex x) := by
  refine (getI_agree h).bind fun _ => (getV_agree h x).bind fun _ => ?_
  exact (setV_agree h _ _).bind fun _ => setI_agree h _

theorem storeDigits_agree (x : Register) : Agree R (storeDigits x) (storeDigits x) := by
  refine (getV_agree h x).bind fun value => ?_
  refine (getI_agree h).bind fun _ => (writeByte_agree h _ _).bind fun _ => ?_
  refine (getI_agree h).bind fun _ => (writeByte_agree h _ _).bind fun _ => ?_
  exact (getI_agree h).bind fun _ => writeByte_agree h _ _

theorem storeRegisters_agree (x : Register) : Agree R (storeRegisters x) (storeRegisters x) := by
  refine Agree.forM _ fun r _ => (getI_agree h).bind fun _ => (getV_agree h r).bind fun _ => ?_
  refine (writeByte_agree h _ _).bind fun _ => ?_
  exact (getI_agree h).bind fun _ => setI_agree h _

/-! ## Instructions -/

omit h in
theorem proceed_alike {act act' : EStateM Fault Board Unit} {b b' : Board} (hact : Alike R (act b) (act' b')) :
    Alike R (proceed act b) (proceed act' b') :=
  hact.bind fun _ _ _ _ hR => .ok none hR

/-- An instruction ends alike on two boards if it does so when it is one that reads memory. -/
theorem execute_alike {i : Instruction} {b b' : Board} (hR : R b b')
    (hdraw : ∀ x y rows, i.operation = .draw x y rows → Alike R (draw x y rows b) (draw x y rows b'))
    (hload : ∀ x, i.operation = .loadRegisters x → Alike R (loadRegisters x b) (loadRegisters x b')) :
    Alike R (execute i b) (execute i b') := by
  unfold execute
  generalize i.operation = operation at hdraw hload
  cases operation with
  | nop | jump _ => exact .ok _ hR
  | clear => exact .ok none (h.clear hR)
  | ret => exact ret_agree h _ _ hR
  | call target => exact call_agree h target _ _ hR
  | skipIfByte x value | skipUnlessByte x value =>
      exact (getV_agree h x).bind (fun _ => skipIf_agree h _) _ _ hR
  | skipIfSame x y =>
      exact (getV_agree h x).bind (fun _ => (getV_agree h y).bind fun _ => skipIf_agree h _) _ _ hR
  | loadByte x value => exact proceed_alike (setV_agree h x value _ _ hR)
  | addByte x value => exact proceed_alike ((getV_agree h x).bind (fun _ => setV_agree h x _) _ _ hR)
  | setIndex target => exact proceed_alike (setI_agree h _ _ _ hR)
  | draw x y rows => exact proceed_alike (hdraw x y rows rfl)
  | addIndex x => exact proceed_alike (addIndex_agree h x _ _ hR)
  | pointGlyph x => exact proceed_alike ((getV_agree h x).bind (fun _ => setI_agree h _) _ _ hR)
  | storeDigits x => exact proceed_alike (storeDigits_agree h x _ _ hR)
  | storeRegisters x => exact proceed_alike (storeRegisters_agree h x _ _ hR)
  | loadRegisters x => exact proceed_alike (hload x rfl)
  | native _ | readDelay _ | waitKey _ | setDelay _ | setSound _ | unknown _ => exact .error _ hR

end Parallel

end Board

/-! ## Cycles -/

namespace Machine

/-- Machines that differ in their boards only, and these are related. -/
structure OnBoards (R : Board → Board → Prop) (m m' : Machine) : Prop where
  boards : R m.board m'.board
  rest : m' = { m with board := m'.board }

variable {R : Board → Board → Prop} {m m' : Machine}

/-- A cycle goes alike on two machines that fetch the same and execute it alike, if commits keep how the boards are
related then. -/
theorem cycle_alike_of_execute (hrest : m' = { m with board := m'.board }) (hpc : m'.pc = m.pc)
    (hfetch : m'.board.memory.fetch m.pc = m.board.memory.fetch m.pc)
    (hunfetched : ∀ fault, m.board.memory.fetch m.pc = .error fault → R m.board m'.board)
    (hexec : ∀ i, m.board.memory.fetch m.pc = .ok i →
      Alike R (Board.execute i m.board) (Board.execute i m'.board))
    (hcommit : ∀ b b' next, R b b' →
      R { b with processor.pc := next % 65536 } { b' with processor.pc := next % 65536 }) :
    Alike (OnBoards R) (cycle m) (cycle m') := by
  have hincident : ∀ fault i, m'.incident fault i = m.incident fault i := by
    intro fault i
    rw [incident, incident, hpc, hrest]
  rw [← hpc] at hfetch
  cases hf : m.board.memory.fetch m.pc with
  | error fault =>
      rw [cycle_of_unfetched hf, cycle_of_unfetched (hfetch.trans (hpc ▸ hf)), hincident, hpc, hrest]
      exact .error _ ⟨hcommit _ _ _ (hunfetched fault hf), rfl⟩
  | ok i =>
      have hf' : m'.board.memory.fetch m'.pc = .ok i := hfetch.trans (hpc ▸ hf)
      have halike := hexec i hf
      generalize he : Board.execute i m.board = r at halike
      generalize he' : Board.execute i m'.board = r' at halike
      cases halike with
      | @ok next board board' hR =>
          rw [cycle_of_done hf he, cycle_of_done hf' he', hpc, hrest]
          exact .ok i ⟨hcommit _ _ _ hR, rfl⟩
      | @error fault board board' hR =>
          by_cases hs : fault.recoverable = true → ¬ fault.Tellable
          · rw [cycle_of_struck hf he hs, cycle_of_struck hf' he' hs, hincident, hpc, hrest]
            exact .error _ ⟨hcommit _ _ _ hR, rfl⟩
          · obtain ⟨hr, ht⟩ := Classical.not_imp.mp hs
            rw [not_not] at ht
            rw [cycle_of_recovered hf he hr ht, cycle_of_recovered hf' he' hr ht, hincident, hpc, hrest]
            exact .ok i ⟨hcommit _ _ _ hR, rfl⟩

variable (h : Board.Parallel R)

include h

theorem pc_of_onBoards (hm : OnBoards R m m') : m'.pc = m.pc := congrArg Processor.pc (h.processor hm.boards)

theorem cycle_alike (hm : OnBoards R m m')
    (hfetch : m'.board.memory.fetch m.pc = m.board.memory.fetch m.pc)
    (hexec : ∀ i, m.board.memory.fetch m.pc = .ok i →
      Alike R (Board.execute i m.board) (Board.execute i m'.board)) :
    Alike (OnBoards R) (cycle m) (cycle m') := by
  refine cycle_alike_of_execute hm.rest (pc_of_onBoards h hm) hfetch (fun _ _ => hm.boards) hexec fun b b' next hR => ?_
  rw [h.processor hR]
  exact h.compute _ hR

end Machine

/-! ## Runs -/

namespace Run

open Machine (OnBoards cycle)

/-- Results that differ in the boards at the end only, and these are related. -/
structure Result.OnBoards (R : Board → Board → Prop) (r r' : Result) : Prop where
  final : Machine.OnBoards R r.final r'.final
  rest : r' = { r with final := r'.final }

variable {R : Board → Board → Prop} (h : Board.Parallel R) {o : Options}

include h

theorem row_of_onBoards {m m' : Machine} (hm : OnBoards R m m') (addr : Int) (i : Instruction) :
    row o addr i m' = row o addr i m := by
  have hcycles : m'.cycles = m.cycles := by rw [hm.rest]
  rw [row, row, h.processor hm.boards, hcycles]

/-- Loops from two machines come to the same if cycles go alike wherever the first of them comes to. -/
theorem loop_onBoards {P : Machine → Prop}
    (hcycle : ∀ m m', P m → OnBoards R m m' → Alike (OnBoards R) (cycle m) (cycle m'))
    {limit : Nat} {acc : List Row} {m m' : Machine} (hm : OnBoards R m m')
    (hP : ∀ k, m.cycles + k < (loop o limit acc m).steps → P (m.advance k)) :
    (loop o limit acc m).OnBoards R (loop o limit acc m') := by
  induction limit generalizing acc m m' with
  | zero => exact ⟨hm, rfl⟩
  | succ limit ih =>
      have hpc := Machine.pc_of_onBoards h hm
      have halike := hcycle m m' (hP 0 (cycles_lt_steps o limit acc m)) hm
      generalize hc : cycle m = r at halike
      generalize hc' : cycle m' = r' at halike
      cases halike with
      | error incident hm₁ =>
          rw [loop_of_error hc, loop_of_error hc']
          exact ⟨hm₁, rfl⟩
      | @ok i m₁ m₁' hm₁ =>
          have hcycles := Machine.cycles_of_cycle_ok hc
          rw [loop_of_ok hc] at hP ⊢
          rw [loop_of_ok hc', hpc, row_of_onBoards h hm₁]
          cases hj : o.stopOnSelfJump && i.jumpsTo m.pc with
          | true => exact ⟨hm₁, rfl⟩
          | false =>
              rw [hj, if_neg Bool.false_ne_true] at hP
              refine ih hm₁ fun k hk => ?_
              rw [← Machine.next_of_ok hc, ← Machine.advance_succ]
              exact hP (k + 1) (by omega)

end Run
end ChipEight
