import ChipEight.Proofs.Lemmas.Loop
import ChipEight.Proofs.Lemmas.Sizes

/-!
# Traces

A trace tells of a run what shorter runs end with: row `k` shows the machine after `k` cycles. Keeping a
trace changes nothing else.
-/

namespace ChipEight.Run

variable {image : List Byte} {o : Options} {m m' : Machine} {rows : List Row}

/-! ## What rows show -/

/-- The row has the index, the registers and the stack of the machine. -/
structure Row.Shows (r : Row) (m : Machine) : Prop where
  index : r.index = m.board.processor.i
  registers : r.registers = some m.board.processor.v
  stack : r.stack = some m.board.processor.stack.reverse

theorem row_shows (hv : o.traceRegisters = true) (hs : o.traceStack = true) (addr : Int)
    (i : Instruction) (m : Machine) : (row o addr i m).Shows m := by
  constructor <;> simp [row, hv, hs]

theorem Onward.last_row (h : Onward o m rows m') (hr : rows ≠ []) :
    ∃ addr i, rows.getLast? = some (row o addr i m') := by
  induction h with
  | refl => exact absurd rfl hr
  | @cycle m m₁ m' i rows hc hj h ih =>
      cases rows with
      | nil => cases h; exact ⟨_, _, rfl⟩
      | cons r rows =>
          obtain ⟨addr, i, hlast⟩ := ih (List.cons_ne_nil _ _)
          exact ⟨addr, i, by rw [List.getLast?_cons_cons, hlast]⟩

theorem Onward.nil (h : Onward o m [] m') : m = m' := by
  cases h; rfl

/-! ## Runs cut short -/

/-- `r'` is the run `r` stopped after `k` of the cycles that have a row. -/
structure StoppedAt (r r' : Result) (k : Nat) : Prop where
  succeeded : r'.succeeded = true
  steps : r'.steps = k
  trace : r'.trace = r.trace.take k
  shown : ∃ row, r.trace[k - 1]? = some row ∧ row.Shows r'.final
  next : ∀ row, r.trace[k]? = some row → r'.final.pc = row.addr
  fault : k = r.trace.length → ∀ report, r.fault = some (.reported report) → r'.final.pc = report.addr
  halted : r'.halted = true ↔ k = r.trace.length ∧ r.halted = true

/-- The row that comes next in a trace tells where the machine is, also if it is the last row of a run
that a jump has ended. -/
theorem addr_of_next (ht : o.trace = true) {trace : List Row} {left : Nat} {r : Result} {next : Row}
    (h : Onward o m rows m') (hend : Ending o m' (trace ++ rows) left r)
    (hn : r.trace[trace.length]? = some next) : m.pc = next.addr := by
  cases h with
  | cycle =>
      cases hend <;> simp at hn <;> cases hn <;> rfl
  | refl =>
      cases hend with
      | limit | fault => simp at hn
      | halt => simp [kept, ht] at hn; cases hn; rfl

theorem Ending.trace_prefix {trace : List Row} {left : Nat} {r : Result}
    (h : Ending o m trace left r) : trace <+: r.trace := by
  cases h with
  | limit | fault => exact List.prefix_refl _
  | halt => exact List.prefix_append _ _

theorem stoppedAt_of_cut (ht : o.trace = true) (hv : o.traceRegisters = true)
    (hs : o.traceStack = true) (hz : m.cycles = 0) {trace : List Row} {m₁ : Machine} {left : Nat}
    {r : Result} (h₁ : Onward o m trace m₁) (hne : trace ≠ []) (h₂ : Onward o m₁ rows m')
    (hend : Ending o m' (trace ++ rows) left r) :
    StoppedAt r { final := m₁, halted := false, trace, fault := none } trace.length := by
  obtain ⟨rest, hrest⟩ := hend.trace_prefix
  rw [List.append_assoc] at hrest
  obtain ⟨addr, i, hlast⟩ := h₁.last_row hne
  have hpos : 0 < trace.length := List.length_pos_iff.mpr hne
  refine {
    succeeded := rfl, steps := ?steps, trace := ?trace
    shown := ⟨_, ?shown, row_shows hv hs addr i m₁⟩
    next := fun next hn => addr_of_next ht h₂ hend hn
    fault := ?fault, halted := ?halted }
  case steps =>
    have hsteps := h₁.cycles
    rw [hz, Nat.zero_add] at hsteps
    exact hsteps
  case trace => rw [← hrest, List.take_left]
  case shown => rw [← hrest, List.getElem?_append_left (by omega), ← List.getLast?_eq_getElem?, hlast]
  case fault =>
    intro hlen report hf
    cases hend with
    | limit | halt => cases hf
    | fault hc =>
        have hrows : rows = [] := List.eq_nil_of_length_eq_zero (by simpa using hlen)
        subst hrows
        cases h₂.nil
        rw [Incident.failure_eq_reported (Option.some.inj hf)]
        exact (Machine.addr_of_cycle_error hc).symm
  case halted =>
    constructor
    · intro h; cases h
    · rintro ⟨hlen, hh⟩
      cases hend with
      | limit | fault => cases hh
      | halt => simp [kept, ht] at hlen

theorem stoppedAt_of_halted (hv : o.traceRegisters = true) (hs : o.traceStack = true)
    (hz : m.cycles = 0) {i : Instruction} {m₁ : Machine}
    (h : Onward o m rows m₁) (hc : Machine.cycle m₁ = .ok i m') :
    StoppedAt { final := m', halted := true, trace := rows ++ [row o m₁.pc i m'], fault := none }
      { final := m', halted := true, trace := rows ++ [row o m₁.pc i m'], fault := none }
      (rows.length + 1) := by
  refine {
    succeeded := rfl, steps := ?steps, trace := ?trace
    shown := ⟨_, ?shown, row_shows hv hs m₁.pc i m'⟩
    next := ?next, fault := ?fault, halted := ?halted }
  case steps =>
    show m'.cycles = rows.length + 1
    rw [Machine.cycles_of_cycle_ok hc, h.cycles, hz, Nat.zero_add]
  case trace => exact (List.take_of_length_le (by simp)).symm
  case shown => simp
  case next => intro next hn; simp at hn
  case fault => intro _ report hf; cases hf
  case halted => simp

/-- A loop cut short ends with what the last row of its trace shows. -/
theorem stoppedAt_of_limit (ht : o.trace = true) (hv : o.traceRegisters = true)
    (hs : o.traceStack = true) (hz : m.cycles = 0) (limit k : Nat) (hk : 1 ≤ k)
    (hle : k ≤ (loop o limit [] m).trace.length) :
    StoppedAt (loop o limit [] m) (loop o k [] m) k := by
  have hkept : ∀ rows, kept o rows = rows := fun _ => if_pos ht
  obtain ⟨rows, m', left, hon, rfl, hend⟩ := loop_divides o limit [] m
  rw [List.reverse_nil, List.nil_append, hkept] at hend
  generalize loop o (rows.length + left) [] m = r at hend hle ⊢
  by_cases hcut : k ≤ rows.length
  · obtain ⟨m₁, h₁, h₂⟩ := hon.cut k hcut
    have hlen : (rows.take k).length = k := List.length_take_of_le hcut
    have hne : rows.take k ≠ [] := by
      intro h; rw [h] at hlen; simp at hlen; omega
    have hloop := loop_whole h₁
    rw [hlen, hkept] at hloop
    rw [← List.take_append_drop k rows] at hend
    have hstop := stoppedAt_of_cut ht hv hs hz h₁ hne h₂ hend
    rw [hlen] at hstop
    rw [hloop]
    exact hstop
  · -- Only the row of a jump that ended the run comes after the others.
    have hone := loop_onward hon 1 []
    cases hend with
    | limit | fault => exact absurd hle hcut
    | halt hc hstop hj =>
        rw [loop_of_ok hc, hstop, hj] at hone
        simp only [hkept, List.length_append, List.length_singleton] at hone hle ⊢
        have hlast : k = rows.length + 1 := by omega
        rw [hlast, hone]
        simpa using stoppedAt_of_halted hv hs hz hon hc

/-! ## What a trace costs -/

def Result.untraced (r : Result) : Result := { r with trace := [] }

theorem Result.eq_of_untraced {r r' : Result} (h : r'.untraced = r.untraced) :
    r' = { r with trace := r'.trace } := by
  cases r; cases r'
  simpa [untraced] using h

theorem loop_untraced {o' : Options} (hs : o'.stopOnSelfJump = o.stopOnSelfJump) (limit : Nat)
    (acc acc' : List Row) (m : Machine) :
    (loop o' limit acc' m).untraced = (loop o limit acc m).untraced := by
  induction limit generalizing acc acc' m with
  | zero => rfl
  | succ limit ih =>
      cases hc : Machine.cycle m with
      | error incident m' => rw [loop_of_error hc, loop_of_error hc]; rfl
      | ok i m' =>
          rw [loop_of_ok hc, loop_of_ok hc, hs]
          split
          · rfl
          · exact ih _ _ _

/-- What the trace of a run tells, row by row: the run that has `k` steps for its limit stops with what
row `k` shows, where row `k + 1` or the fault that came instead will strike. Whether a trace is kept,
and how much of each cycle, changes nothing else. -/
theorem trace_tells_shorter_runs {room : Room} {r : Result} (hr : run image o room = .ok r) :
    (o.trace = true → o.traceRegisters = true → o.traceStack = true →
      ∀ k : Nat, 1 ≤ k → k ≤ r.trace.length →
        ∃ r', run image { o with maxSteps := k } room = .ok r' ∧ StoppedAt r r' k) ∧
    ∀ trace traceRegisters traceStack : Bool,
      ∃ r', run image { o with trace, traceRegisters, traceStack } room = .ok r' ∧
        r' = { r with trace := r'.trace } := by
  obtain ⟨⟨hcheck, htold⟩, rfl⟩ := run_eq_ok.mp hr
  cases hl : load image o (.new o.toConfig) with
  | error fault m =>
      rw [result_of_refused hl] at htold ⊢
      constructor
      · intro _ _ _ k hk hle
        simp at hle
        omega
      · intro _ _ _
        exact ⟨_, run_eq_ok.mpr ⟨⟨hcheck, htold⟩, result_of_refused hl⟩, rfl⟩
  | ok _ m =>
      rw [result_of_loaded hl] at htold ⊢
      constructor
      · intro ht hv hs k hk hle
        have hrun := result_of_loaded (o := { o with maxSteps := k }) hl
        rw [loop_maxSteps, Int.toNat_natCast] at hrun
        have hstop := stoppedAt_of_limit ht hv hs (cycles_of_loaded hl) _ k hk hle
        exact ⟨_, run_eq_ok.mpr ⟨⟨hcheck, told_of_succeeded hstop.succeeded⟩, hrun⟩, hstop⟩
      · intro trace traceRegisters traceStack
        have hrun := result_of_loaded (o := { o with trace, traceRegisters, traceStack }) hl
        have huntraced : (loop { o with trace, traceRegisters, traceStack } o.maxSteps.toNat [] m).untraced =
            (loop o o.maxSteps.toNat [] m).untraced := loop_untraced (by rfl) _ _ _ _
        have hfault : (loop { o with trace, traceRegisters, traceStack } o.maxSteps.toNat [] m).fault = _ :=
          congrArg (fun r => r.fault) huntraced
        exact ⟨_, run_eq_ok.mpr ⟨⟨hcheck, hfault.trans_ne htold⟩, hrun⟩, Result.eq_of_untraced huntraced⟩

/-- A run of two steps stopped after the first of them, and the same run without a trace. -/
theorem trace_of_load_and_jump :
    ∃ r r' r'', run [0x60, 0x05, 0x12, 0x02]
        { loadFont := false, trace := true, traceRegisters := true, traceStack := true } = .ok r ∧
      r.trace.length = 2 ∧
      run [0x60, 0x05, 0x12, 0x02]
        { loadFont := false, trace := true, traceRegisters := true, traceStack := true
          maxSteps := 1 } = .ok r' ∧
      StoppedAt r r' 1 ∧
      run [0x60, 0x05, 0x12, 0x02]
        { loadFont := false, trace := false, traceRegisters := false, traceStack := false } = .ok r'' ∧
      r'' = { r with trace := r''.trace } := by
  let r := result [0x60, 0x05, 0x12, 0x02] { loadFont := false, traceRegisters := true, traceStack := true }
  have hr : run [0x60, 0x05, 0x12, 0x02]
      { loadFont := false, trace := true, traceRegisters := true, traceStack := true } = .ok r :=
    run_eq_ok.mpr ⟨⟨Machine.Config.check_default _ _ _, by decide +kernel⟩, rfl⟩
  have hlen : r.trace.length = 2 := by decide +kernel
  obtain ⟨hshort, huntraced⟩ := trace_tells_shorter_runs hr
  obtain ⟨r', hr', hstop⟩ := hshort rfl rfl rfl 1 (Nat.le_refl 1) (by rw [hlen]; decide)
  obtain ⟨r'', hr'', heq⟩ := huntraced false false false
  exact ⟨r, r', r'', hr, hlen, hr', hstop, hr'', heq⟩

end ChipEight.Run
