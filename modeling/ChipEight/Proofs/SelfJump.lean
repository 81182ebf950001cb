import ChipEight.Proofs.Lemmas.Loop
import ChipEight.Proofs.Lemmas.Sizes

/-!
# Jumps to themselves

A machine that has taken a jump to its own address is at rest: nothing changes any more but the count
of cycles. So a run that stops there loses nothing.
-/

namespace ChipEight

theorem Board.execute_jump {i : Instruction} {target : Address} (h : i.operation = .jump target)
    (b : Board) : execute i b = .ok (some target.val) b := by
  unfold execute
  rw [h]
  rfl

namespace Machine

/-- The machine is about to take the jump that it has just taken. -/
structure Resting (i : Instruction) (m : Machine) : Prop where
  fetched : m.board.memory.fetch m.pc = .ok i
  jumps : i.jumpsTo m.pc = true
  last : m.last = some i

variable {m m' : Machine} {i : Instruction}

theorem cycle_of_jump (hf : m.board.memory.fetch m.pc = .ok i) (hj : i.jumpsTo m.pc = true) :
    cycle m = .ok i { m with cycles := m.cycles + 1, last := some i } := by
  obtain ⟨target, ho, ht⟩ := Instruction.operation_of_jumpsTo hj
  have hpc : (target.val : Int) % 65536 = m.pc := by
    have := target.isLt
    omega
  rw [cycle_of_done hf (Board.execute_jump ho _)]
  simp only [Option.getD_some, commit, hpc]

theorem resting_of_jump (hc : cycle m = .ok i m') (hj : i.jumpsTo m.pc = true) :
    m'.Resting i ∧ m'.pc = m.pc := by
  have hf := fetch_of_cycle_ok hc
  rw [cycle_of_jump hf hj] at hc
  cases hc
  exact ⟨⟨hf, hj, rfl⟩, rfl⟩

theorem Resting.cycle (h : m.Resting i) : cycle m = .ok i { m with cycles := m.cycles + 1 } := by
  rw [cycle_of_jump h.fetched h.jumps, ← h.last]

end Machine

namespace Run

/-- Rows that follow a row and differ from it in nothing but their numbers. -/
def repeats (last : Row) (n : Nat) : List Row :=
  (List.range n).map fun k => { last with step := last.step + k + 1 }

@[simp] theorem length_repeats (last : Row) (n : Nat) : (repeats last n).length = n := by simp [repeats]

theorem repeats_succ (last : Row) (n : Nat) :
    repeats last (n + 1) =
      { last with step := last.step + 1 } :: repeats { last with step := last.step + 1 } n := by
  have hk : ∀ k, last.step + (k + 1) + 1 = last.step + 1 + k + 1 := by omega
  simp [repeats, List.range_succ_eq_map, hk]

variable {o : Options} {m : Machine} {i : Instruction}

/-- Unless it is to stop, a run goes on for ever from a machine at rest. -/
theorem onward_of_resting (h : m.Resting i) (hs : o.stopOnSelfJump = false) (n : Nat) :
    Onward o m (repeats (row o m.pc i m) n) { m with cycles := m.cycles + n } := by
  induction n generalizing m with
  | zero => exact .refl
  | succ n ih =>
      have hrest : Machine.Resting i { m with cycles := m.cycles + 1 } := ⟨h.1, h.2, h.3⟩
      have hn : m.cycles + (n + 1) = m.cycles + 1 + n := by omega
      rw [repeats_succ, hn]
      exact .cycle h.cycle (by rw [hs]; rfl) (ih hrest)

/-! ## Runs that stop and runs that do not -/

def Options.unstopped (o : Options) (n : Int) : Options :=
  { o with stopOnSelfJump := false, maxSteps := n }

theorem Onward.unstopped {rows : List Row} {m' : Machine} (h : Onward o m rows m') (n : Int) :
    Onward (o.unstopped n) m rows m' :=
  h.under (by intro hs; cases hs) fun _ _ _ => rfl

theorem kept_unstopped (n : Int) (rows : List Row) : kept (o.unstopped n) rows = kept o rows := rfl

theorem loop_unstopped (n : Int) (limit : Nat) (h : (loop o limit [] m).halted = false) :
    loop (o.unstopped n) limit [] m = loop o limit [] m := by
  obtain ⟨rows, m', left, hon, rfl, hend⟩ := loop_divides o limit [] m
  rw [loop_onward (hon.unstopped n)]
  generalize loop o (rows.length + left) [] m = r at hend h
  cases hend with
  | limit => simp [loop, kept_unstopped]
  | halt => cases h
  | fault hc => simp [loop_of_error hc, kept_unstopped]

/-- A run that a jump has ended leaves a machine at rest, after the cycle of its last row. -/
theorem resting_of_halted (n : Int) (limit : Nat) (h : (loop o limit [] m).halted = true) :
    ∃ rows i, (loop o limit [] m).final.Resting i ∧
      (loop o limit [] m).trace =
        kept o (rows ++ [row o (loop o limit [] m).final.pc i (loop o limit [] m).final]) ∧
      Onward (o.unstopped n) m
        (rows ++ [row o (loop o limit [] m).final.pc i (loop o limit [] m).final])
        (loop o limit [] m).final := by
  obtain ⟨rows, m', left, hon, rfl, hend⟩ := loop_divides o limit [] m
  generalize loop o (rows.length + left) [] m = r at hend h ⊢
  cases hend with
  | limit => cases h
  | fault => cases h
  | @halt m'' i _ hc _ hj =>
      obtain ⟨hrest, hpc⟩ := Machine.resting_of_jump hc hj
      refine ⟨rows, i, hrest, ?_, ?_⟩
      · simp [kept_append, hpc]
      · rw [hpc]
        exact (hon.unstopped n).append (.cycle hc rfl .refl)

/-- Taken on to `n` steps, a run that a jump has ended repeats its last row and changes nothing else. -/
theorem loop_goes_on (hz : m.cycles = 0) {limit : Nat} (h : (loop o limit [] m).halted = true) {n : Int}
    (hn : (loop o limit [] m).steps ≤ n) :
    ∃ rows last, (loop o limit [] m).trace = kept o (rows ++ [last]) ∧
      loop (o.unstopped n) n.toNat [] m =
        { final := { (loop o limit [] m).final with cycles := n.toNat }
          halted := false
          trace := kept o (rows ++ [last] ++ repeats last (n.toNat - (loop o limit [] m).steps))
          fault := none } := by
  obtain ⟨rows, i, hrest, htrace, hon⟩ := resting_of_halted n limit h
  generalize loop o limit [] m = r at *
  have hsteps : r.steps = rows.length + 1 := by
    have hc := hon.cycles
    rw [hz, List.length_append, List.length_singleton, Nat.zero_add] at hc
    exact hc
  have hcycles : r.final.cycles + (n.toNat - r.steps) = n.toNat := by
    change r.steps + _ = _
    omega
  have hon' := hon.append (onward_of_resting (o := o.unstopped n) hrest rfl (n.toNat - r.steps))
  have hwhole := loop_whole hon'
  have hlen : rows.length + 1 + (n.toNat - r.steps) = n.toNat := by omega
  rw [List.length_append, List.length_append, List.length_singleton, length_repeats, hlen, hcycles] at hwhole
  exact ⟨rows, row o r.final.pc i r.final, htrace, hwhole⟩

/-- Stopping at a jump to itself loses nothing. A run that was ended so could have gone on to any number
of steps, but nothing would have changed except the count of cycles, and its last row would have been
repeated; a run that was not is the same without the stop. -/
theorem stopping_at_self_jump_loses_nothing {image : List Byte} {o : Options} {room : Room} {r : Result}
    (hr : run image o room = .ok r) :
    (r.halted = true → ∀ n : Int, r.steps ≤ n → ∃ r',
      run image { o with stopOnSelfJump := false, maxSteps := n } room = .ok r' ∧
      r'.succeeded = true ∧ r'.halted = false ∧ r'.steps = n ∧ r'.fault = none ∧
      r'.final = { r.final with cycles := r'.steps } ∧
      (o.trace = true → ∃ last, r.trace.getLast? = some last ∧
        r'.trace = r.trace ++ repeats last (n.toNat - r.steps))) ∧
    (r.halted = false → run image { o with stopOnSelfJump := false } room = .ok r) := by
  obtain ⟨⟨hcheck, htold⟩, rfl⟩ := run_eq_ok.mp hr
  cases hl : load image o (.new o.toConfig) with
  | error fault m =>
      rw [result_of_refused hl] at htold ⊢
      exact ⟨fun h => (by cases h), fun _ => run_eq_ok.mpr ⟨⟨hcheck, htold⟩, result_of_refused hl⟩⟩
  | ok _ m =>
      have hz := cycles_of_loaded hl
      rw [result_of_loaded hl] at htold ⊢
      refine ⟨fun hh n hn => ?_, fun hh => ?_⟩
      · obtain ⟨rows, last, htrace, hgo⟩ := loop_goes_on hz hh hn
        have hrun := (result_of_loaded (o := o.unstopped n) hl).trans hgo
        refine ⟨_, run_eq_ok.mpr ⟨⟨hcheck, told_of_succeeded rfl⟩, hrun⟩, rfl, rfl, ?_, rfl, rfl,
          fun ht => ⟨last, ?_, ?_⟩⟩
        · show (n.toNat : Int) = n
          omega
        · simp [htrace, kept, ht]
        · rw [htrace]
          simp [kept, ht]
      · have hrun := result_of_loaded (o := o.unstopped o.maxSteps) hl
        exact run_eq_ok.mpr ⟨⟨hcheck, htold⟩, hrun.trans (loop_unstopped _ _ hh)⟩

/-- A run of two steps, which a jump to itself ends, and the same run without the stop: a constant is loaded
and then nothing changes any more. -/
theorem run_of_load_and_jump :
    ∃ r r', run [0x60, 0x05, 0x12, 0x02] { loadFont := false } = .ok r ∧
      (r.halted = true ∧ r.steps = 2) ∧
      run [0x60, 0x05, 0x12, 0x02] { loadFont := false, stopOnSelfJump := false, maxSteps := 5 } = .ok r' ∧
      r'.steps = 5 ∧ r'.final = { r.final with cycles := r'.steps } ∧
      ∃ last, r.trace.getLast? = some last ∧ r'.trace = r.trace ++ repeats last (5 - r.steps) := by
  let r := result [0x60, 0x05, 0x12, 0x02] { loadFont := false }
  have hr : run [0x60, 0x05, 0x12, 0x02] { loadFont := false } = .ok r :=
    run_eq_ok.mpr ⟨⟨Machine.Config.check_default _ _ _, by decide +kernel⟩, rfl⟩
  have hh : r.halted = true ∧ r.steps = 2 := by decide +kernel
  obtain ⟨r', hr', _, _, hsteps, _, hfinal, htrace⟩ :=
    (stopping_at_self_jump_loses_nothing hr).1 hh.1 5 (by rw [hh.2]; decide)
  exact ⟨r, r', hr, hh, hr', by exact_mod_cast hsteps, hfinal, htrace rfl⟩

end Run
end ChipEight
