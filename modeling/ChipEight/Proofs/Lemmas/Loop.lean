import ChipEight.Proofs.Lemmas.Cycle
import ChipEight.Proofs.Lemmas.Load

/-!
# The loop of a bounded run

A run is a stretch of cycles that all go on (`Onward`), and then one way to end (`Ending`). Every run
divides so (`loop_divides`), and what goes on can be taken off the front of a loop (`loop_onward`).
-/

namespace ChipEight.Run

open Machine (cycle)

/-- Cycles from `m` to `m'` after which the run goes on, with the row of each, oldest first. -/
inductive Onward (o : Options) : Machine → List Row → Machine → Prop
  | refl {m : Machine} : Onward o m [] m
  | cycle {m m₁ m' : Machine} {i : Instruction} {rows : List Row} (hc : cycle m = .ok i m₁)
      (hj : (o.stopOnSelfJump && i.jumpsTo m.pc) = false) (h : Onward o m₁ rows m') :
      Onward o m (row o m.pc i m₁ :: rows) m'

/-- The rows that the trace of a run keeps. -/
def kept (o : Options) (rows : List Row) : List Row := if o.trace then rows else []

/-- How a run ends at `m` that has `left` cycles left and the trace so far. -/
inductive Ending (o : Options) (m : Machine) (trace : List Row) : (left : Nat) → Result → Prop
  | limit : Ending o m trace 0 { final := m, halted := false, trace, fault := none }
  | halt {m' : Machine} {i : Instruction} {left : Nat} (hc : cycle m = .ok i m')
      (hs : o.stopOnSelfJump = true) (hj : i.jumpsTo m.pc = true) :
      Ending o m trace (left + 1)
        { final := m', halted := true, trace := trace ++ kept o [row o m.pc i m'], fault := none }
  | fault {m' : Machine} {incident : Incident} {left : Nat} (hc : cycle m = .error incident m') :
      Ending o m trace (left + 1)
        { final := m', halted := false, trace, fault := some incident.failure }

variable {o : Options} {m m' : Machine} {rows : List Row} {left : Nat} {r : Result}

/-! ## One pass of the loop -/

theorem loop_of_error {incident : Incident} (h : cycle m = .error incident m') (left : Nat)
    (acc : List Row) :
    loop o (left + 1) acc m =
      { final := m', halted := false, trace := acc.reverse, fault := some incident.failure } := by
  rw [loop, h]

theorem loop_of_ok {i : Instruction} (h : cycle m = .ok i m') (left : Nat) (acc : List Row) :
    loop o (left + 1) acc m =
      if o.stopOnSelfJump && i.jumpsTo m.pc then
        { final := m', halted := true, trace := acc.reverse ++ kept o [row o m.pc i m'], fault := none }
      else
        loop o left ((kept o [row o m.pc i m']).reverse ++ acc) m' := by
  rw [loop, h]
  cases ht : o.trace <;> simp [kept, ht]

/-! ## Whole runs -/

theorem kept_append (rows rows' : List Row) : kept o (rows ++ rows') = kept o rows ++ kept o rows' := by
  cases ht : o.trace <;> simp [kept, ht]

theorem kept_cons (r : Row) (rows : List Row) : kept o (r :: rows) = kept o [r] ++ kept o rows :=
  kept_append [r] rows

theorem loop_onward (h : Onward o m rows m') (left : Nat) (acc : List Row) :
    loop o (rows.length + left) acc m = loop o left ((kept o rows).reverse ++ acc) m' := by
  induction h generalizing acc with
  | refl => simp [kept]
  | @cycle _ _ _ _ rows hc hj _ ih =>
      rw [List.length_cons, Nat.add_right_comm, loop_of_ok hc, hj, if_neg Bool.false_ne_true, ih,
        kept_cons _ rows, List.reverse_append, List.append_assoc]

theorem loop_divides (o : Options) (limit : Nat) (acc : List Row) (m : Machine) :
    ∃ rows m' left, Onward o m rows m' ∧ limit = rows.length + left ∧
      Ending o m' (acc.reverse ++ kept o rows) left (loop o limit acc m) := by
  induction limit generalizing acc m with
  | zero => exact ⟨[], m, 0, .refl, rfl, by simpa [kept] using .limit⟩
  | succ limit ih =>
      cases hc : cycle m with
      | error incident m₁ =>
          rw [loop_of_error hc]
          exact ⟨[], m, limit + 1, .refl, (Nat.zero_add _).symm, by simpa [kept] using .fault hc⟩
      | ok i m₁ =>
          rw [loop_of_ok hc]
          cases hj : o.stopOnSelfJump && i.jumpsTo m.pc with
          | true =>
              obtain ⟨hs, hj⟩ := Bool.and_eq_true_iff.mp hj
              exact ⟨[], m, limit + 1, .refl, (Nat.zero_add _).symm, by simpa [kept] using .halt hc hs hj⟩
          | false =>
              obtain ⟨rows, m', left, hon, hl, hend⟩ :=
                ih ((kept o [row o m.pc i m₁]).reverse ++ acc) m₁
              refine ⟨row o m.pc i m₁ :: rows, m', left, .cycle hc hj hon, ?_, ?_⟩
              · rw [hl, List.length_cons]; omega
              · rw [kept_cons]
                simpa using hend

theorem Onward.append {m₁ : Machine} {rows₁ : List Row} (h : Onward o m rows m₁)
    (h₁ : Onward o m₁ rows₁ m') : Onward o m (rows ++ rows₁) m' := by
  induction h with
  | refl => exact h₁
  | cycle hc hj _ ih => exact .cycle hc hj (ih h₁)

theorem Onward.cycles (h : Onward o m rows m') : m'.cycles = m.cycles + rows.length := by
  induction h with
  | refl => rfl
  | cycle hc _ _ ih => rw [ih, Machine.cycles_of_cycle_ok hc, List.length_cons]; omega

/-- A stretch of a run is one under other options too, if they stop no sooner and note the same. -/
theorem Onward.under {o' : Options} (h : Onward o m rows m')
    (hs : o'.stopOnSelfJump = true → o.stopOnSelfJump = true)
    (hr : ∀ addr i m, row o' addr i m = row o addr i m) : Onward o' m rows m' := by
  induction h with
  | refl => exact .refl
  | @cycle m m₁ _ i _ hc hj _ ih =>
      rw [← hr]
      refine .cycle hc ?_ ih
      cases hs' : o'.stopOnSelfJump with
      | false => rfl
      | true => rw [hs hs'] at hj; exact hj

/-- The loop reads no more of its options than what stops it and what is noted. -/
theorem loop_congr {o' : Options} (hs : o'.stopOnSelfJump = o.stopOnSelfJump)
    (hk : ∀ rows, kept o' rows = kept o rows) (hr : ∀ addr i m, row o' addr i m = row o addr i m)
    (limit : Nat) (acc : List Row) (m : Machine) : loop o' limit acc m = loop o limit acc m := by
  induction limit generalizing acc m with
  | zero => rfl
  | succ limit ih =>
      cases hc : cycle m with
      | error incident m' => rw [loop_of_error hc, loop_of_error hc]
      | ok i m' => rw [loop_of_ok hc, loop_of_ok hc, ih, hs, hk, hr]

theorem loop_maxSteps (n : Int) (limit : Nat) (acc : List Row) (m : Machine) :
    loop { o with maxSteps := n } limit acc m = loop o limit acc m :=
  loop_congr (by rfl) (fun _ => by rfl) (fun _ _ _ => by rfl) limit acc m

theorem loop_initialMemory (values : Table Int Int) (limit : Nat) (acc : List Row) (m : Machine) :
    loop { o with initialMemory := values } limit acc m = loop o limit acc m :=
  loop_congr (by rfl) (fun _ => by rfl) (fun _ _ _ => by rfl) limit acc m

theorem Onward.cut (h : Onward o m rows m') (k : Nat) (hk : k ≤ rows.length) :
    ∃ m₁, Onward o m (rows.take k) m₁ ∧ Onward o m₁ (rows.drop k) m' := by
  induction h generalizing k with
  | refl => exact ⟨_, by simpa using .refl, by simpa using .refl⟩
  | cycle hc hj h ih =>
      cases k with
      | zero => exact ⟨_, .refl, .cycle hc hj h⟩
      | succ k =>
          obtain ⟨m₁, h₁, h₂⟩ := ih k (by simpa using hk)
          exact ⟨m₁, .cycle hc hj h₁, h₂⟩

theorem loop_whole (h : Onward o m rows m') :
    loop o rows.length [] m = { final := m', halted := false, trace := kept o rows, fault := none } := by
  have hl := loop_onward h 0 []
  simpa [loop] using hl

/-! ## A bounded run as a number of cycles -/

theorem Onward.advance (h : Onward o m rows m') : m' = m.advance rows.length := by
  induction h with
  | refl => rfl
  | cycle hc _ _ ih => rw [ih, List.length_cons, Machine.advance_succ, Machine.next_of_ok hc]

/-- Each row of a stretch tells of one cycle, which completed and did not end the run. -/
theorem Onward.row_at (h : Onward o m rows m') {k : Nat} (hk : k < rows.length) :
    ∃ i, Machine.cycle (m.advance k) = .ok i (m.advance (k + 1)) ∧
      (o.stopOnSelfJump && i.jumpsTo (m.advance k).pc) = false ∧
      rows[k]? = some (row o (m.advance k).pc i (m.advance (k + 1))) := by
  induction h generalizing k with
  | refl => cases hk
  | @cycle m m₁ m' i rows hc hj h ih =>
      have hnext := Machine.next_of_ok hc
      cases k with
      | zero =>
          have hone : m.advance 1 = m₁ := hnext
          rw [hone]
          exact ⟨i, hc, hj, rfl⟩
      | succ k =>
          rw [Machine.advance_succ, Machine.advance_succ, hnext]
          exact ih (Nat.lt_of_succ_lt_succ hk)

theorem final_of_loop (hz : m.cycles = 0) (limit : Nat) (acc : List Row) :
    (loop o limit acc m).final = m.advance (loop o limit acc m).steps := by
  suffices h : ∃ n, (loop o limit acc m).final = m.advance n by
    obtain ⟨n, hn⟩ := h
    rw [Result.steps, hn, Machine.cycles_advance, hz, Nat.zero_add]
  obtain ⟨rows, m', left, hon, rfl, hend⟩ := loop_divides o limit acc m
  have hm := hon.advance
  generalize loop o (rows.length + left) acc m = r at hend ⊢
  cases hend with
  | limit => exact ⟨rows.length, hm⟩
  | halt hc => exact ⟨rows.length + 1, by rw [Machine.advance_succ', ← hm, Machine.next_of_ok hc]⟩
  | fault hc => exact ⟨rows.length + 1, by rw [Machine.advance_succ', ← hm, Machine.next_of_error hc]⟩

theorem cycles_lt_steps (o : Options) (limit : Nat) (acc : List Row) (m : Machine) :
    m.cycles < (loop o (limit + 1) acc m).steps := by
  obtain ⟨rows, m', left, hon, hl, hend⟩ := loop_divides o (limit + 1) acc m
  have hn := hon.cycles
  generalize loop o (limit + 1) acc m = r at hend ⊢
  cases hend with
  | limit => show m.cycles < m'.cycles; omega
  | halt hc => rw [Result.steps, Machine.cycles_of_cycle_ok hc]; omega
  | fault hc => rw [Result.steps, Machine.cycles_of_cycle_error hc]; omega

/-- The fault that ends a run is that of its last cycle. -/
theorem fault_of_loop (hz : m.cycles = 0) {limit : Nat} {acc : List Row} {failure : Failure}
    (h : (loop o limit acc m).fault = some failure) :
    ∃ k incident, (loop o limit acc m).steps = k + 1 ∧ incident.failure = failure ∧
      cycle (m.advance k) = .error incident (loop o limit acc m).final := by
  obtain ⟨rows, m', left, hon, rfl, hend⟩ := loop_divides o limit acc m
  have hm := hon.advance
  have hn := hon.cycles
  generalize loop o (rows.length + left) acc m = r at hend h ⊢
  cases hend with
  | limit => cases h
  | halt => cases h
  | @fault m₁ incident _ hc =>
      cases h
      refine ⟨rows.length, incident, ?_, rfl, ?_⟩
      · rw [Result.steps, Machine.cycles_of_cycle_error hc, hn, hz, Nat.zero_add]
      · rw [← hm, hc]

/-! ## Rows and cycles -/

theorem length_kept (ht : o.trace = true) : (kept o rows).length = rows.length := by
  rw [kept, if_pos ht]

theorem getElem?_of_kept {k : Nat} {entry : Row} (h : (kept o rows)[k]? = some entry) :
    rows[k]? = some entry := by
  unfold kept at h
  split at h
  · exact h
  · simp at h

/-- Row `k + 1` of a trace tells of the cycle that follows `k` others. -/
theorem row_of_ending (hon : Onward o m rows m') (hend : Ending o m' (kept o rows) left r) {k : Nat}
    {entry : Row} (h : r.trace[k]? = some entry) :
    ∃ i, Machine.cycle (m.advance k) = .ok i (m.advance (k + 1)) ∧
      entry = row o (m.advance k).pc i (m.advance (k + 1)) := by
  have hshown : ∀ {k}, rows[k]? = some entry → ∃ i,
      Machine.cycle (m.advance k) = .ok i (m.advance (k + 1)) ∧
        entry = row o (m.advance k).pc i (m.advance (k + 1)) := by
    intro k hk
    obtain ⟨i, hc, -, hrow⟩ := hon.row_at (List.getElem?_eq_some_iff.mp hk).1
    rw [hk] at hrow
    exact ⟨i, hc, Option.some.inj hrow⟩
  cases hend with
  | limit | fault => exact hshown (getElem?_of_kept h)
  | @halt _ i _ hc =>
      rw [← kept_append] at h
      have hk := getElem?_of_kept h
      by_cases hlt : k < rows.length
      · rw [List.getElem?_append_left hlt] at hk
        exact hshown hk
      · -- the row of the jump that ended the run
        rw [List.getElem?_append_right (by omega)] at hk
        obtain ⟨hzero, hentry⟩ := List.getElem?_eq_some_iff.mp hk
        have heq : k = rows.length := by
          rw [List.length_singleton] at hzero
          omega
        subst heq
        rw [Machine.advance_succ', ← hon.advance, Machine.next_of_ok hc]
        exact ⟨i, hc, by simpa using hentry.symm⟩

theorem lt_length_of_ending (hz : m.cycles = 0) (ht : o.trace = true) (hon : Onward o m rows m')
    (hend : Ending o m' (kept o rows) left r) {k : Nat} (hk : k < r.steps) {i : Instruction}
    {m₁ : Machine} (hc : Machine.cycle (m.advance k) = .ok i m₁) : k < r.trace.length := by
  have hlength : (kept o rows).length = rows.length := length_kept ht
  have hn := hon.cycles
  cases hend with
  | limit =>
      change k < m'.cycles at hk
      show k < (kept o rows).length
      omega
  | halt hlast =>
      rw [Result.steps, Machine.cycles_of_cycle_ok hlast] at hk
      simp only [List.length_append, length_kept ht, List.length_singleton]
      omega
  | fault hlast =>
      rw [Result.steps, Machine.cycles_of_cycle_error hlast] at hk
      have hne : k ≠ rows.length := by
        rintro rfl
        rw [← hon.advance, hlast] at hc
        cases hc
      show k < (kept o rows).length
      omega

/-- If rows are kept, every cycle that completed has one. -/
theorem row_of_completed (hz : m.cycles = 0) (ht : o.trace = true) (hon : Onward o m rows m')
    (hend : Ending o m' (kept o rows) left r) {k : Nat} (hk : k < r.steps) {i : Instruction}
    {m₁ : Machine} (hc : Machine.cycle (m.advance k) = .ok i m₁) :
    r.trace[k]? = some (row o (m.advance k).pc i m₁) := by
  have hentry := List.getElem?_eq_getElem (lt_length_of_ending hz ht hon hend hk hc)
  obtain ⟨i', hc', hrow⟩ := row_of_ending hon hend hentry
  obtain ⟨rfl, rfl⟩ := EStateM.Result.ok.inj (hc'.symm.trans hc)
  rw [hentry, hrow]

/-! ## Runs -/

variable {image : List Byte}

theorem run_of_check {room : Room} (h : o.check room = .ok ()) :
    run image o room =
      if (result image o).fault = some .unwritable then .error .unwritable else .ok (result image o) := by
  unfold run
  rw [h]
  show (if (result image o).fault = some .unwritable then _ else _) = _
  split <;> rfl

theorem run_of_unchecked {room : Room} {failure : Failure} (h : o.check room = .error failure) :
    run image o room = .error failure := by
  unfold run
  rw [h]
  rfl

theorem run_eq_ok {room : Room} :
    run image o room = .ok r ↔ (o.check room = .ok () ∧ r.fault ≠ some .unwritable) ∧ result image o = r := by
  cases hc : o.check room with
  | error failure =>
      rw [run_of_unchecked hc]
      exact ⟨nofun, fun h => nomatch h.1.1⟩
  | ok =>
      rw [run_of_check hc]
      by_cases hu : (result image o).fault = some .unwritable
      · rw [if_pos hu]
        exact ⟨nofun, fun ⟨⟨_, htold⟩, heq⟩ => absurd (heq ▸ hu) htold⟩
      · rw [if_neg hu, Except.ok.injEq]
        exact ⟨fun heq => ⟨⟨rfl, heq ▸ hu⟩, heq⟩, fun h => h.2⟩

theorem told_of_succeeded (h : r.succeeded = true) : r.fault ≠ some .unwritable := by
  intro hfault
  rw [Result.succeeded, hfault] at h
  cases h

theorem result_of_loaded (h : load image o (.new o.toConfig) = .ok () m) :
    result image o = loop o o.maxSteps.toNat [] m := by
  rw [result, h]

theorem result_of_refused {fault : Fault} (h : load image o (.new o.toConfig) = .error fault m) :
    result image o = { final := m, halted := false, trace := [], fault := some fault.failure } := by
  rw [result, h]

theorem cycles_of_loaded (h : load image o (.new o.toConfig) = .ok () m) : m.cycles = 0 := by
  have hk := load_keeps image o (.new o.toConfig)
  rw [h] at hk
  exact congrArg Machine.cycles hk

theorem processor_of_loaded (h : load image o (.new o.toConfig) = .ok () m) :
    m.board.processor = .fresh o.start o.maxDepth := by
  have hk := load_keeps image o (.new o.toConfig)
  rw [h] at hk
  exact congrArg (fun m => m.board.processor) hk

/-- The result of a run that was loaded divides as its loop does. -/
theorem divides_of_loaded (h : load image o (.new o.toConfig) = .ok () m) :
    ∃ rows m' left, Onward o m rows m' ∧ o.maxSteps.toNat = rows.length + left ∧
      Ending o m' (kept o rows) left (result image o) := by
  rw [result_of_loaded h]
  exact loop_divides o o.maxSteps.toNat [] m

theorem final_of_loaded (h : load image o (.new o.toConfig) = .ok () m) :
    (result image o).final = m.advance (result image o).steps := by
  rw [result_of_loaded h]
  exact final_of_loop (cycles_of_loaded h) _ _

end ChipEight.Run
