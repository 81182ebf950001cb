import ChipEight.Proofs.Faults
import ChipEight.Proofs.Lemmas.Telling
import ChipEight.Proofs.SelfJump

/-!
# How a run can end

A run that was loaded ends at its limit, after a jump to itself, or with the fault of an access, and in one of
these ways only. It comes to such a result if its machine can be built and its faults can be told.
-/

namespace ChipEight.Run

variable {image : List Byte} {o : Options} {m m' : Machine} {rows : List Row} {left : Nat} {r : Result}

/-! ## The three ways -/

inductive Cause
  | limit
  | selfJump
  | fault
  deriving DecidableEq

/-- The cycle that follows `k` others is a jump to its own address. -/
def JumpsToSelf (m : Machine) (k : Nat) : Prop :=
  ∃ i, Machine.cycle (m.advance k) = .ok i (m.advance (k + 1)) ∧ i.tag = .jp ∧
    (i.nnn.val : Int) = (m.advance k).pc

structure AtLimit (o : Options) (r : Result) : Prop where
  succeeded : r.succeeded = true
  halted : r.halted = false
  steps : (r.steps : Int) = max o.maxSteps 0
  rows : o.trace = true → r.trace.length = r.steps

/-- The run ended after the first jump to itself. -/
structure AtSelfJump (o : Options) (m : Machine) (r : Result) : Prop where
  succeeded : r.succeeded = true
  halted : r.halted = true
  wanted : o.stopOnSelfJump = true
  jump : ∃ k, r.steps = k + 1 ∧ JumpsToSelf m k ∧ r.final.pc = (m.advance k).pc ∧
    ∀ j < k, ¬ JumpsToSelf m j
  rows : o.trace = true → r.trace.length = r.steps

structure AtFault (o : Options) (r : Result) : Prop where
  failed : r.succeeded = false
  halted : r.halted = false
  steps : 1 ≤ r.steps
  report : ∃ report, r.fault = some (.reported report) ∧
    (report.kind = .memoryAccess ∨ report.kind = .displayAccess) ∧ report.step = r.steps ∧
    r.final.pc = (report.addr + 2) % 65536 ∧ (report.word = none ↔ o.memorySize < report.addr + 2)
  rows : o.trace = true → r.trace.length = r.steps - 1

/-- A run that was loaded into `m` has ended so. -/
def Ended (o : Options) (m : Machine) (r : Result) : Cause → Prop
  | .limit => AtLimit o r
  | .selfJump => AtSelfJump o m r
  | .fault => AtFault o r

/-- What the result of a run tells of its cause. -/
def Result.cause (r : Result) : Cause :=
  if r.succeeded then (if r.halted then .selfJump else .limit) else .fault

theorem Ended.eq_cause {cause : Cause} (h : Ended o m r cause) : cause = r.cause := by
  cases cause with
  | limit => rw [Result.cause, h.succeeded, h.halted]; rfl
  | selfJump => rw [Result.cause, h.succeeded, h.halted]; rfl
  | fault => rw [Result.cause, h.failed]; rfl

theorem steps_le_of_ending (hz : m.cycles = 0) (hon : Onward o m rows m')
    (hend : Ending o m' (kept o rows) left r) : r.steps ≤ rows.length + left := by
  have hn := hon.cycles
  cases hend with
  | limit => show m'.cycles ≤ _; omega
  | halt hc => rw [Result.steps, Machine.cycles_of_cycle_ok hc]; omega
  | fault hc => rw [Result.steps, Machine.cycles_of_cycle_error hc]; omega

theorem atSelfJump_of_halt (hz : m.cycles = 0) (hon : Onward o m rows m') {i : Instruction}
    {m'' : Machine} (hc : Machine.cycle m' = .ok i m'') (hs : o.stopOnSelfJump = true)
    (hj : i.jumpsTo m'.pc = true) :
    AtSelfJump o m
      { final := m'', halted := true, trace := kept o rows ++ kept o [row o m'.pc i m''], fault := none } := by
  have hn := hon.cycles
  have hlast := hon.advance
  have hsteps : m''.cycles = rows.length + 1 := by
    rw [Machine.cycles_of_cycle_ok hc, hn, hz, Nat.zero_add]
  refine {
    succeeded := rfl, halted := rfl, wanted := hs
    jump := ⟨rows.length, hsteps, ?jumps, ?pc, ?first⟩, rows := ?rows }
  case jumps =>
    obtain ⟨ht, hnnn⟩ := Instruction.jumpsTo_iff.mp hj
    refine ⟨i, ?_, ht, by rw [← hlast]; exact hnnn⟩
    rw [Machine.advance_succ', ← hlast, Machine.next_of_ok hc]
    exact hc
  case pc => rw [← hlast]; exact (Machine.resting_of_jump hc hj).2
  case first =>
    rintro k hk ⟨i', hc', ht, hnnn⟩
    obtain ⟨i, hgoes, hj, -⟩ := hon.row_at hk
    rw [hc'] at hgoes
    cases hgoes
    rw [hs, Instruction.jumpsTo_iff.mpr ⟨ht, hnnn⟩] at hj
    cases hj
  case rows =>
    intro ht
    show (kept o rows ++ kept o [_]).length = m''.cycles
    rw [List.length_append, length_kept ht, length_kept ht, hsteps, List.length_singleton]

theorem pc_advance_nonneg (hp : 0 ≤ m.pc) (n : Nat) : 0 ≤ (m.advance n).pc := by
  cases n with
  | zero => exact hp
  | succ n => rw [Machine.advance_succ']; exact (Machine.pc_next_bounds _).1

theorem atFault_of_error (hz : m.cycles = 0) (hp : 0 ≤ m.pc)
    (hsize : (m.board.memory.size : Int) = o.memorySize) (hon : Onward o m rows m')
    {incident : Incident} {m'' : Machine} (hc : Machine.cycle m' = .error incident m'')
    (ht : incident.fault.Tellable) :
    AtFault o
      { final := m'', halted := false, trace := kept o rows, fault := some incident.failure } := by
  have hraised := Machine.raised_of_cycle_error hc ht
  have hsteps : m''.cycles = rows.length + 1 := by
    rw [Machine.cycles_of_cycle_error hc, hon.cycles, hz, Nat.zero_add]
  have hpc : 0 ≤ m'.pc := by rw [hon.advance]; exact pc_advance_nonneg hp _
  have hshape : m'.shape = m.shape := by rw [hon.advance, Machine.shape_advance]
  have hmemory : m'.board.memory.size = m.board.memory.size := congrArg (fun shape => shape.1.1) hshape
  refine {
    failed := rfl, halted := rfl, steps := ?steps
    report := ⟨incident.report, ?told, hraised.kind, hraised.step, ?pc, ?word⟩, rows := ?rows }
  case steps => show 1 ≤ m''.cycles; omega
  case told => exact congrArg some (Incident.failure_of_tellable ht)
  case pc => rw [hraised.addr]; exact hraised.pc
  case word =>
    rw [hraised.noWord, hraised.addr, hmemory, hsize]
    exact ⟨fun h => h.resolve_left (Int.not_lt.mpr hpc), Or.inr⟩
  case rows =>
    intro ht
    show (kept o rows).length = m''.cycles - 1
    rw [length_kept ht, hsteps, Nat.add_sub_cancel]

theorem ended_of_ending (hz : m.cycles = 0) (hp : 0 ≤ m.pc)
    (hsize : (m.board.memory.size : Int) = o.memorySize) (hon : Onward o m rows m')
    (hl : o.maxSteps.toNat = rows.length + left) (htold : r.fault ≠ some .unwritable)
    (hend : Ending o m' (kept o rows) left r) : ∃ cause, Ended o m r cause := by
  cases hend with
  | limit =>
      have hsteps : m'.cycles = rows.length := by rw [hon.cycles, hz, Nat.zero_add]
      refine ⟨.limit, { succeeded := rfl, halted := rfl, steps := ?_, rows := fun ht => ?_ }⟩
      · show (m'.cycles : Int) = _
        rw [hsteps, ← Int.toNat_eq_max, hl, Nat.add_zero]
      · exact (length_kept ht).trans hsteps.symm
  | halt hc hs hj => exact ⟨.selfJump, atSelfJump_of_halt hz hon hc hs hj⟩
  | @fault _ incident _ hc =>
      have ht : incident.fault.Tellable := Decidable.by_contra fun ht =>
        htold (congrArg some (Incident.failure_of_not_tellable ht))
      exact ⟨.fault, atFault_of_error hz hp hsize hon hc ht⟩

/-! ## Runs that were loaded -/

section Loaded

variable (hload : load image o (.new o.toConfig) = .ok () m)

include hload

theorem pc_of_loaded : m.pc = o.start := congrArg Processor.pc (processor_of_loaded hload)

theorem steps_le_of_loaded : ((result image o).steps : Int) ≤ max o.maxSteps 0 := by
  obtain ⟨rows, m', left, hon, hl, hend⟩ := divides_of_loaded hload
  have hle := steps_le_of_ending (cycles_of_loaded hload) hon hend
  rw [← Int.toNat_eq_max, hl]
  exact_mod_cast hle

theorem ended_of_loaded (hsize : 0 ≤ o.memorySize) (htold : (result image o).fault ≠ some .unwritable) :
    ∃! cause, Ended o m (result image o) cause := by
  obtain ⟨hfit, hloaded⟩ := fit_of_load hsize hload
  have hmemory : (m.board.memory.size : Int) = o.memorySize := by rw [hloaded, size_loaded hsize]
  have hstart : 0 ≤ m.pc := by rw [pc_of_loaded hload]; exact (not_unfit_iff.mp hfit).2.1
  obtain ⟨rows, m', left, hon, hl, hend⟩ := divides_of_loaded hload
  obtain ⟨cause, hended⟩ := ended_of_ending (cycles_of_loaded hload) hstart hmemory hon hl htold hend
  exact ⟨cause, hended, fun other hother => hother.eq_cause.trans hended.eq_cause.symm⟩

theorem row_of_loaded {k : Nat} {entry : Row} (h : (result image o).trace[k]? = some entry) :
    entry.step = k + 1 ∧ (k = 0 → entry.addr = o.start) := by
  obtain ⟨rows, m', left, hon, -, hend⟩ := divides_of_loaded hload
  obtain ⟨i, -, rfl⟩ := row_of_ending hon hend h
  refine ⟨?_, fun hfirst => ?_⟩
  · show (m.advance (k + 1)).cycles = k + 1
    rw [Machine.cycles_advance, cycles_of_loaded hload, Nat.zero_add]
  · subst hfirst
    exact pc_of_loaded hload

end Loaded

/-- A run that comes to a result does so within its limit. If its image was loaded, it ends in one way and in no
other. Its rows are numbered from one, and the first one is of the address where the run starts. -/
structure Settled (image : List Byte) (o : Options) (r : Result) : Prop where
  steps : (r.steps : Int) ≤ max o.maxSteps 0
  loaded : ∀ m, load image o (.new o.toConfig) = .ok () m →
    r.final = m.advance r.steps ∧ ∃! cause, Ended o m r cause
  rows : ∀ k entry, r.trace[k]? = some entry → entry.step = k + 1 ∧ (k = 0 → entry.addr = o.start)

theorem settled_of_run {room : Room} (h : run image o room = .ok r) : Settled image o r := by
  obtain ⟨⟨hcheck, htold⟩, rfl⟩ := run_eq_ok.mp h
  have hsize := (Machine.Config.check_eq_ok_iff.mp hcheck).memory.1
  cases hload : load image o (.new o.toConfig) with
  | ok _ m =>
      refine { steps := steps_le_of_loaded hload, loaded := ?_, rows := fun k entry => row_of_loaded hload }
      intro m' hload'
      obtain ⟨-, rfl⟩ := EStateM.Result.ok.inj (hload.symm.trans hload')
      exact ⟨final_of_loaded hload, ended_of_loaded hload hsize htold⟩
  | error fault m =>
      have hkeeps := load_keeps image o (.new o.toConfig)
      rw [hload] at hkeeps
      have hz : m.cycles = 0 := congrArg Machine.cycles hkeeps
      rw [result_of_refused hload]
      refine { steps := ?_, loaded := fun m' hload' => ?_, rows := fun k entry hk => by simp at hk }
      · show (m.cycles : Int) ≤ _
        rw [hz]
        exact Int.le_max_right _ _
      · rw [hload] at hload'
        cases hload'

/-- A run of a machine that can be built comes to a result if the limit of its stack and the size of its display can
be written. If its image was loaded, the result is of one of three kinds: the run ended at its limit, after the first
jump to itself, or with the fault of an access in its last cycle. A machine that cannot be built has no run. -/
theorem run_ends_in_one_way {room : Room} (image : List Byte) (hsize : 0 ≤ o.memorySize) :
    (o.toConfig.Buildable room →
      (o.toConfig.Plain → ∃ r, run image o room = .ok r) ∧ ∀ r, run image o room = .ok r → Settled image o r) ∧
    (¬ o.toConfig.Buildable room → run image o room = .error .overflow ∨ run image o room = .error .noRoom) :=
  ⟨fun hbuild => ⟨fun hplain => ⟨_, run_of_plain image hbuild hplain⟩, fun _ => settled_of_run⟩,
    run_of_not_buildable image hsize⟩

/-- A jump past the end of memory, where the next fetch faults. -/
theorem fault_ends_jump_past_end :
    ∃ o r m, 0 ≤ o.memorySize ∧ run [0x1F, 0xFF] o = .ok r ∧
      load [0x1F, 0xFF] o (.new o.toConfig) = .ok () m ∧ AtFault o r ∧ r.final = m.advance 2 := by
  let o : Options := { loadFont := false }
  have hsize : 0 ≤ o.memorySize := by decide
  have hbuild : o.toConfig.Buildable .usual := Machine.Config.check_eq_ok_iff.mp (Machine.Config.check_default _ _ _)
  obtain ⟨hruns, hsettled⟩ := (run_ends_in_one_way [0x1F, 0xFF] hsize).1 hbuild
  obtain ⟨r, hr⟩ := hruns (Machine.Config.plain_of_usual nofun rfl)
  have hload : load [0x1F, 0xFF] o (.new o.toConfig) = .ok () (loaded [0x1F, 0xFF] o) :=
    load_of_fit hsize (not_unfit_iff.mpr (by decide))
  obtain ⟨hfinal, cause, hended, -⟩ := (hsettled r hr).loaded _ hload
  have hresult : result [0x1F, 0xFF] o = r := (run_eq_ok.mp hr).2
  have hends : (result [0x1F, 0xFF] o).steps = 2 ∧ (result [0x1F, 0xFF] o).cause = .fault := by
    decide +kernel
  rw [hresult] at hends
  have hcause : cause = .fault := hended.eq_cause.trans hends.2
  subst hcause
  rw [hends.1] at hfinal
  exact ⟨o, r, _, hsize, hr, hload, hended, hfinal⟩

/-- A size of memory that is not a number of 64 bits, and then a width of rows, have no result. -/
theorem no_result_beyond_sixty_four_bits :
    run [] { memorySize := 0x8000000000000000, displayWidth := 0, displayHeight := 0, loadFont := false
             maxSteps := 0 } = .error .overflow ∧
      run [] { displayWidth := 0x8000000000000000, loadFont := false, maxSteps := 0 } = .error .overflow :=
  ⟨rfl, rfl⟩

end ChipEight.Run
