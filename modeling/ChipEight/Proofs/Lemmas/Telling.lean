import ChipEight.Proofs.Lemmas.Loaded
import ChipEight.Proofs.Lemmas.Loop
import ChipEight.Proofs.Lemmas.Shape
import ChipEight.Proofs.Lemmas.Sizes
import ChipEight.Proofs.Lemmas.Sprite

/-!
# Faults that can be told

A number of a few digits can always be written. The other numbers in the faults that instructions raise are the limit
of the stack and the size of the display (`Board.Plain`), which no instruction changes. So if they can be written, every
fault can be told.
-/

namespace ChipEight

open Effect

namespace Numeral

theorem writable_of_lt {n : Int} (h : n.natAbs < Nat.pow 10 10) : Writable n := by
  have hdigits : 10 ≤ digitLimit := by decide
  unfold Writable
  generalize digitLimit = digits at hdigits ⊢
  exact Nat.lt_of_lt_of_le h (Nat.pow_le_pow_right (by decide) hdigits)

theorem writable_of_small {n : Int} (hlow : 0 ≤ n) (hhigh : n < 65536) : Writable n := by
  refine writable_of_lt ?_
  have hpow : Nat.pow 10 10 = 10000000000 := by decide
  omega

/-- The greatest number below zero that is too long to be written. -/
def unwritable : Int := -(Nat.pow 10 digitLimit : Nat)

theorem not_writable_unwritable : ¬ Writable unwritable := by
  have habs : unwritable.natAbs = Nat.pow 10 digitLimit := by rw [unwritable, Int.natAbs_neg, Int.natAbs_natCast]
  rw [Writable, habs]
  exact Nat.lt_irrefl _

theorem unwritable_nonpos : unwritable ≤ 0 := Int.neg_nonpos_of_nonneg (Int.natCast_nonneg _)

end Numeral

open Numeral (Writable writable_of_small)

namespace Board

variable {i : Instruction} {b b' : Board} {fault : Fault}

/-- The numbers that faults of the board are told with can be written. -/
structure Plain (b : Board) : Prop where
  limit : ∀ limit, b.processor.maxDepth = some limit → Writable limit
  width : Writable b.display.width
  height : Writable b.display.height

theorem plain_congr (hlimit : b'.processor.maxDepth = b.processor.maxDepth)
    (hextent : b'.display.extent = b.display.extent) (h : b.Plain) : b'.Plain where
  limit := by rw [hlimit]; exact h.limit
  width := by
    have hwidth : b'.display.width = b.display.width := congrArg Prod.fst hextent
    rw [hwidth]
    exact h.width
  height := by
    have hheight : b'.display.height = b.display.height := congrArg Prod.snd hextent
    rw [hheight]
    exact h.height

/-! ## Refusals -/

theorem Refuses.tellable_iff (h : b.Refuses i fault) :
    fault.Tellable ↔ ∀ limit, fault = .fullStack limit → Writable limit := by
  cases h with
  | unsupported => exact iff_of_true nofun nofun
  | emptyStack => exact iff_of_true nofun nofun
  | @fullStack limit =>
      have htellable : (Fault.fullStack limit).Tellable ↔ Writable limit := List.forall_mem_singleton
      rw [htellable]
      exact ⟨fun hlimit _ heq => Fault.fullStack.inj heq ▸ hlimit, fun hall => hall limit rfl⟩

theorem Refuses.tellable (h : b.Refuses i fault)
    (hlimit : ∀ limit, b.processor.maxDepth = some limit → Writable limit) : fault.Tellable := by
  refine h.tellable_iff.mpr fun limit heq => ?_
  subst heq
  cases h with
  | fullStack _ hd => exact hlimit limit hd

/-! ## Draws -/

/-- The point that a draw was refused is near the registers' values, so it can be told if the display can. -/
theorem tellable_of_draw (hd : i.family = 0xD) (h : execute i b = .error fault b') (hwidth : Writable b.display.width)
    (hheight : Writable b.display.height) : fault.Tellable := by
  have houtcome := outcomeOf_draw hd b
  rw [h] at houtcome
  cases hscan : (scan i b).findSome? (Access.fault? b) with
  | none => rw [hscan] at houtcome; cases houtcome
  | some found =>
      rw [hscan] at houtcome
      cases houtcome
      obtain ⟨access, hmem, hfault⟩ := List.exists_of_findSome?_eq_some hscan
      cases access with
      | read addr =>
          obtain ⟨-, rfl⟩ := Memory.fault?_eq_some_iff.mp hfault
          nofun
      | flip p =>
          obtain ⟨row, column, hrow, hcolumn, -, rfl⟩ := flip_mem_scan.mp hmem
          have hx := (b.processor.v.get i.x).toNat_lt
          have hy := (b.processor.v.get i.y).toNat_lt
          have hn := i.n.isLt
          obtain ⟨-, rfl⟩ : _ ∧ b.display.refusal _ _ = fault := by simpa [Access.fault?] using hfault
          simp only [Display.refusal, Fault.Tellable, Fault.numbers, List.forall_mem_cons, List.not_mem_nil,
            false_imp_iff, implies_true, and_true]
          exact ⟨writable_of_small (by omega) (by omega), writable_of_small (by omega) (by omega), hwidth, hheight⟩

/-! ## All instructions -/

theorem tellable_of_execute (hb : b.Plain) (h : execute i b = .error fault b') : fault.Tellable := by
  rcases refuses_of_execute h with href | hraised
  · exact href.tellable hb.limit
  · cases ho : i.operation with
    | draw => exact tellable_of_draw (Instruction.form_of_operation ho).1 h hb.width hb.height
    | _ =>
        rw [ho] at hraised
        exact Fault.OfMemory.tellable hraised

end Board

/-! ## Machines -/

namespace Machine

variable {m m' : Machine}

/-- No instruction changes the numbers that faults are told with. -/
theorem plain_next (h : m.board.Plain) : m.next.board.Plain := by
  have hextent : m.next.board.display.extent = m.board.display.extent :=
    congrArg (fun shape => shape.1.2) (shape_next m)
  exact Board.plain_congr (maxDepth_next m) hextent h

theorem plain_of_withoutMemory (h : m'.withoutMemory = m.withoutMemory) (hm : m.board.Plain) : m'.board.Plain :=
  Board.plain_congr (congrArg (fun m => m.board.processor.maxDepth) h)
    (congrArg (fun m => m.board.display.extent) h) hm

theorem tellable_of_cycle {incident : Incident} (hm : m.board.Plain) (h : cycle m = .error incident m') :
    incident.fault.Tellable := by
  cases Cycled.of_eq h with
  | unfetched => nofun
  | struck _ he => exact Board.tellable_of_execute hm he

section Untold

variable {i : Instruction} {fault : Fault} (hf : m.board.memory.fetch m.pc = .ok i) (hr : m.board.Refuses i fault)
  (ht : ¬ fault.Tellable)

include hf hr ht

/-- A refusal that cannot be told is raised, and nothing is logged. -/
theorem cycle_of_untold :
    cycle m = .error (m.incident fault (some i)) (commit (m.pc + 2) { m with last := some i }) :=
  cycle_of_struck hf (Board.execute_of_refuses hr) fun _ => ht

theorem next_of_untold : m.next = commit (m.pc + 2) { m with last := some i } :=
  next_of_error (cycle_of_untold hf hr ht)

theorem log_next_of_untold : m.next.log = m.log := by
  rw [next_of_untold hf hr ht]
  rfl

theorem perform_cycle_of_untold : Step.perform .cycle m = .error .unwritable m.next := by
  have hfailure := Incident.failure_of_not_tellable (i := m.incident fault (some i)) ht
  rw [perform_cycle, next_of_untold hf hr ht, cycle_of_untold hf hr ht]
  exact congrArg (EStateM.Result.error · _) hfailure

end Untold

/-! ## A limit that cannot be written -/

/-- A machine at a call, whose stack has a limit that cannot be written and that is reached from the start. -/
def atUntoldCall : Machine :=
  (new { memorySize := 0x202, maxDepth := some Numeral.unwritable }).after [.load [0x22, 0x00] 0x200]

theorem reachable_atUntoldCall : atUntoldCall.Reachable := ⟨_, _, by decide, rfl⟩

theorem maxDepth_atUntoldCall : atUntoldCall.board.processor.maxDepth = some Numeral.unwritable := by decide +kernel

theorem fetch_atUntoldCall : atUntoldCall.board.memory.fetch atUntoldCall.pc = .ok (.ofBytes 0x22 0x00) :=
  Memory.fetch_of_cells (by decide +kernel) (by decide +kernel) (by decide +kernel)

theorem refuses_atUntoldCall : atUntoldCall.board.Refuses (.ofBytes 0x22 0x00) (.fullStack Numeral.unwritable) :=
  .fullStack (by decide) maxDepth_atUntoldCall (Int.le_trans Numeral.unwritable_nonpos (Int.natCast_nonneg _))

theorem not_tellable_atUntoldCall : ¬ (Fault.fullStack Numeral.unwritable).Tellable := fun h =>
  Numeral.not_writable_unwritable (refuses_atUntoldCall.tellable_iff.mp h _ rfl)

/-! ## Machines that are built -/

/-- The numbers that faults of a machine are told with can be written. -/
def Config.Plain (config : Config) : Prop := (new config).board.Plain

theorem Config.plain_of_usual {config : Config} (hdepth : ∀ limit, config.maxDepth = some limit → Writable limit)
    (hdisplay : (config.displayWidth, config.displayHeight) = (64, 32)) : config.Plain := by
  obtain ⟨hwidth, hheight⟩ := Prod.mk.inj hdisplay
  refine { limit := hdepth, width := ?_, height := ?_ }
  · show Writable config.displayWidth
    rw [hwidth]
    exact writable_of_small (by decide) (by decide)
  · show Writable config.displayHeight
    rw [hheight]
    exact writable_of_small (by decide) (by decide)

end Machine

/-! ## Runs -/

namespace Run

variable {image : List Byte} {o : Options} {m : Machine} {fault : Fault}

theorem FirstMisfit.tellable (h : FirstMisfit image o fault) : fault.Tellable := by
  cases h <;> nofun

theorem firstMisfit_of_load (hsize : 0 ≤ o.memorySize) (h : load image o (.new o.toConfig) = .error fault m) :
    FirstMisfit image o fault := by
  by_cases hunfit : Unfit image o
  · obtain ⟨fault', hmisfit⟩ := exists_firstMisfit hunfit
    obtain ⟨m', herror⟩ := load_of_misfit hsize hmisfit
    obtain ⟨rfl, -⟩ := EStateM.Result.error.inj (h.symm.trans herror)
    exact hmisfit
  · rw [load_of_fit hsize hunfit] at h
    cases h

theorem told_of_loop (hm : m.board.Plain) (limit : Nat) (acc : List Row) :
    (loop o limit acc m).fault ≠ some .unwritable := by
  induction limit generalizing acc m with
  | zero => nofun
  | succ limit ih =>
      cases hc : Machine.cycle m with
      | error incident m' =>
          rw [loop_of_error hc, Incident.failure_of_tellable (Machine.tellable_of_cycle hm hc)]
          nofun
      | ok i m' =>
          rw [loop_of_ok hc]
          split
          · nofun
          · refine ih ?_ _
            rw [← Machine.next_of_ok hc]
            exact Machine.plain_next hm

theorem told_of_refused (hsize : 0 ≤ o.memorySize) (h : load image o (.new o.toConfig) = .error fault m) :
    (result image o).fault = some (.reported fault.report) := by
  rw [result_of_refused h, Fault.failure_of_tellable (firstMisfit_of_load hsize h).tellable]

/-- Every fault of a run can be told if its limit of the stack and the size of its display can be written. -/
theorem told_of_plain (image : List Byte) (hsize : 0 ≤ o.memorySize) (h : o.toConfig.Plain) :
    (result image o).fault ≠ some .unwritable := by
  cases hload : load image o (.new o.toConfig) with
  | error fault m => rw [told_of_refused hsize hload]; nofun
  | ok _ m =>
      have hkeeps := load_keeps image o (.new o.toConfig)
      rw [hload] at hkeeps
      rw [result_of_loaded hload]
      exact told_of_loop (Machine.plain_of_withoutMemory hkeeps h) _ _

theorem run_of_plain {room : Room} (image : List Byte) (hbuild : o.toConfig.Buildable room)
    (hplain : o.toConfig.Plain) : run image o room = .ok (result image o) :=
  run_eq_ok.mpr
    ⟨⟨Machine.Config.check_eq_ok_iff.mpr hbuild, told_of_plain image hbuild.memory.1 hplain⟩, rfl⟩

theorem run_of_not_buildable {room : Room} (image : List Byte) (hsize : 0 ≤ o.memorySize)
    (h : ¬ o.toConfig.Buildable room) :
    run image o room = .error .overflow ∨ run image o room = .error .noRoom :=
  (Machine.Config.check_of_not_buildable hsize h).imp run_of_unchecked run_of_unchecked

end Run
end ChipEight
