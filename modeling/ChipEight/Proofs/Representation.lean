import ChipEight.Proofs.Lemmas.Log
import ChipEight.Proofs.Lemmas.Shape

/-!
# What every machine looks like

Sixteen byte registers, as much memory and as many pixels as were asked for, and a log of at most 256
reports: no step changes that, whether it completes or fails. The index and the program counter stay
addresses of 16 bits, unless a step puts another integer there.
-/

namespace ChipEight

open Effect

theorem Display.length_rows (d : Display) : d.rows.length = d.height.toNat := by simp [rows]

theorem Display.length_row {d : Display} {row : List Bool} (h : row ∈ d.rows) :
    row.length = d.width.toNat := by
  obtain ⟨pixels, -, rfl⟩ := List.mem_map.mp h
  exact pixels.length_toList

/-! ## Addresses of 16 bits -/

/-- The index and the program counter are addresses of 16 bits. -/
structure Processor.InRange (p : Processor) : Prop where
  index : 0 ≤ p.i ∧ p.i < 65536
  pc : 0 ≤ p.pc ∧ p.pc < 65536

theorem mod_in_range (n : Int) : 0 ≤ n % 65536 ∧ n % 65536 < 65536 := by omega

theorem Board.execute_preserves_inRange (i : Instruction) :
    Preserves (fun b => b.processor.InRange) (execute i) := by
  refine execute_preserves i fun part _ => ?_
  cases part with
  | register | stack => exact fun _ _ hb => ⟨hb.index, hb.pc⟩
  | index => exact fun _ value hb => ⟨mod_in_range value, hb.pc⟩
  | memory => exact fun _ _ _ hb => hb
  | display => exact ⟨fun _ hb => hb, fun _ _ _ _ _ hb => hb⟩

/-- The steps that put any integer into the index or the program counter. -/
def Processor.Step.unmasked : Processor.Step → Bool
  | rawI _ | rawPc _ | reset _ => true
  | _ => false

theorem Processor.Step.perform_preserves_inRange {step : Processor.Step} (h : step.unmasked = false) :
    Preserves InRange step.perform := by
  intro p hp
  cases step with
  | setV index value =>
      rw [perform]
      cases register? index with
      | some x => exact ⟨hp.index, hp.pc⟩
      | none => exact hp
  | setI value => exact ⟨mod_in_range value, hp.pc⟩
  | push | setMaxDepth => exact ⟨hp.index, hp.pc⟩
  | flag => exact hp
  | rawI | rawPc | reset => cases h

namespace Machine

def Step.unmasked : Step → Bool
  | processor step => step.unmasked
  | _ => false

/-- The index, the program counter and the address where the machine starts are of 16 bits. -/
structure Masked (m : Machine) : Prop where
  processor : m.board.processor.InRange
  start : 0 ≤ m.start ∧ m.start < 65536

theorem inRange_next {m : Machine} (h : m.board.processor.InRange) : m.next.board.processor.InRange :=
  board_next (I := fun b => b.processor.InRange) Board.execute_preserves_inRange
    (fun _ addr hb => ⟨hb.index, mod_in_range addr⟩) h

theorem Step.perform_preserves_masked {step : Step} (h : step.unmasked = false) :
    Preserves Masked step.perform := by
  intro m hm
  generalize hs : stateOf (step.perform m) = m'
  cases hs ▸ stepped step m with
  | processor step => exact ⟨Processor.Step.perform_preserves_inRange h _ hm.processor, hm.start⟩
  | cycle => exact ⟨inRange_next hm.processor, by rw [start_next]; exact hm.start⟩
  | execute word => exact ⟨Board.execute_preserves_inRange _ _ hm.processor, hm.start⟩
  | reset => exact ⟨⟨mod_in_range 0, hm.start⟩, hm.start⟩
  | memory | display | loadFont | load | last | diagnostics => exact ⟨hm.processor, hm.start⟩

/-! ## All machines -/

/-- What a machine of a configuration looks like. -/
structure WellFormed (config : Config) (m : Machine) : Prop where
  registers : m.board.processor.v.toList.length = 16
  register : ∀ value ∈ m.board.processor.v.toList, value.toNat ≤ 255
  memory : (m.board.memory.snapshot.length : Int) = config.memorySize
  byte : ∀ value ∈ m.board.memory.snapshot, value.toNat ≤ 255
  size : Step.perform (.memory .size) m = .ok (.number config.memorySize) m
  rows : (m.board.display.rows.length : Int) = max config.displayHeight 0
  row : ∀ row ∈ m.board.display.rows, (row.length : Int) = max config.displayWidth 0
  log : m.log.reports.length ≤ 256

theorem wellFormed_of_shape {config : Config} (hc : 0 ≤ config.memorySize) {m : Machine}
    (hm : m.shape = (new config).shape) : WellFormed config m := by
  simp only [shape, Board.shape, Display.extent, Prod.mk.injEq] at hm
  obtain ⟨⟨hsize, hwidth, hheight⟩, -⟩ := hm
  have hmemory : (m.board.memory.size : Int) = config.memorySize := by
    rw [hsize, new, Memory.size_zeroed]
    omega
  refine {
    registers := m.board.processor.v.length_toList
    register := fun value _ => Nat.le_of_lt_succ value.toNat_lt
    memory := hmemory
    byte := fun value _ => Nat.le_of_lt_succ value.toNat_lt
    size := ?size, rows := ?rows, row := ?row, log := ?log }
  case size =>
    show EStateM.Result.ok (Reply.number m.board.memory.size) m = _
    rw [hmemory]
  case rows =>
    rw [Display.length_rows, hheight]
    exact Int.toNat_eq_max _
  case row =>
    intro row hrow
    rw [Display.length_row hrow, hwidth]
    exact Int.toNat_eq_max _
  case log =>
    rw [Log.length_reports]
    exact m.log.bounded

/-- No steps take a machine out of its shape, and none but those that are made for it take its index or its
program counter beyond 16 bits. -/
theorem after_wellFormed {config : Config} (hsize : 0 ≤ config.memorySize) (steps : List Step) :
    WellFormed config ((new config).after steps) ∧
      ((∀ step ∈ steps, step.unmasked = false) → 0 ≤ config.start ∧ config.start < 65536 →
        ((new config).after steps).board.processor.InRange) := by
  refine ⟨wellFormed_of_shape hsize ?_, fun hsteps hstart => ?_⟩
  · exact after_preserves (I := fun m => m.shape = (new config).shape)
      (fun step _ => keeps_iff.mp (Step.perform_keeps_shape step) _) rfl
  · have hnew : (new config).Masked := ⟨⟨mod_in_range 0, hstart⟩, hstart⟩
    exact (after_preserves (fun step hs => Step.perform_preserves_masked (hsteps step hs)) hnew).processor

/-- Four bytes of memory, two rows without a pixel, and steps most of which fail. -/
theorem after_failing_steps_wellFormed :
    ∃ config steps, 0 ≤ config.memorySize ∧ (∀ step ∈ steps, step.unmasked = false) ∧
      (0 ≤ config.start ∧ config.start < 65536) ∧ steps.length = 7 ∧
      WellFormed config ((new config).after steps) ∧ ((new config).after steps).board.processor.InRange := by
  let config : Config :=
    { memorySize := 4, displayWidth := -3, displayHeight := 2, start := 65535, maxDepth := some 0 }
  let steps : List Step :=
    [.memory (.writeBytes 3 [300, -1]), .display (.batch [.clear, .setPixel 0 0 true]),
      .processor (.setV 16 256), .cycle, .load [0xFF] (-1), .execute 0xF155, .reset]
  have hsize : 0 ≤ config.memorySize := by decide
  have hsteps : ∀ step ∈ steps, step.unmasked = false := by decide
  have hstart : 0 ≤ config.start ∧ config.start < 65536 := by decide
  obtain ⟨hshape, hrange⟩ := after_wellFormed hsize steps
  exact ⟨config, steps, hsize, hsteps, hstart, rfl, hshape, hrange hsteps hstart⟩

end Machine
end ChipEight
