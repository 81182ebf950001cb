import ChipEight.Proofs.Lemmas.Telling

/-!
# What a run begins with

A run begins with single values over its image over the font over zeros. If one of the three does not fit, the
run ends before its first cycle. Of a machine whose sizes cannot be had there is no run.
-/

namespace ChipEight

open Effect

namespace Run

variable {image : List Byte} {o : Options}

/-! ## The bytes that are loaded -/

/-- The byte that a run begins with at an address, as a number: the single value there modulo 256, or else the
byte of the image, or else of the font, or else zero. -/
def initialByte (image : List Byte) (o : Options) (addr : Int) : Int :=
  let value := (o.initialMemory.get? addr).map (· % 256)
  let program := Memory.blockByte? o.start image addr
  let font := if o.loadFont then Memory.blockByte? 0x50 Font.bytes addr else none
  (value.or ((program.or font).map fun b => (b.toNat : Int))).getD 0

theorem cell_fonted (hsize : 0 ≤ o.memorySize) (hf : o.loadFont = true → 160 ≤ o.memorySize) {addr : Int}
    (h : 0 ≤ addr) :
    (fonted o).board.memory.cell addr =
      (if o.loadFont then Memory.blockByte? 0x50 Font.bytes addr else none).getD 0 := by
  have hnew := size_fresh hsize
  have hzero : (Machine.new o.toConfig).board.memory.cell addr = 0 := Memory.cell_zeroed _ addr
  unfold fonted
  cases hl : o.loadFont with
  | false => exact hzero
  | true =>
      have hm := hf hl
      have hc : (Machine.new o.toConfig).board.memory.Covers Font.start Font.bytes.length :=
        ⟨by decide, by show (80 : Int) + (80 : Nat) ≤ _; omega⟩
      have hfont := Memory.cell_putAll hc h
      rw [hzero] at hfont
      exact hfont

theorem cell_loaded (hsize : 0 ≤ o.memorySize) (h : ¬ Unfit image o) {addr : Int} (ha : o.Inside addr) :
    ((loaded image o).board.memory.cell addr).toNat = initialByte image o addr := by
  obtain ⟨hf, hs, hm, -⟩ := not_unfit_iff.mp h
  have hc : (fonted o).board.memory.Covers o.start image.length := ⟨hs, by rw [size_fonted hsize]; exact hm⟩
  have hprogram : (imaged image o).board.memory.cell addr = _ := Memory.cell_putAll hc ha.1
  rw [cell_fonted hsize hf ha.1] at hprogram
  have hvalue : (loaded image o).board.memory.cell addr = _ :=
    Memory.cell_preset o.initialMemory ((covers_imaged_iff hsize).mpr ha)
  rw [hvalue, hprogram, initialByte]
  cases o.initialMemory.get? addr with
  | some value => exact toNat_ofInt value
  | none =>
      cases Memory.blockByte? o.start image addr with
      | some b => rfl
      | none => cases (if o.loadFont then Memory.blockByte? 0x50 Font.bytes addr else none) <;> rfl

/-! ## The first cycle, or none -/

/-- How a run ends that could not be loaded. -/
structure Unloaded (image : List Byte) (o : Options) (r : Result) : Prop where
  fault : ∃ fault, FirstMisfit image o fault ∧ r.fault = some (.reported fault.report)
  halted : r.halted = false
  steps : r.steps = 0
  trace : r.trace = []
  reports : r.final.log.reports = []
  processor : r.final.board.processor = .fresh o.start o.maxDepth
  display : r.final.board.display = .blank o.displayWidth o.displayHeight

theorem unloaded_of_misfit (hsize : 0 ≤ o.memorySize) {fault : Fault} (h : FirstMisfit image o fault) :
    Unloaded image o (result image o) := by
  obtain ⟨m, herror⟩ := load_of_misfit hsize h
  have hkeeps := load_keeps image o (.new o.toConfig)
  rw [herror] at hkeeps
  have hlog := congrArg (fun m => m.log.reports) hkeeps
  have hprocessor := congrArg (fun m => m.board.processor) hkeeps
  have hdisplay := congrArg (fun m => m.board.display) hkeeps
  have htold := told_of_refused hsize herror
  rw [result_of_refused herror] at htold ⊢
  exact {
    fault := ⟨fault, h, htold⟩, halted := rfl, steps := congrArg Machine.cycles hkeeps, trace := rfl
    reports := hlog, processor := hprocessor, display := hdisplay }

theorem Unloaded.told {r : Result} (h : Unloaded image o r) : r.fault ≠ some .unwritable := by
  obtain ⟨fault, -, hfault⟩ := h.fault
  rw [hfault]
  nofun

/-- A run that faults after it was loaded has begun a cycle. -/
theorem steps_ne_zero_of_fault {m : Machine} (hz : m.cycles = 0) {limit : Nat} {acc : List Row}
    (h : (loop o limit acc m).succeeded = false) : (loop o limit acc m).steps ≠ 0 := by
  cases hf : (loop o limit acc m).fault with
  | none => rw [Result.succeeded, hf] at h; cases h
  | some failure =>
      obtain ⟨k, -, hk, -⟩ := fault_of_loop hz hf
      omega

/-- If the font, the image or a single value does not fit, the run ends before its first cycle, with the fault of
the first of these that does not. Otherwise its first cycle finds each byte of memory as the last of these that has it
at its address, and the run does not end before it. There is a run only of a machine that can be built. -/
theorem run_begins_with_layers {room : Room} (image : List Byte) (hsize : 0 ≤ o.memorySize) :
    (o.toConfig.Buildable room →
      (Unfit image o → ∃ r, run image o room = .ok r ∧ Unloaded image o r) ∧
      (¬ Unfit image o → ∃ m, load image o (.new o.toConfig) = .ok () m ∧
        (∀ addr, o.Inside addr →
          Machine.Step.perform (.memory (.readByte addr)) m =
            .ok (.number (initialByte image o addr)) m) ∧
        (∀ r, run image o room = .ok r →
          r = loop o o.maxSteps.toNat [] m ∧ (r.succeeded = false → r.steps ≠ 0)) ∧
        (o.toConfig.Plain → ∃ r, run image o room = .ok r))) ∧
    (¬ o.toConfig.Buildable room → run image o room = .error .overflow ∨ run image o room = .error .noRoom) := by
  refine ⟨fun hbuild => ⟨fun hunfit => ?unfit, fun hfit => ?fit⟩, run_of_not_buildable image hsize⟩
  case unfit =>
    obtain ⟨fault, hmisfit⟩ := exists_firstMisfit hunfit
    have hunloaded := unloaded_of_misfit hsize hmisfit
    exact ⟨_, run_eq_ok.mpr ⟨⟨Machine.Config.check_eq_ok_iff.mpr hbuild, hunloaded.told⟩, rfl⟩, hunloaded⟩
  case fit =>
    have hload := load_of_fit hsize hfit
    refine ⟨_, hload, fun addr ha => ?_, fun r hr => ?_, fun hplain => ?_⟩
    · rw [← cell_loaded hsize hfit ha]
      refine Machine.perform_readByte ⟨ha.1, ?_⟩
      rw [size_loaded hsize]
      exact ha.2
    · obtain ⟨-, rfl⟩ := run_eq_ok.mp hr
      rw [result_of_loaded hload]
      exact ⟨rfl, steps_ne_zero_of_fault (cycles_of_loaded hload)⟩
    · exact ⟨_, run_of_plain image hbuild hplain⟩

/-- Two bytes of an image over the end of the font, and a single value over the second of them. -/
theorem run_begins_with_overlap :
    ∃ o r m, 0 ≤ o.memorySize ∧ run [0xAA, 0xBB] o = .ok r ∧ r = loop o o.maxSteps.toNat [] m ∧
      Machine.Step.perform (.memory (.readByte 0x9D)) m = .ok (.number 0xF0) m ∧
      Machine.Step.perform (.memory (.readByte 0x9E)) m = .ok (.number 0xAA) m ∧
      Machine.Step.perform (.memory (.readByte 0x9F)) m = .ok (.number 0xFF) m ∧
      Machine.Step.perform (.memory (.readByte 0xA0)) m = .ok (.number 0) m := by
  let o : Options := { memorySize := 0xA1, start := 0x9E, initialMemory := .ofList [(0x9F, -1)] }
  have hsize : 0 ≤ o.memorySize := by decide
  have hbuild : o.toConfig.Buildable .usual :=
    Machine.Config.check_eq_ok_iff.mp (Machine.Config.check_of_usual_display (by decide) rfl rfl)
  obtain ⟨hlayers, -⟩ := run_begins_with_layers [0xAA, 0xBB] hsize
  obtain ⟨m, -, hbytes, hloop, hruns⟩ := (hlayers hbuild).2 (not_unfit_iff.mpr (by decide))
  obtain ⟨r, hr⟩ := hruns (Machine.Config.plain_of_usual nofun rfl)
  exact ⟨o, r, m, hsize, hr, (hloop r hr).1, hbytes 0x9D (by decide), hbytes 0x9E (by decide),
    hbytes 0x9F (by decide), hbytes 0xA0 (by decide)⟩

/-- An image that begins before memory, and a size of memory that is not a number of 64 bits: there is no result
that could tell of the image. -/
theorem no_refusal_beyond_sixty_four_bits :
    Unfit [] { memorySize := 0x8000000000000000, displayWidth := 0, displayHeight := 0, start := -1
               loadFont := false } ∧
      run [] { memorySize := 0x8000000000000000, displayWidth := 0, displayHeight := 0, start := -1
               loadFont := false } = .error .overflow :=
  ⟨Or.inr (Or.inl (by decide)), rfl⟩

end Run
end ChipEight
