import ChipEight.Proofs.Lemmas.Console

/-!
# Bounded runs and consoles

A bounded run ends at its first fault, a console passes over all of them. Up to there both put a machine
through the same cycles, so that a console that is stopped where a bounded run ended shows the same.
-/

namespace ChipEight

namespace Console

variable {c : Console} {m : Machine} {image : List Byte}

/-- A quiet run of an image for `k` cycles comes to its end and leaves the machine `m`. -/
def Leaves (c : Console) (image : List Byte) (k : Int) (m : Machine) : Prop :=
  runQuietly image k c = .ok (.ending (.returned []))
    { c with machine := m, running := false, stopping := true }

theorem leaves_of_loaded (h : c.running = false) (hc : c.frequency < clockLimit)
    (hl : Machine.load image Processor.programStart (.prepared c.loadFont) = .ok () m) (k : Nat) :
    c.Leaves image k (m.advance k) :=
  runQuietly_of_loaded h hc hl k

/-- The console passes through the run `r`: stopped after as many cycles it has the machine of the run, and
one cycle sooner it is about to pass over the fault of the run. It does as many cycles as it is given. -/
structure Follows (c : Console) (image : List Byte) (r : Run.Result) : Prop where
  stopped : c.Leaves image r.steps r.final
  fault : ∀ failure, r.fault = some failure → ∃ k m, r.steps = k + 1 ∧ c.Leaves image k m ∧
    Machine.Step.perform .cycle m = .error failure r.final
  cycles : ∀ k : Nat, ∃ m, c.Leaves image k m ∧ m.cycles = k

theorem follows_of_loaded (h : c.running = false) (hc : c.frequency < clockLimit)
    (hl : Machine.load image Processor.programStart (.prepared c.loadFont) = .ok () m) (hz : m.cycles = 0)
    (o : Run.Options) (limit : Nat) : c.Follows image (Run.loop o limit [] m) where
  stopped := by
    rw [Run.final_of_loop hz]
    exact leaves_of_loaded h hc hl _
  fault failure hr := by
    obtain ⟨k, incident, hk, rfl, hcycle⟩ := Run.fault_of_loop hz hr
    exact ⟨k, m.advance k, hk, leaves_of_loaded h hc hl k, by rw [Machine.perform_cycle, hcycle]⟩
  cycles k := ⟨m.advance k, leaves_of_loaded h hc hl k, by rw [Machine.cycles_advance, hz, Nat.zero_add]⟩

/-- A console agrees with the bounded run of the same image: if the image fits, it passes through that run;
if not, both refuse the image alike. -/
theorem quiet_launch_agrees_with_bounded_run {room : Room} (image : List Byte) (maxSteps : Int)
    (stopOnSelfJump : Bool) (h : c.running = false) :
    ∃ r, Run.run image { maxSteps, loadFont := c.loadFont, stopOnSelfJump } room = .ok r ∧
      (Processor.programStart + image.length ≤ Memory.defaultSize → c.frequency < clockLimit →
        c.Follows image r) ∧
      (Memory.defaultSize < Processor.programStart + image.length →
        ∃ report, r.fault = some (.reported report) ∧ report.kind = .romTooLarge ∧
          ∀ k, runQuietly image k c = .error (.reported report)
            { c with machine := r.final, running := false, stopping := false }) := by
  have hload := Run.load_plain image maxSteps c.loadFont stopOnSelfJump
  have hcheck := Machine.Config.check_default room Processor.programStart none
  have hrun := Run.run_of_plain (o := { maxSteps, loadFont := c.loadFont, stopOnSelfJump }) image
    (Machine.Config.check_eq_ok_iff.mp hcheck) (Machine.Config.plain_of_usual nofun rfl)
  by_cases hfit : Processor.programStart + image.length ≤ Memory.defaultSize
  · obtain ⟨m, hl⟩ := Machine.load_prepared_of_fits hfit c.loadFont
    rw [hl] at hload
    rw [Run.result_of_loaded hload] at hrun
    exact ⟨_, hrun, fun _ hc => follows_of_loaded h hc hl (Run.cycles_of_loaded hload) _ _,
      fun hlarge => absurd hfit (Int.not_le.mpr hlarge)⟩
  · have hl := Machine.load_prepared_of_too_large (Int.not_le.mp hfit) c.loadFont
    rw [hl] at hload
    rw [Run.result_of_refused hload] at hrun
    exact ⟨_, hrun, fun h => absurd h hfit, fun _ => ⟨_, rfl, rfl, runQuietly_of_refused h hl⟩⟩

/-- A jump past the end of memory, where the next fetch faults, on a console that has just been built. -/
theorem quiet_launch_of_jump_past_end :
    ∃ c r, Console.new 60 false = .ok c ∧ c.running = false ∧ c.frequency < clockLimit ∧
      Run.run [0x1F, 0xFF] { maxSteps := 10000, loadFont := c.loadFont, stopOnSelfJump := true } = .ok r ∧
      c.Follows [0x1F, 0xFF] r ∧ r.steps = 2 ∧ r.fault.isSome = true := by
  obtain ⟨r, hr, hfits, _⟩ :=
    quiet_launch_agrees_with_bounded_run (c := fresh 60 false) [0x1F, 0xFF] 10000 true rfl
  have hres := (Run.run_eq_ok.mp hr).2
  refine ⟨fresh 60 false, r, rfl, rfl, by decide +kernel, hr, hfits (by decide) (by decide +kernel), ?_⟩
  rw [← hres]
  decide +kernel

/-- A console whose clock has no period runs nothing, once the image is loaded. -/
theorem overflow_of_fresh {frequency : Int} (hc : clockLimit ≤ frequency) (font : Bool)
    {image : List Byte} (hfit : Processor.programStart + image.length ≤ Memory.defaultSize) (k : Int) :
    ∃ c', runQuietly image k (fresh frequency font) = .error .overflow c' ∧ c'.machine.cycles = 0 := by
  obtain ⟨m, hl⟩ := Machine.load_prepared_of_fits hfit font
  have hload := Run.load_plain image 0 font true
  rw [hl] at hload
  have hover := runQuietly_of_no_period (c := fresh frequency font) rfl hc hl k
  exact ⟨_, hover, Run.cycles_of_loaded hload⟩

/-- With a clock that is too fast to have a period a console does not agree: the run takes its one step. -/
theorem no_agreement_without_period :
    ∃ c r c', Console.new clockLimit false = .ok c ∧ c.running = false ∧
      Run.run [0x12, 0x00] { maxSteps := 10000, loadFont := c.loadFont, stopOnSelfJump := true } = .ok r ∧
      (r.steps = 1 ∧ r.fault = none) ∧
      Processor.programStart + ([0x12, 0x00] : List Byte).length ≤ Memory.defaultSize ∧
      runQuietly [0x12, 0x00] r.steps c = .error .overflow c' ∧ c'.machine.cycles = 0 := by
  have hnew := new_of_positive (show 0 < clockLimit by decide +kernel) false
  have hfit : Processor.programStart + ([0x12, 0x00] : List Byte).length ≤ Memory.defaultSize := by
    decide
  let r := Run.result [0x12, 0x00] { loadFont := false }
  obtain ⟨c', hover, hz⟩ := overflow_of_fresh (Int.le_refl clockLimit) false hfit r.steps
  have hend : r.steps = 1 ∧ r.fault = none := by decide +kernel
  have htold : r.fault ≠ some .unwritable := by rw [hend.2]; nofun
  have hrun := Run.run_eq_ok.mpr ⟨⟨Machine.Config.check_default .usual Processor.programStart none, htold⟩, rfl⟩
  exact ⟨fresh clockLimit false, r, c', hnew, rfl, hrun, hend, hfit, hover, hz⟩

end Console
end ChipEight
