import ChipEight.Proofs.Lemmas.History

/-!
# What failed launches leave

A launch that is refused or has nothing to read leaves the machine as it was. Once there is an image, the old
machine is gone: an image that does not fit leaves a new one, with no byte of the image in it. The console has
the name of the last file that it could read, also where the image in it did not fit.
-/

namespace ChipEight.Console

open Effect

variable {c c₀ : Console} {source : Source} {frequency : Int}

/-! ## New machines -/

/-- Nothing was ever done with the machine, but that it may have the font. -/
structure BrandNew (font : Bool) (m : Machine) : Prop where
  cycles : m.cycles = 0
  last : m.last = none
  log : m.log.reports = []
  processor : m.board.processor = .fresh Processor.programStart none
  width : m.board.display.width = Display.defaultWidth
  height : m.board.display.height = Display.defaultHeight
  dark : ∀ x y h, m.board.display.pixel x y h = false
  size : m.board.memory.size = Memory.defaultSize
  glyphs : font = true → ∀ (k : Nat) (h : k < Font.bytes.length), m.board.memory.cell (Font.start + k) = Font.bytes[k]
  zero : ∀ addr, 0 ≤ addr → (font = true → addr < Font.start ∨ Font.start + Font.bytes.length ≤ addr) →
    m.board.memory.cell addr = 0

theorem cell_prepared (font : Bool) {addr : Int} (h : 0 ≤ addr) :
    (Machine.prepared font).board.memory.cell addr =
      if font then (Memory.blockByte? Font.start Font.bytes addr).getD 0 else 0 := by
  cases font with
  | false => exact Memory.cell_zeroed _ addr
  | true =>
      have hcovers : (Machine.new {}).board.memory.Covers Font.start Font.bytes.length :=
        ⟨by decide, by rw [Machine.size_new]; decide⟩
      refine (Memory.cell_putAll hcovers h).trans ?_
      exact congrArg (Option.getD _) (Memory.cell_zeroed _ addr)

theorem brandNew_prepared (font : Bool) : BrandNew font (.prepared font) where
  cycles := by cases font <;> rfl
  last := by cases font <;> rfl
  log := by cases font <;> rfl
  processor := by cases font <;> rfl
  width := by cases font <;> rfl
  height := by cases font <;> rfl
  dark x y h := by cases font <;> simp [Machine.prepared, Machine.new, Display.blank, Display.pixel]
  size := by rw [Machine.size_prepared]; rfl
  glyphs hf k hk := by
    have haddr : 0 ≤ Font.start + (k : Int) := by show (0 : Int) ≤ 80 + k; omega
    rw [cell_prepared font haddr, hf, if_pos rfl, Memory.blockByte?, if_pos (by omega),
      show (Font.start + (k : Int) - Font.start).toNat = k by omega, List.getElem?_eq_getElem hk]
    rfl
  zero addr haddr hout := by
    rw [cell_prepared font haddr]
    cases font with
    | false => rfl
    | true =>
        rw [if_pos rfl, Memory.blockByte?]
        split
        · rename_i hstart
          have hend := (hout rfl).resolve_left (Int.not_lt.mpr hstart)
          rw [List.getElem?_eq_none (by omega)]
          rfl
        · rfl

/-! ## Names of files -/

/-- The names of the files that launches of a history have read. -/
def filesRead : List Step → Console → List String
  | [], _ => []
  | step :: steps, c =>
    (step.source?.bind (·.reads c)).toList ++ filesRead steps (stateOf (step.perform c))

theorem imageName_step (step : Step) (c : Console) :
    (stateOf (step.perform c)).imageName = (step.source?.bind (·.reads c)).or c.imageName := by
  cases hs : step.source? with
  | none => exact (Step.unlaunched hs c).imageName
  | some source => exact (Step.launched hs c).imageName

theorem imageName_after (steps : List Step) (c : Console) :
    (c.after steps).imageName = (filesRead steps c).getLast?.or c.imageName := by
  induction steps generalizing c with
  | nil => rfl
  | cons step steps ih =>
      rw [after_cons, ih, imageName_step, filesRead, List.getLast?_append, ← Option.or_assoc]
      cases step.source?.bind (·.reads c) <;> rfl

/-! ## Failed launches -/

theorem untouched_of_unread {fault : FileFault} (hb : source.brings c = .error fault) (watch : Watcher Note)
    (stopAfter : Int) : Untouched c (stateOf (launch watch stopAfter source c)) := by
  cases hr : c.running with
  | true =>
      rw [stateOf_launch_of_running hr]
      exact untouched_kept source c
  | false => exact (launch_of_unread watch stopAfter hr hb).2.1

/-- The three ways to fail leave three different consoles. A launch that is refused, or whose file cannot be read,
leaves the machine, the name, the frequency and the font as they were. A launch whose image does not fit leaves a
brand-new machine. After any history the name is that of the last file that a launch could read. -/
theorem leftovers_of_failed_launch {font : Bool} {directory : Directory}
    (hnew : Console.new frequency font directory = .ok c₀) (steps : List Step) :
    (∀ watch stopAfter source, (c₀.after steps).running = true →
      Untouched (c₀.after steps) (stateOf (launch watch stopAfter source (c₀.after steps)))) ∧
    (∀ watch stopAfter source fault, source.brings (c₀.after steps) = .error fault →
      Untouched (c₀.after steps) (stateOf (launch watch stopAfter source (c₀.after steps)))) ∧
    (∀ watch stopAfter source image offset, (c₀.after steps).running = false →
      source.brings (c₀.after steps) = .ok (image, offset) → ¬ Machine.Fits image offset →
      verdict (launch watch stopAfter source (c₀.after steps)) =
          .error (.reported (Machine.misfit image offset).report) ∧
        BrandNew (c₀.after steps).loadFont (stateOf (launch watch stopAfter source (c₀.after steps))).machine) ∧
    (c₀.after steps).imageName = (filesRead steps c₀).getLast? := by
  refine ⟨?_, fun watch stopAfter _ _ hb => untouched_of_unread hb watch stopAfter, ?_, ?_⟩
  · intro watch stopAfter source hrunning
    rw [stateOf_launch_of_running hrunning]
    exact untouched_kept source _
  · intro watch stopAfter source image offset hidle hb hfit
    obtain ⟨hverdict, hmachine⟩ := launch_of_misfit watch stopAfter hidle hb hfit
    rw [hmachine]
    exact ⟨hverdict, brandNew_prepared _⟩
  · obtain ⟨-, rfl⟩ := new_eq_ok.mp hnew
    rw [imageName_after]
    exact Option.or_none

theorem brings_of_absent {name : String} {path : List String} (hfind : c.directory.find name = .ok path)
    (hnone : c.directory.files.get? path = none) : (Source.file name none).brings c = .error .absent := by
  refine ofRead_eq_error.mpr ?_
  show c.directory.read name = _
  rw [Directory.read_of_found hfind, hnone]

/-- A file that does not fit, and then one that is not there. -/
def refusedSteps : List Step :=
  [.launch (.file "a" (some (List.replicate 4000 0))) 1 [], .request (.launch (.background "b" none))]

/-- The file that did not fit has left its name, and the next failures leave what they are to leave. -/
theorem leftovers_of_refused_file :
    ∃ c₀, Console.new 60 true = .ok c₀ ∧ (c₀.after refusedSteps).imageName = some "a" ∧
      Untouched (c₀.after refusedSteps)
        (stateOf (launch (attendAll []) 1 (.file "b" none) (c₀.after refusedSteps))) ∧
      BrandNew (c₀.after refusedSteps).loadFont
        (stateOf (launch (attendAll []) 1 (.image [0x12, 0x00] 4095) (c₀.after refusedSteps))).machine := by
  have hnew := new_of_positive (show (0 : Int) < 60 by decide) true
  obtain ⟨-, hunread, hmisfit, hname⟩ := leftovers_of_failed_launch hnew refusedSteps
  have hpast : ((fresh 60 true).after refusedSteps).running = false ∧
      (∃ path, ((fresh 60 true).after refusedSteps).directory.find "b" = .ok path ∧
        ((fresh 60 true).after refusedSteps).directory.files.get? path = none) ∧
      (filesRead refusedSteps (fresh 60 true)).getLast? = some "a" := by decide +kernel
  obtain ⟨path, hfind, hnone⟩ := hpast.2.1
  have hfit : ¬ Machine.Fits [0x12, 0x00] 4095 := by decide
  exact ⟨_, hnew, hname.trans hpast.2.2, hunread _ 1 _ _ (brings_of_absent hfind hnone),
    (hmisfit _ 1 _ _ _ hpast.1 rfl hfit).2⟩

/-- A name with a null character keeps the console running, so that an image that does not fit is not looked at, and
there is no new machine. -/
theorem no_new_machine_after_null_character :
    ∃ c₀ c, Console.new 60 true = .ok c₀ ∧ c = c₀.after [.launch (.file "a\x00b" none) 0 []] ∧
      ¬ Machine.Fits [0x12, 0x00] 4095 ∧
      outcomeOf (launch (attendAll []) 0 (.image [0x12, 0x00] 4095) c) =
        .error (.reported Fault.alreadyRunning.report) ∧
      ¬ BrandNew c.loadFont (stateOf (launch (attendAll []) 0 (.image [0x12, 0x00] 4095) c)).machine := by
  have hstuck : ((fresh 60 true).after [.launch (.file "a\x00b" none) 0 []]).running = true ∧
      ((fresh 60 true).after [.launch (.file "a\x00b" none) 0 []]).loadFont = true ∧
      ((fresh 60 true).after [.launch (.file "a\x00b" none) 0 []]).machine.board.memory.cell 80 = 0 := by
    decide +kernel
  refine ⟨_, _, new_of_positive (by decide) true, rfl, by decide, ?_, fun hbrand => ?_⟩
  · rw [launch_of_running hstuck.1]
    rfl
  · rw [stateOf_launch_of_running hstuck.1] at hbrand
    have hglyph : _ = (0xF0 : Byte) := hbrand.glyphs hstuck.2.1 0 (by decide)
    exact absurd (hglyph.symm.trans hstuck.2.2) (by decide)

end ChipEight.Console
