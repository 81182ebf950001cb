import ChipEight.Proofs.Lemmas.Request

/-!
# Histories of a console

What a launch changes of the console outside its machine, whatever is asked of it meanwhile (`Launched`), and
what other steps change of it.
-/

namespace ChipEight.Console

open Effect

variable {c : Console} {source : Source} {step : Step} {watch : Watcher Note}

/-- The name of the file that a launch reads, if it is granted and there is something to read. -/
def Source.reads (source : Source) (c : Console) : Option String :=
  if c.running then none
  else match source.brings c with
    | .ok _ => source.named none
    | .error _ => none

/-- What a launch changes of the console outside its machine. -/
structure Launched (source : Source) (c c' : Console) : Prop where
  frequency : c'.frequency = c.frequency
  imageName : c'.imageName = (source.reads c).or c.imageName
  running : c'.running = true ↔ c.running = true ∨ source.Jams

/-- A file that was read has a name, so the name of the file before it is gone. -/
theorem named_of_brings {read : List Byte × Int} (h : source.brings c = .ok read) (before : Option String) :
    source.named before = (source.named none).or before := by
  obtain ⟨image, offset⟩ := read
  cases source with
  | image _ _ => rfl
  | file name _ | background name _ =>
      obtain ⟨step, hstep⟩ := Directory.lastStep_of_read (ofRead_eq_ok.mp h).1
      show Directory.lastStep name = (Directory.lastStep name).or before
      rw [hstep, Option.some_or]

theorem launched_of_running (h : c.running = true) : Launched source c (source.kept c) := by
  have hkept := untouched_kept source c
  refine { frequency := hkept.frequency, imageName := ?_, running := ?_ }
  · rw [Source.reads, if_pos h, Option.none_or]
    exact hkept.imageName
  · rw [kept_eq]
    exact iff_of_true h (.inl h)

theorem launched_of_unread {c' : Console} {fault : FileFault} (h : c.running = false)
    (hb : source.brings c = .error fault) (hsame : Untouched c c')
    (hjams : c'.running = true ↔ source.Jams) : Launched source c c' := by
  refine { frequency := hsame.frequency, imageName := ?_, running := ?_ }
  · rw [Source.reads, hb, if_neg (Bool.not_eq_true _ ▸ h), Option.none_or]
    exact hsame.imageName
  · rw [hjams, h]
    simp

theorem launch_leaves_of_brings (hwatch : Polite watch) (stopAfter : Int) {image : List Byte} {offset : Int}
    (h : c.running = false) (hb : source.brings c = .ok (image, offset)) :
    (stateOf (launch watch stopAfter source c)).running = false ∧
      (stateOf (launch watch stopAfter source c)).frequency = c.frequency ∧
      (stateOf (launch watch stopAfter source c)).imageName = source.named c.imageName := by
  obtain ⟨hrunning, hfrequency, hname⟩ :=
    runImage_leaves hwatch stopAfter image offset (running_entered source c)
  rw [launch_of_brings h hb, stateOf_conclude, running_back, frequency_back, imageName_back, hfrequency, hname,
    frequency_entered]
  exact ⟨hrunning, rfl, rfl⟩

theorem not_jams_of_brings {read : List Byte × Int} (h : source.brings c = .ok read) : ¬ source.Jams := by
  rcases prepare_cases source c with ⟨-, hiff⟩ | ⟨_, -, hb, -⟩
  · rw [hiff, h]
    nofun
  · rw [h] at hb
    cases hb

theorem launched_of_brings (hwatch : Polite watch) (stopAfter : Int) {read : List Byte × Int}
    (h : c.running = false) (hb : source.brings c = .ok read) :
    Launched source c (stateOf (launch watch stopAfter source c)) := by
  obtain ⟨hrunning, hfrequency, hname⟩ := launch_leaves_of_brings hwatch stopAfter h hb
  refine { frequency := hfrequency, imageName := ?_, running := ?_ }
  · rw [hname, Source.reads, if_neg (Bool.not_eq_true _ ▸ h), hb]
    exact named_of_brings hb c.imageName
  · rw [hrunning, h]
    simp [not_jams_of_brings hb]

/-- What a launch changes outside the machine, whatever its cues ask for. -/
theorem launched (hwatch : Polite watch) (stopAfter : Int) (source : Source) (c : Console) :
    Launched source c (stateOf (launch watch stopAfter source c)) := by
  cases hr : c.running with
  | true =>
      rw [stateOf_launch_of_running hr]
      exact launched_of_running hr
  | false =>
      cases hb : source.brings c with
      | error fault =>
          obtain ⟨-, hsame, hjams⟩ := launch_of_unread watch stopAfter hr hb
          exact launched_of_unread hr hb hsame hjams
      | ok read => exact launched_of_brings hwatch stopAfter hr hb

/-! ## Steps -/

/-- The source that a step launches, if it is a launch. -/
def Step.source? : Step → Option Source
  | .request (.launch source) => some source
  | .launch source _ _ => some source
  | _ => none

theorem Step.launched (h : step.source? = some source) (c : Console) :
    Launched source c (stateOf (step.perform c)) := by
  cases step with
  | launch _ stopAfter cues =>
      cases h
      rw [Step.perform, stateOf_bind_pure]
      exact Console.launched (polite_attendAll cues) stopAfter source c
  | request request =>
      cases request with
      | launch _ =>
          cases h
          rw [Step.perform, stateOf_bind_pure, Request.perform, stateOf_bind_pure]
          exact Console.launched polite_of_silent 0 source c
      | _ => cases h

/-- What a step keeps that is no launch. -/
structure Unlaunched (c c' : Console) : Prop where
  running : c'.running = c.running
  imageName : c'.imageName = c.imageName
  frequency : 0 < c.frequency → 0 < c'.frequency

theorem Step.unlaunched (h : step.source? = none) (c : Console) : Unlaunched c (stateOf (step.perform c)) := by
  cases step with
  | launch => cases h
  | request request =>
      rw [Step.perform, stateOf_bind_pure]
      generalize hs : stateOf (request.perform c) = c'
      cases hs ▸ requested request c with
      | launch => cases h
      | rate _ positive => exact ⟨rfl, rfl, fun _ => positive⟩
      | machine | font | stop | nothing => exact ⟨rfl, rfl, id⟩

/-- The console after steps in their order, whatever they gave. -/
def after (steps : List Step) (c : Console) : Console := (attempts Step.perform steps c).2

theorem after_cons (step : Step) (steps : List Step) (c : Console) :
    c.after (step :: steps) = (stateOf (step.perform c)).after steps := rfl

end ChipEight.Console
