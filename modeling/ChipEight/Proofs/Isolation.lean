import ChipEight.Proofs.Lemmas.History

/-!
# What a launch depends on

A launch begins with a new machine and forgets the requests to stop that came before it. So what becomes of an
image does not depend on the history of the console, nor on how the image came to it.
-/

namespace ChipEight.Console

open Effect

variable {α : Type} {c d : Console} {source other : Source} {cues : List Cue} {image : List Byte} {offset : Int}

/-! ## Consoles that a run cannot tell apart -/

structure Twins (c d : Console) : Prop where
  machine : c.machine = d.machine
  stopping : c.stopping = d.stopping
  clock : clockLimit ≤ c.frequency ↔ clockLimit ≤ d.frequency

theorem onMachine_twins (act : EStateM Failure Machine α) : Agree Twins (onMachine act) (onMachine act) := by
  intro c d h
  simp only [onMachine]
  rw [h.machine]
  cases act d.machine with
  | ok a m => exact .ok a ⟨rfl, h.stopping, h.clock⟩
  | error e m => exact .error e ⟨rfl, h.stopping, h.clock⟩

theorem checkClock_twins : Agree Twins checkClock checkClock := by
  intro c d h
  by_cases hc : clockLimit ≤ c.frequency
  · rw [checkClock_of_no_period hc, checkClock_of_no_period (h.clock.mp hc)]
    exact .error _ h
  · have hd := Int.not_le.mp fun hd => hc (h.clock.mpr hd)
    rw [checkClock_of_period (Int.not_le.mp hc), checkClock_of_period hd]
    exact .ok () h

theorem stop_twins : Agree Twins stop stop := fun _ _ h => .ok () ⟨h.machine, rfl, h.clock⟩

theorem steady_twins : Steady Twins where
  machine := onMachine_twins
  clock := checkClock_twins
  stop := stop_twins
  stopping _ _ h := h.stopping

/-! ## Cues about the machine -/

/-- The request is made of the machine, or it is to stop. -/
def Request.Plain : Request → Prop
  | .machine _ | .stop | .view => True
  | _ => False

def Cue.Plain (cue : Cue) : Prop := ∀ request ∈ cue.requests, request.Plain

theorem perform_twins {request : Request} (h : request.Plain) : Agree Twins request.perform request.perform := by
  cases request with
  | machine step => exact (onMachine_twins step.perform).bind fun reply => .pure _
  | stop => exact stop_twins.bind fun _ => .pure _
  | view =>
      intro c d h
      rw [Request.perform, get_bind, get_bind, h.machine]
      exact .ok _ h
  | frequency | setFrequency | setLoadFont | running | imageName | join | launch => cases h

theorem attendAll_twins (h : ∀ cue ∈ cues, cue.Plain) (done : Nat) :
    Agree Twins (attendAll cues done) (attendAll cues done) := by
  refine Agree.mapM _ fun cue hcue c d hR => ?_
  have hplain := h cue (List.mem_filter.mp hcue).1
  obtain ⟨hnote, hleft⟩ := Agree.attempts cue.requests (fun request hr => perform_twins (hplain request hr)) hR
  rw [attend_eq, attend_eq, hnote]
  exact .ok _ hleft

/-! ## Launches of one image -/

/-- What becomes of an image does not depend on the console nor on how the image came to it, as long as the consoles
want a font both or neither, and, where the image fits, the clocks have a period both or neither. Only a file gives its
name to the console. -/
theorem launches_of_one_image_agree (stopAfter : Int) (hc : c.running = false) (hd : d.running = false)
    (hfont : c.loadFont = d.loadFont)
    (hclock : Machine.Fits image offset → (clockLimit ≤ c.frequency ↔ clockLimit ≤ d.frequency))
    (hsource : source.brings c = .ok (image, offset)) (hother : other.brings d = .ok (image, offset))
    (hplain : ∀ cue ∈ cues, cue.Plain) :
    verdict (launch (attendAll cues) stopAfter source c) = verdict (launch (attendAll cues) stopAfter other d) ∧
      (stateOf (launch (attendAll cues) stopAfter source c)).machine =
        (stateOf (launch (attendAll cues) stopAfter other d)).machine ∧
      (stateOf (launch (attendAll cues) stopAfter source c)).imageName = source.named c.imageName ∧
      (stateOf (launch (attendAll cues) stopAfter other d)).imageName = other.named d.imageName := by
  have hnamed := (launch_leaves_of_brings (polite_attendAll cues) stopAfter hc hsource).2.2
  have hnamed' := (launch_leaves_of_brings (polite_attendAll cues) stopAfter hd hother).2.2
  suffices hends : _ ∧ _ from ⟨hends.1, hends.2, hnamed, hnamed'⟩
  by_cases hfit : Machine.Fits image offset
  · have htwins : Twins (source.entered c).renewed (other.entered d).renewed := by
      refine { machine := ?_, stopping := ?_, clock := ?_ }
      · show Machine.prepared (source.entered c).loadFont = .prepared (other.entered d).loadFont
        rw [loadFont_entered, loadFont_entered, hfont]
      · exact (stopping_entered source c).trans (stopping_entered other d).symm
      · show clockLimit ≤ (source.entered c).frequency ↔ clockLimit ≤ (other.entered d).frequency
        rw [frequency_entered, frequency_entered]
        exact hclock hfit
    obtain ⟨c', d', hleft, houtcome, hstate, hstate'⟩ :=
      runImage_agree steady_twins (attendAll_twins hplain) stopAfter image offset htwins
    obtain ⟨hverdict, hmachine⟩ := launch_like_run (attendAll cues) stopAfter hc hsource
    obtain ⟨hverdict', hmachine'⟩ := launch_like_run (attendAll cues) stopAfter hd hother
    rw [hverdict, hverdict', hmachine, hmachine', houtcome, hstate, hstate']
    exact ⟨rfl, hleft.machine⟩
  · obtain ⟨hverdict, hmachine⟩ := launch_of_misfit (attendAll cues) stopAfter hc hsource hfit
    obtain ⟨hverdict', hmachine'⟩ := launch_of_misfit (attendAll cues) stopAfter hd hother hfit
    rw [hverdict, hverdict', hmachine, hmachine', hfont]
    exact ⟨rfl, rfl⟩

/-- A past of a console: a file that was run at another frequency, an image that did not fit, requests to stop. -/
def pastSteps : List Step :=
  [.request .stop, .launch (.file "b" (some [0x00, 0xEE])) 3 [], .request (.setFrequency 500),
   .launch (.image (List.replicate 4000 0) Processor.programStart) 1 [], .request (.machine .reset), .request .stop]

/-- The past of a console makes no difference to a jump to itself that is stopped at its second cycle, after a reset. -/
theorem launches_after_past_agree :
    let past := (fresh 60 true).after pastSteps
    let cues : List Cue := [⟨0, [.machine .reset]⟩, ⟨1, [.stop]⟩]
    let given := launch (attendAll cues) 5 (.image [0x12, 0x00] Processor.programStart) (fresh 60 true)
    let filed := launch (attendAll cues) 5 (.background "a" (some [0x12, 0x00])) past
    past.running = false ∧ past.imageName = some "b" ∧ verdict given = verdict filed ∧
      (stateOf given).machine = (stateOf filed).machine ∧ (stateOf given).imageName = none ∧
      (stateOf filed).imageName = some "a" := by
  intro past cues given filed
  have hpast : past.running = false ∧ past.loadFont = true ∧ ¬ clockLimit ≤ past.frequency ∧
      past.imageName = some "b" ∧ ∃ path, past.directory.find "a" = .ok path ∧ path = ["a"] := by decide +kernel
  obtain ⟨path, hpath, -⟩ := hpast.2.2.2.2
  have hgiven : (Source.image [0x12, 0x00] Processor.programStart).brings (fresh 60 true) =
      .ok ([0x12, 0x00], Processor.programStart) := rfl
  have hfiled := (brings_of_written past "a" [0x12, 0x00] hpath).2
  have hclock : ¬ clockLimit ≤ (fresh 60 true).frequency := by decide +kernel
  have hplain : ∀ cue ∈ cues, cue.Plain := by simp [cues, Cue.Plain, Request.Plain]
  obtain ⟨hverdict, hmachine, hname, hname'⟩ := launches_of_one_image_agree 5 rfl hpast.1 hpast.2.1.symm
    (fun _ => iff_of_false hclock hpast.2.2.1) hgiven hfiled hplain
  exact ⟨hpast.1, hpast.2.2.2.1, hverdict, hmachine, hname, hname'.trans (by decide +kernel)⟩

theorem verdict_of_quiet (h : c.running = false) (hb : source.brings c = .ok (image, offset))
    (hfit : Machine.Fits image offset) (hclock : c.frequency < clockLimit) (k : Int) :
    verdict (launch (attendAll []) k source c) = .ok [] := by
  have hquiet : attendAll [] = fun _ => pure [] := rfl
  have hplain : (source.begun image offset c).machine.board.Plain := by
    rw [machine_begun]
    exact plain_of_loaded (Machine.load_prepared_of_fit hfit c.loadFont)
  rw [launch_of_period _ _ h hb hfit hclock, verdict_conclude, hquiet, release,
    loop_quiet (c := source.begun image offset c) _ _ _ (stopping_entered source c) hplain]
  rfl

/-- A console whose clock has no period runs nothing, another one runs the same image to its end. -/
theorem launches_disagree_without_period :
    ∃ c d, Console.new 60 false = .ok c ∧ Console.new clockLimit false = .ok d ∧
      verdict (launch (attendAll []) 1 (.image [0x12, 0x00] Processor.programStart) c) = .ok [] ∧
      verdict (launch (attendAll []) 1 (.file "a" (some [0x12, 0x00])) d) = .error .overflow := by
  have hslow := new_of_positive (show (0 : Int) < 60 by decide) false
  have hfast := new_of_positive (show 0 < clockLimit by decide +kernel) false
  have hfit : Machine.Fits [0x12, 0x00] Processor.programStart := by decide
  refine ⟨fresh 60 false, fresh clockLimit false, hslow, hfast, ?_, ?_⟩
  · exact verdict_of_quiet rfl rfl hfit (by decide +kernel) 1
  · have hbrings := (brings_of_written (fresh clockLimit false) "a" [0x12, 0x00] rfl).1
    exact (launch_of_no_period _ _ rfl hbrings hfit (Int.le_refl clockLimit)).1

end ChipEight.Console
