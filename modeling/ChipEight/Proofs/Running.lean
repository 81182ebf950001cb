import ChipEight.Proofs.Lemmas.History

/-!
# When a console runs

A console runs while the cues of a launch are attended to, and at no other time: however a launch ends, it gives
the console back. There is one exception, a name that no file can have. While it runs, a console refuses to
launch and to change its frequency.
-/

namespace ChipEight.Console

open Effect

variable {c c₀ : Console} {source : Source} {cues : List Cue} {frequency : Int}

/-! ## After a history -/

/-- The step launches a file by a name that no file can have, and does not try to write it first. -/
def Step.Jams (step : Step) : Prop := ∃ source, step.source? = some source ∧ source.Jams

theorem running_step (step : Step) (c : Console) :
    (stateOf (step.perform c)).running = true ↔ c.running = true ∨ step.Jams := by
  cases hs : step.source? with
  | none =>
      have hjams : ¬ step.Jams := by
        rintro ⟨source, hsource, -⟩
        rw [hs] at hsource
        cases hsource
      rw [(Step.unlaunched hs c).running]
      exact ⟨.inl, fun h => h.resolve_right hjams⟩
  | some source =>
      have hjams : step.Jams ↔ source.Jams := by
        refine ⟨?_, fun h => ⟨source, hs, h⟩⟩
        rintro ⟨other, hother, h⟩
        rw [hs] at hother
        cases hother
        exact h
      rw [(Step.launched hs c).running, hjams]

theorem running_after (steps : List Step) (c : Console) :
    (c.after steps).running = true ↔ c.running = true ∨ ∃ step ∈ steps, step.Jams := by
  induction steps generalizing c with
  | nil => simp [after, attempts]
  | cons step steps ih =>
      rw [after_cons, ih, running_step]
      simp only [List.mem_cons, exists_eq_or_imp, or_assoc]

theorem frequency_after (steps : List Step) (h : 0 < c.frequency) : 0 < (c.after steps).frequency := by
  refine preserves_attempts (I := fun c : Console => 0 < c.frequency) steps (fun step _ c h => ?_) h
  cases hs : step.source? with
  | none => exact (Step.unlaunched hs c).frequency h
  | some source => rw [(Step.launched hs c).frequency]; exact h

/-! ## Within a launch -/

/-- Attends to the cues of a cycle, with the requests made in another way. -/
def attendWith (perform : Request → EStateM Failure Console Answer) (cues : List Cue) : Watcher Note := fun done =>
  (cues.filter fun cue => cue.cycle == (done : Int)).mapM fun cue c =>
    let (note, c) := attempts perform cue.requests c
    .ok note c

/-- Makes a request of a console that runs, and fails if it does not run. -/
def ifRunning (e : Failure) (request : Request) : EStateM Failure Console Answer := do
  if (← get).running then
    request.perform
  else
    throw e

theorem ifRunning_agree (e : Failure) (request : Request) :
    Agree (Same (Busy c₀)) (ifRunning e request) request.perform := by
  rintro c _ ⟨rfl, hbusy⟩
  rw [ifRunning, get_bind, if_pos hbusy.running]
  exact (perform_preserves_busy request).obeys.agree c c ⟨rfl, hbusy⟩

theorem attendWith_agree (e : Failure) (cues : List Cue) (done : Nat) :
    Agree (Same (Busy c₀)) (attendWith (ifRunning e) cues done) (attendAll cues done) := by
  refine Agree.mapM _ fun cue _ c d hR => ?_
  obtain ⟨hnote, hleft⟩ := Agree.attempts cue.requests (fun request _ => ifRunning_agree e request) hR
  rw [attend_eq, ← hnote]
  exact .ok _ hleft

theorem launch_congr {watch watch' : Watcher Note} {stopAfter : Int}
    (h : ∀ image offset, runImage watch stopAfter image offset (source.entered c) =
      runImage watch' stopAfter image offset (source.entered c)) :
    launch watch stopAfter source c = launch watch' stopAfter source c := by
  cases hr : c.running with
  | true => rw [launch_of_running hr, launch_of_running hr]
  | false =>
      cases hb : source.brings c with
      | ok read => rw [launch_of_brings hr hb, launch_of_brings hr hb, h]
      | error fault =>
          rcases prepare_cases source c with ⟨hp, -⟩ | ⟨_, hp, -⟩
          · rw [launch_of_prepared hr hp, launch_of_prepared hr hp, conduct_of_unread watch stopAfter hb,
              conduct_of_unread watch' stopAfter hb]
          · rw [launch_of_unprepared hp, launch_of_unprepared hp]

/-- What a console refuses while it runs, and what it keeps whatever it is asked for. -/
structure Locked (c : Console) : Prop where
  launch : ∀ (watch : Watcher Note) stopAfter source, Console.launch watch stopAfter source c =
    (prepare source >>= fun _ => throw (.reported Fault.alreadyRunning.report)) c
  left : ∀ (watch : Watcher Note) stopAfter source, stateOf (Console.launch watch stopAfter source c) =
    { c with directory := (source.kept c).directory }
  rate : ∀ frequency, setFrequency frequency c = .error (.reported Fault.clockFixed.report) c
  asked : ∀ requests, Busy c (c.asked requests)

theorem locked_of_running (h : c.running = true) : Locked c where
  launch _ _ _ := launch_of_running h
  left _ _ source := by rw [stateOf_launch_of_running h, ← kept_eq]
  rate := setFrequency_of_running h
  asked requests := asked_preserves_busy requests (busy_self h)

theorem eq_of_rejected_rate {e : Failure} {c' : Console} (h : setFrequency frequency c = .error e c') :
    c' = c := by
  cases hr : c.running with
  | true => rw [setFrequency_of_running hr] at h; cases h; rfl
  | false =>
      by_cases hf : frequency ≤ 0
      · rw [setFrequency_of_not_positive hr hf] at h; cases h; rfl
      · rw [setFrequency_of_positive hr (Int.not_le.mp hf)] at h; cases h

/-- A console runs only within a launch. After any history it runs if and only if a step of it launched a file by a
name that no file can have, and its frequency is positive. To check before each request of a cue that the
console runs makes no difference to any launch. While it runs it refuses to launch, once the file is written,
and to change its frequency. -/
theorem runs_only_within_launches {font : Bool} {directory : Directory}
    (hnew : Console.new frequency font directory = .ok c₀) (steps : List Step) :
    ((c₀.after steps).running = true ↔ ∃ step ∈ steps, step.Jams) ∧ 0 < (c₀.after steps).frequency ∧
      (∀ cues stopAfter source c e, launch (attendWith (ifRunning e) cues) stopAfter source c =
        launch (attendAll cues) stopAfter source c) ∧
      (∀ c : Console, c.running = true → c.Locked) ∧
      ∀ frequency c e c', setFrequency frequency c = .error e c' → c' = c := by
  obtain ⟨hpos, rfl⟩ := new_eq_ok.mp hnew
  have hrate := frequency_after (c := fresh frequency font directory) steps hpos
  refine ⟨?_, hrate, ?_, fun _ => locked_of_running, fun _ _ _ _ => eq_of_rejected_rate⟩
  · rw [running_after]
    simp [fresh]
  · intro cues stopAfter source c e
    refine launch_congr fun image offset => ?_
    exact runImage_same (fun done => attendWith_agree e cues done) (running_entered source c)

/-- Two images that do not fit, an absent file, also in the background, and a run with a cue that asks for all that
is refused. -/
def failingSteps : List Step :=
  [.launch (.image (List.replicate 4000 0) Processor.programStart) 1 [], .launch (.image [0x12, 0x00] (-1)) 1 [],
   .request (.launch (.file "absent" none)), .launch (.background "absent" none) 1 [],
   .launch (.image [0x12, 0x00] Processor.programStart) 2
     [⟨0, [.launch (.background "a\x00b" none), .setFrequency 0, .stop, .launch (.image [] 0)]⟩]]

theorem idle_after_failing_steps :
    ∃ c₀, Console.new 60 true = .ok c₀ ∧ (c₀.after failingSteps).running = false ∧
      0 < (c₀.after failingSteps).frequency := by
  have hnew : Console.new 60 true = .ok (fresh 60 true) := new_of_positive (by decide) true
  obtain ⟨hrunning, hpos, -⟩ := runs_only_within_launches hnew failingSteps
  have hname : '\x00' ∉ "absent".toList := by decide +kernel
  have hjams : ¬ ∃ step ∈ failingSteps, step.Jams := by
    rintro ⟨step, hstep, source, hsource, hjams⟩
    simp only [failingSteps, List.mem_cons, List.not_mem_nil, or_false] at hstep
    rcases hstep with rfl | rfl | rfl | rfl | rfl <;> cases hsource
    · exact hjams
    · exact hjams
    · exact hname hjams
    · exact hname hjams
    · exact hjams
  exact ⟨_, hnew, Bool.eq_false_iff.mpr fun h => hjams (hrunning.mp h), hpos⟩

/-- A name with a null character leaves the console running for good, in the background too. -/
theorem running_after_null_character :
    ∃ c₀, Console.new 60 true = .ok c₀ ∧ (c₀.after [.launch (.file "a\x00b" none) 0 []]).running = true ∧
      (c₀.after [.launch (.background "a\x00b" none) 0 []]).running = true :=
  ⟨fresh 60 true, new_of_positive (by decide) true, by decide +kernel, by decide +kernel⟩

end ChipEight.Console
