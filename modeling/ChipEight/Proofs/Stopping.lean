import ChipEight.Proofs.Lemmas.History

/-!
# When a run stops

The cycle that is about to begin when a stop is asked for is the last one. Nothing else ends a run before the
number of cycles that it was given, and nothing makes it go on, whatever its cues ask for before or after. Only a
fault that cannot be told breaks a run off, and for that a cue must set a limit of the stack that cannot be written.
-/

namespace ChipEight.Console

open Effect

variable {note : Type} {c : Console} {source : Source} {cues : List Cue} {image : List Byte} {offset : Int}

/-! ## Cycles without end -/

/-- Does a number of cycles, each of them after its watcher, and takes no notice of a request to stop. -/
def rounds (watch : Watcher note) : (count done : Nat) → EStateM Failure Console (List note)
  | 0, _ => return []
  | count + 1, done => do
    let new ← watch done
    tick
    return new ++ (← rounds watch count (done + 1))

theorem rounds_succ {watch : Watcher note} {done : Nat} {new : List note} {c' : Console}
    (h : watch done c = .ok new c') (count : Nat) :
    rounds watch (count + 1) done c =
      (tick >>= fun _ => rounds watch count (done + 1) >>= fun rest => pure (new ++ rest)) c' := by
  rw [rounds, bind_of_ok h]

/-- How many cycles a run has: up to the first whose cues ask for a stop, or as many as it may. -/
def cycleCount (cues : List Cue) (stopAfter : Int) : Nat :=
  match (List.range stopAfter.toNat).find? (stopsAt cues) with
  | some k => k + 1
  | none => stopAfter.toNat

/-- How many of the remaining cycles a loop still does. -/
def lasting (cues : List Cue) : (remaining done : Nat) → Nat
  | 0, _ => 0
  | remaining + 1, done => if stopsAt cues done then 1 else lasting cues remaining (done + 1) + 1

theorem lasting_succ (cues : List Cue) (remaining done : Nat) :
    lasting cues (remaining + 1) done = (if stopsAt cues done then 0 else lasting cues remaining (done + 1)) + 1 := by
  rw [lasting]
  split <;> rfl

theorem lasting_eq (cues : List Cue) (remaining done : Nat) :
    lasting cues remaining done = match (List.range' done remaining).find? (stopsAt cues) with
      | some k => k + 1 - done
      | none => remaining := by
  induction remaining generalizing done with
  | zero => rfl
  | succ remaining ih =>
      rw [lasting, List.range'_succ, List.find?_cons]
      cases hs : stopsAt cues done with
      | true => exact (Nat.add_sub_cancel_left done 1).symm
      | false =>
          rw [if_neg Bool.false_ne_true, ih]
          cases hf : (List.range' (done + 1) remaining).find? (stopsAt cues) with
          | none => rfl
          | some k =>
              have hk := (List.mem_range'_1.mp (List.mem_of_find?_eq_some hf)).1
              show k + 1 - (done + 1) + 1 = k + 1 - done
              omega

theorem cycleCount_eq_lasting (cues : List Cue) (stopAfter : Int) :
    cycleCount cues stopAfter = lasting cues stopAfter.toNat 0 := by
  rw [cycleCount, lasting_eq, List.range_eq_range']
  rfl

/-! ## The loop -/

theorem attendAll_of_running (h : c.running = true) (cues : List Cue) (done : Nat) :
    ∃ new c', attendAll cues done c = .ok new c' ∧ c'.running = true ∧
      c'.stopping = (c.stopping || stopsAt cues done) := by
  have hends := attendAll_obeys_busy cues done c (busy_self h)
  have hstopping := stopping_attendAll h cues done
  cases hr : attendAll cues done c with
  | ok new c' =>
      rw [hr] at hends hstopping
      exact ⟨new, c', rfl, hends.running, hstopping⟩
  | error e c' =>
      rw [hr] at hends
      exact hends.2.elim

theorem loop_of_stopping (h : c.stopping = true) (watch : Watcher note) (remaining done : Nat)
    (notes : List note) : loop watch remaining done notes c = .ok notes c := by
  cases remaining with
  | zero =>
      show EStateM.Result.ok notes { c with stopping := true } = _
      rw [← h]
  | succ remaining =>
      rw [loop, get_bind, h]
      rfl

/-- A loop does its rounds and stops, unless one of them fails. -/
theorem loop_eq_rounds (hrunning : c.running = true) (hstopping : c.stopping = false) (cues : List Cue)
    (remaining done : Nat) (notes : List Note) :
    loop (attendAll cues) remaining done notes c =
      match rounds (attendAll cues) (lasting cues remaining done) done c with
      | .ok taken c' => .ok (notes ++ taken) { c' with stopping := true }
      | .error e c' => .error e c' := by
  induction remaining generalizing c done notes with
  | zero =>
      show EStateM.Result.ok notes { c with stopping := true } = .ok (notes ++ []) { c with stopping := true }
      rw [List.append_nil]
  | succ remaining ih =>
      obtain ⟨new, c₁, hattend, hrunning₁, hstopping₁⟩ := attendAll_of_running hrunning cues done
      rw [hstopping, Bool.false_or] at hstopping₁
      rw [lasting_succ, rounds_succ hattend, loop, get_bind, hstopping, if_neg Bool.false_ne_true, bind_of_ok hattend]
      rcases tick_cases c₁ with htick | ⟨-, htick⟩
      · rw [bind_of_ok htick, bind_of_ok htick]
        cases hs : stopsAt cues done with
        | true =>
            -- the cycle at which the stop was asked for is still done
            rw [hs] at hstopping₁
            rw [loop_of_stopping (by exact hstopping₁), if_pos rfl]
            show _ = EStateM.Result.ok (notes ++ (new ++ [])) _
            rw [List.append_nil]
            simp only [← hstopping₁]
        | false =>
            rw [hs] at hstopping₁
            rw [if_neg Bool.false_ne_true,
              ih (c := { c₁ with machine := c₁.machine.next }) hrunning₁ hstopping₁ (done + 1) (notes ++ new)]
            cases hrest : rounds (attendAll cues) (lasting cues remaining (done + 1)) (done + 1)
                { c₁ with machine := c₁.machine.next } with
            | ok rest c' =>
                rw [bind_of_ok hrest]
                exact congrArg (EStateM.Result.ok · _) (List.append_assoc notes new rest)
            | error e c' => rw [bind_of_error hrest]
      · rw [bind_of_error htick, bind_of_error htick]

/-! ## Counting -/

/-- The request does not touch the count of cycles: it is no cycle outside the run, and no reset. -/
def Request.KeepsCount : Request → Prop
  | .machine .cycle | .machine .reset => False
  | _ => True

def Cue.KeepsCount (cue : Cue) : Prop := ∀ request ∈ cue.requests, request.KeepsCount

/-- The console runs, and its machine has counted `k` cycles. -/
structure Counting (k : Nat) (c : Console) : Prop where
  running : c.running = true
  cycles : c.machine.cycles = k

theorem cycles_of_step {step : Machine.Step} (h : (Request.machine step).KeepsCount) (m : Machine) :
    (stateOf (step.perform m)).cycles = m.cycles := by
  generalize hs : stateOf (step.perform m) = m'
  cases hs ▸ Machine.stepped step m with
  | cycle | reset => cases h
  | memory | display | processor | loadFont | load | execute | last | diagnostics => rfl

theorem perform_preserves_counting {request : Request} (h : request.KeepsCount) (k : Nat) :
    Preserves (Counting k) request.perform := by
  intro c hc
  generalize hs : stateOf (request.perform c) = c'
  cases hs ▸ requested request c with
  | machine step => exact ⟨hc.running, (cycles_of_step h c.machine).trans hc.cycles⟩
  | rate idle => rw [hc.running] at idle; cases idle
  | launch source =>
      rw [stateOf_launch_of_running hc.running, kept_eq]
      exact ⟨hc.running, hc.cycles⟩
  | font | stop | nothing => exact ⟨hc.running, hc.cycles⟩

theorem attendAll_obeys_counting (h : ∀ cue ∈ cues, cue.KeepsCount) (k done : Nat) :
    Obeys (Counting k) (fun _ => False) (attendAll cues done) := by
  refine Obeys.mapM _ fun cue hcue c hc => ?_
  have hkeeps := h cue (List.mem_filter.mp hcue).1
  exact preserves_attempts cue.requests (fun request hr => perform_preserves_counting (hkeeps request hr) k) hc

theorem rounds_count (h : ∀ cue ∈ cues, cue.KeepsCount) {k : Nat} (hc : Counting k c) (count done : Nat)
    {notes : List Note} {c' : Console} (hr : rounds (attendAll cues) count done c = .ok notes c') :
    Counting (k + count) c' := by
  induction count generalizing c done k notes with
  | zero => cases hr; exact hc
  | succ count ih =>
      have hends := attendAll_obeys_counting h k done c hc
      cases hattend : attendAll cues done c with
      | error e c₁ => rw [hattend] at hends; exact hends.2.elim
      | ok new c₁ =>
          rw [hattend] at hends
          rw [rounds_succ hattend] at hr
          rcases tick_cases c₁ with htick | ⟨-, htick⟩
          · have hnext : Counting (k + 1) { c₁ with machine := c₁.machine.next } :=
              ⟨hends.running, by rw [Machine.cycles_next, hends.cycles]⟩
            rw [bind_of_ok htick] at hr
            cases hrest : rounds (attendAll cues) count (done + 1) { c₁ with machine := c₁.machine.next } with
            | error e c₂ => rw [bind_of_error hrest] at hr; cases hr
            | ok rest c₂ =>
                rw [bind_of_ok hrest] at hr
                cases hr
                rw [Nat.add_comm count 1, ← Nat.add_assoc]
                exact ih hnext (done + 1) hrest
          · rw [bind_of_error htick] at hr
            cases hr

/-! ## Faults that can be told -/

/-- If the request sets a limit of the stack, the limit can be written. -/
def Request.SetsWritable : Request → Prop
  | .machine (.processor (.setMaxDepth (some limit))) => Numeral.Writable limit
  | _ => True

def Cue.SetsWritable (cue : Cue) : Prop := ∀ request ∈ cue.requests, request.SetsWritable

/-- The console runs, and every fault of its machine can be told. -/
structure Outspoken (c : Console) : Prop where
  running : c.running = true
  plain : c.machine.board.Plain

theorem plain_of_step {step : Machine.Step} (h : (Request.machine step).SetsWritable) {m : Machine}
    (hm : m.board.Plain) : (stateOf (step.perform m)).board.Plain := by
  have hextent : (stateOf (step.perform m)).board.display.extent = m.board.display.extent :=
    congrArg (fun shape => shape.1.2) (Machine.Step.perform_keeps_shape step m)
  generalize hs : stateOf (step.perform m) = m' at hextent ⊢
  cases hs ▸ Machine.stepped step m with
  | cycle => exact Machine.plain_next hm
  | execute word =>
      have hkeeps := Board.execute_keeps (.ofInt word) m.board
      exact Board.plain_congr (b := m.board) (congrArg Prod.snd hkeeps) hextent hm
  | memory | display | loadFont | load | reset | last | diagnostics =>
      exact Board.plain_congr (b := m.board) rfl hextent hm
  | processor step =>
      cases step with
      | setMaxDepth limit =>
          refine { limit := fun limit' hlimit => ?_, width := hm.width, height := hm.height }
          change limit = some limit' at hlimit
          subst hlimit
          exact h
      | setV index value =>
          refine Board.plain_congr (b := m.board) ?_ hextent hm
          rw [Processor.Step.perform]
          cases Processor.register? index <;> rfl
      | setI | rawI | rawPc | push | flag | reset => exact Board.plain_congr (b := m.board) rfl hextent hm

theorem perform_preserves_outspoken {request : Request} (h : request.SetsWritable) :
    Preserves Outspoken request.perform := by
  intro c hc
  generalize hs : stateOf (request.perform c) = c'
  cases hs ▸ requested request c with
  | machine step => exact ⟨hc.running, plain_of_step h hc.plain⟩
  | rate idle => rw [hc.running] at idle; cases idle
  | launch source =>
      rw [stateOf_launch_of_running hc.running, kept_eq]
      exact ⟨hc.running, hc.plain⟩
  | font | stop | nothing => exact ⟨hc.running, hc.plain⟩

theorem attendAll_obeys_outspoken (h : ∀ cue ∈ cues, cue.SetsWritable) (done : Nat) :
    Obeys Outspoken (fun _ => False) (attendAll cues done) := by
  refine Obeys.mapM _ fun cue hcue c hc => ?_
  have hwritable := h cue (List.mem_filter.mp hcue).1
  exact preserves_attempts cue.requests (fun request hr => perform_preserves_outspoken (hwritable request hr)) hc

theorem tick_obeys_outspoken : Obeys Outspoken (fun _ => False) tick := by
  intro c hc
  rw [tick_of_plain hc.plain]
  exact ⟨hc.running, Machine.plain_next hc.plain⟩

/-- Rounds obey what their watcher and their cycles obey. -/
theorem rounds_obeys {I : Console → Prop} {P : Failure → Prop} {watch : Watcher note}
    (hwatch : ∀ done, Obeys I P (watch done)) (htick : Obeys I P tick) (count done : Nat) :
    Obeys I P (rounds watch count done) := by
  induction count generalizing done with
  | zero => exact Obeys.pure []
  | succ count ih =>
      refine (hwatch done).bind fun new => htick.bind fun _ => ?_
      exact (ih (done + 1)).bind fun rest => Obeys.pure (new ++ rest)

theorem tick_obeys_busy (c₀ : Console) : Obeys (Busy c₀) (fun e => e = .unwritable) tick := by
  intro c hc
  rcases tick_cases c with htick | ⟨-, htick⟩ <;> rw [htick]
  · exact ⟨hc.running, hc.frequency, hc.imageName⟩
  · exact ⟨⟨hc.running, hc.frequency, hc.imageName⟩, rfl⟩

/-- Rounds fail only with a fault that cannot be told. -/
theorem unwritable_of_rounds (h : c.running = true) {count done : Nat} {e : Failure} {c' : Console}
    (hr : rounds (attendAll cues) count done c = .error e c') : e = .unwritable := by
  have hattend : ∀ done, Obeys (Busy c) (fun e => e = .unwritable) (attendAll cues done) :=
    fun done => (attendAll_obeys_busy cues done).mono fun _ => False.elim
  have hends := rounds_obeys hattend (tick_obeys_busy c) count done c (busy_self h)
  rw [hr] at hends
  exact hends.2

/-! ## Requests to stop that come too early -/

theorem kept_stopping (source : Source) (c : Console) (b : Bool) :
    source.kept { c with stopping := b } = { source.kept c with stopping := b } := by
  cases source with
  | image => rfl
  | file name written | background name written =>
      cases written with
      | none => rfl
      | some image =>
          show stateOf (keepFile name image { c with stopping := b }) =
            { stateOf (keepFile name image c) with stopping := b }
          rw [keepFile_eq, keepFile_eq]
          cases c.directory.write name image <;> rfl

/-- A request to stop that was made before a launch has no effect on it. -/
theorem launch_stopping (watch : Watcher Note) (stopAfter : Int) (h : c.running = false)
    (hb : source.brings c = .ok (image, offset)) (b : Bool) :
    launch watch stopAfter source { c with stopping := b } = launch watch stopAfter source c := by
  have hentered : source.entered { c with stopping := b } = source.entered c := by
    rw [Source.entered, kept_stopping]
    rfl
  have hb' : source.brings { c with stopping := b } = .ok (image, offset) := by
    rw [← hb]
    cases source with
    | image => rfl
    | file | background => rw [Source.brings, kept_stopping]; rfl
  rw [launch_of_brings h hb, launch_of_brings (c := { c with stopping := b }) h hb', hentered]

/-! ## Runs -/

theorem outspoken_begun (source : Source) (c : Console) (hfit : Machine.Fits image offset) :
    Outspoken (source.begun image offset c) := by
  refine ⟨running_entered source c, ?_⟩
  rw [machine_begun]
  exact plain_of_loaded (Machine.load_prepared_of_fit hfit c.loadFont)

theorem launch_eq_rounds (h : c.running = false) (hb : source.brings c = .ok (image, offset))
    (hfit : Machine.Fits image offset) (hclock : c.frequency < clockLimit) (cues : List Cue) (stopAfter : Int) :
    launch (attendAll cues) stopAfter source c =
      source.conclude
        (match rounds (attendAll cues) (cycleCount cues stopAfter) 0 (source.begun image offset c) with
        | .ok notes c' => .ok notes { c' with running := false, stopping := true }
        | .error e c' => .error e { c' with running := false }) := by
  rw [launch_of_period _ _ h hb hfit hclock, cycleCount_eq_lasting, release,
    loop_eq_rounds (c := source.begun image offset c) (running_entered source c) (stopping_entered source c)]
  cases rounds (attendAll cues) (lasting cues stopAfter.toNat 0) 0 (source.begun image offset c) <;> rfl

/-- How a run goes that begins with a clock that has a period: it does as many cycles as `cycleCount` says, and if no
cue touches the count of cycles, the machine has counted those. -/
def GoesOn (source : Source) (image : List Byte) (offset : Int) (cues : List Cue) (stopAfter : Int) (c : Console) :
    Prop :=
  ∃ notes c', rounds (attendAll cues) (cycleCount cues stopAfter) 0 (source.begun image offset c) = .ok notes c' ∧
    verdict (launch (attendAll cues) stopAfter source c) = .ok notes ∧
    stateOf (launch (attendAll cues) stopAfter source c) =
      source.back { c' with running := false, stopping := true } ∧
    ((∀ cue ∈ cues, cue.KeepsCount) → c'.machine.cycles = cycleCount cues stopAfter)

theorem goesOn_of_rounds (h : c.running = false) (hb : source.brings c = .ok (image, offset))
    (hfit : Machine.Fits image offset) (hclock : c.frequency < clockLimit) {stopAfter : Int} {notes : List Note}
    {c' : Console}
    (hrounds : rounds (attendAll cues) (cycleCount cues stopAfter) 0 (source.begun image offset c) = .ok notes c') :
    GoesOn source image offset cues stopAfter c := by
  have hlaunch := launch_eq_rounds h hb hfit hclock cues stopAfter
  rw [hrounds] at hlaunch
  refine ⟨notes, c', hrounds, ?_, ?_, fun hkeeps => ?_⟩
  · rw [hlaunch, verdict_conclude]
    rfl
  · rw [hlaunch, stateOf_conclude]
    rfl
  · have hbegun : Counting 0 (source.begun image offset c) := by
      refine ⟨running_entered source c, ?_⟩
      rw [machine_begun]
      exact Machine.cycles_loaded c.loadFont image offset
    have hcount := rounds_count hkeeps hbegun _ 0 hrounds
    exact hcount.cycles.trans (Nat.zero_add _)

theorem goesOn_of_told (h : c.running = false) (hb : source.brings c = .ok (image, offset))
    (hfit : Machine.Fits image offset) (hclock : c.frequency < clockLimit) {stopAfter : Int}
    (htold : verdict (launch (attendAll cues) stopAfter source c) ≠ .error .unwritable) :
    GoesOn source image offset cues stopAfter c := by
  cases hrounds : rounds (attendAll cues) (cycleCount cues stopAfter) 0 (source.begun image offset c) with
  | ok notes c' => exact goesOn_of_rounds h hb hfit hclock hrounds
  | error e c' =>
      have he := unwritable_of_rounds (c := source.begun image offset c) (running_entered source c) hrounds
      rw [launch_eq_rounds h hb hfit hclock, hrounds, verdict_conclude] at htold
      exact absurd (congrArg Except.error he) htold

theorem told_of_writable (h : c.running = false) (hb : source.brings c = .ok (image, offset))
    (hfit : Machine.Fits image offset) (hclock : c.frequency < clockLimit)
    (hwritable : ∀ cue ∈ cues, cue.SetsWritable) (stopAfter : Int) :
    verdict (launch (attendAll cues) stopAfter source c) ≠ .error .unwritable := by
  have hends := rounds_obeys (attendAll_obeys_outspoken hwritable) tick_obeys_outspoken (cycleCount cues stopAfter) 0 _
    (outspoken_begun source c hfit)
  rw [launch_eq_rounds h hb hfit hclock, verdict_conclude]
  cases hrounds : rounds (attendAll cues) (cycleCount cues stopAfter) 0 (source.begun image offset c) with
  | ok notes c' => nofun
  | error e c' => rw [hrounds] at hends; exact hends.2.elim

/-- A run does as many cycles as it is given, or those up to the first whose cues ask for a stop, that one included,
whatever else its cues ask for and whatever the cycles raise, as long as that can be told; which is so if no cue sets
a limit of the stack that cannot be written. A request to stop from before the launch is forgotten. Only a clock
without a period keeps a run from its first cycle. -/
theorem stop_ends_run_after_pending_cycle (h : c.running = false) (hb : source.brings c = .ok (image, offset))
    (hfit : Machine.Fits image offset) (cues : List Cue) (stopAfter : Int) :
    (c.frequency < clockLimit →
      (verdict (launch (attendAll cues) stopAfter source c) ≠ .error .unwritable →
        GoesOn source image offset cues stopAfter c) ∧
      ((∀ cue ∈ cues, cue.SetsWritable) →
        verdict (launch (attendAll cues) stopAfter source c) ≠ .error .unwritable)) ∧
      (clockLimit ≤ c.frequency → verdict (launch (attendAll cues) stopAfter source c) = .error .overflow ∧
        (stateOf (launch (attendAll cues) stopAfter source c)).machine = .loaded c.loadFont image offset) ∧
      ∀ b, launch (attendAll cues) stopAfter source { c with stopping := b } =
        launch (attendAll cues) stopAfter source c := by
  refine ⟨fun hclock => ⟨?_, fun hwritable => ?_⟩, fun hclock => ?_, launch_stopping _ stopAfter h hb⟩
  · exact goesOn_of_told h hb hfit hclock
  · exact told_of_writable h hb hfit hclock hwritable stopAfter
  · exact launch_of_no_period _ stopAfter h hb hfit hclock

/-- A stop at the second cycle, between requests that are refused, on a console that was told to stop before. -/
theorem two_cycles_of_stop_at_second :
    let cues : List Cue := [⟨1, [.setFrequency 0, .stop, .launch (.background "a" none), .machine (.execute 0x00EE)]⟩]
    let result := launch (attendAll cues) 5 (.image [0x12, 0x00] Processor.programStart)
      { fresh 60 true with stopping := true }
    (∃ notes, verdict result = .ok notes) ∧ (stateOf result).machine.cycles = 2 := by
  intro cues result
  have hkeeps : ∀ cue ∈ cues, cue.KeepsCount := by simp [cues, Cue.KeepsCount, Request.KeepsCount]
  have hwritable : ∀ cue ∈ cues, cue.SetsWritable := by simp [cues, Cue.SetsWritable, Request.SetsWritable]
  have hclock : (fresh 60 true).frequency < clockLimit := by decide +kernel
  have hbrings : (Source.image [0x12, 0x00] Processor.programStart).brings (fresh 60 true) =
      .ok ([0x12, 0x00], Processor.programStart) := rfl
  have hfit : Machine.Fits [0x12, 0x00] Processor.programStart := by decide
  obtain ⟨hgoes, -, hearly⟩ := stop_ends_run_after_pending_cycle rfl hbrings hfit cues 5
  obtain ⟨hgoesOn, htold⟩ := hgoes hclock
  obtain ⟨notes, c', -, hverdict, hleft, hcycles⟩ := hgoesOn (htold hwritable)
  have hresult : result = launch (attendAll cues) 5 (.image [0x12, 0x00] Processor.programStart) (fresh 60 true) :=
    hearly true
  have hcount : cycleCount cues 5 = 2 := by decide +kernel
  rw [hresult]
  refine ⟨⟨notes, hverdict⟩, ?_⟩
  rw [hleft, machine_back]
  exact (hcycles hkeeps).trans hcount

/-- A clock without a period does none of the cycles that a run is given. -/
theorem no_cycle_without_period :
    ∃ c, Console.new clockLimit false = .ok c ∧ c.running = false ∧
      Machine.Fits [0x12, 0x00] Processor.programStart ∧ cycleCount [] 1 = 1 ∧
      verdict (launch (attendAll []) 1 (.image [0x12, 0x00] Processor.programStart) c) = .error .overflow ∧
      (stateOf (launch (attendAll []) 1 (.image [0x12, 0x00] Processor.programStart) c)).machine.cycles = 0 := by
  have hfit : Machine.Fits [0x12, 0x00] Processor.programStart := by decide
  have hbrings : (Source.image [0x12, 0x00] Processor.programStart).brings (fresh clockLimit false) =
      .ok ([0x12, 0x00], Processor.programStart) := rfl
  obtain ⟨hverdict, hmachine⟩ := launch_of_no_period (attendAll []) 1 rfl hbrings hfit (Int.le_refl clockLimit)
  refine ⟨fresh clockLimit false, new_of_positive (by decide +kernel) false, rfl, hfit, rfl, hverdict, ?_⟩
  rw [hmachine]
  exact Machine.cycles_loaded _ _ _

end ChipEight.Console
