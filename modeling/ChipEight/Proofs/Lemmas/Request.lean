import ChipEight.Proofs.Lemmas.Watched

/-!
# Requests and cues

`Requested` says what each kind of request does to a console. A console that runs grants no launch and no other
frequency; nothing but a request to stop makes it stop.
-/

namespace ChipEight.Console

open Effect

variable {c c₀ : Console} {cues : List Cue}

/-! ## One request -/

def Request.stops : Request → Bool
  | .stop => true
  | _ => false

/-- What a request does to a console. -/
inductive Requested (c : Console) : Request → Console → Prop
  | machine (step : Machine.Step) :
      Requested c (.machine step) { c with machine := stateOf (step.perform c.machine) }
  | rate {frequency : Int} (idle : c.running = false) (positive : 0 < frequency) :
      Requested c (.setFrequency frequency) { c with frequency }
  | font (on : Bool) : Requested c (.setLoadFont on) { c with loadFont := on }
  | stop : Requested c .stop { c with stopping := true }
  | launch (source : Source) :
      Requested c (.launch source) (stateOf (Console.launch (fun _ => pure []) 0 source c))
  | nothing {request : Request} (h : request.stops = false) : Requested c request c

theorem setFrequency_of_running (h : c.running = true) (frequency : Int) :
    setFrequency frequency c = .error (.reported Fault.clockFixed.report) c := by
  rw [setFrequency, get_bind, if_pos h]
  rfl

theorem setFrequency_of_not_positive {frequency : Int} (h : c.running = false) (hf : frequency ≤ 0) :
    setFrequency frequency c = .error (.clockRate frequency) c := by
  rw [setFrequency, get_bind, if_neg (Bool.not_eq_true _ ▸ h), if_pos hf]
  rfl

theorem setFrequency_of_positive {frequency : Int} (h : c.running = false) (hf : 0 < frequency) :
    setFrequency frequency c = .ok () { c with frequency } := by
  rw [setFrequency, get_bind, if_neg (Bool.not_eq_true _ ▸ h), if_neg (Int.not_le.mpr hf)]
  rfl

theorem stateOf_join (c : Console) : stateOf (join c) = c := by
  rw [join, get_bind]
  split <;> rfl

theorem requested (request : Request) (c : Console) : Requested c request (stateOf (request.perform c)) := by
  cases request with
  | machine step =>
      rw [Request.perform, stateOf_bind_pure, stateOf_onMachine]
      exact .machine step
  | setFrequency frequency =>
      rw [Request.perform, stateOf_bind_pure]
      cases hr : c.running with
      | true => rw [setFrequency_of_running hr]; exact .nothing rfl
      | false =>
          by_cases hf : frequency ≤ 0
          · rw [setFrequency_of_not_positive hr hf]; exact .nothing rfl
          · have hpos := Int.not_le.mp hf
            rw [setFrequency_of_positive hr hpos]
            exact .rate hr hpos
  | setLoadFont on => exact .font on
  | stop => exact .stop
  | join =>
      rw [Request.perform, stateOf_bind_pure, stateOf_join]
      exact .nothing rfl
  | launch source =>
      rw [Request.perform, stateOf_bind_pure]
      exact .launch source
  | frequency | running | imageName | view => exact .nothing rfl

/-- A console that runs refuses a launch, once its file is written. -/
theorem stateOf_launch_of_running {source : Source} {watch : Watcher Note} {stopAfter : Int}
    (h : c.running = true) : stateOf (launch watch stopAfter source c) = source.kept c := by
  rw [launch_of_running h, Source.kept]
  cases hp : prepare source c with
  | ok _ c' => rw [bind_of_ok hp]; rfl
  | error e c' => rw [bind_of_error hp]; rfl

/-! ## Many requests -/

/-- The console after requests in their order, whatever they gave. -/
def asked (requests : List Request) (c : Console) : Console := (attempts Request.perform requests c).2

theorem perform_preserves_busy (request : Request) : Preserves (Busy c₀) request.perform := by
  intro c h
  generalize hs : stateOf (request.perform c) = c'
  cases hs ▸ requested request c with
  | rate idle => rw [h.running] at idle; cases idle
  | launch source =>
      rw [stateOf_launch_of_running h.running, kept_eq]
      exact ⟨h.running, h.frequency, h.imageName⟩
  | machine | font | stop => exact ⟨h.running, h.frequency, h.imageName⟩
  | nothing => exact h

theorem stopping_perform (h : c.running = true) (request : Request) :
    (stateOf (request.perform c)).stopping = (c.stopping || request.stops) := by
  generalize hs : stateOf (request.perform c) = c'
  cases hs ▸ requested request c with
  | rate idle => rw [h] at idle; cases idle
  | launch source =>
      rw [stateOf_launch_of_running h, kept_eq]
      exact (Bool.or_false _).symm
  | machine | font => exact (Bool.or_false _).symm
  | stop => exact (Bool.or_true _).symm
  | nothing hquiet => rw [hquiet, Bool.or_false]

theorem busy_self (h : c.running = true) : Busy c c := ⟨h, rfl, rfl⟩

theorem running_perform (h : c.running = true) (request : Request) :
    (stateOf (request.perform c)).running = true :=
  (perform_preserves_busy request c (busy_self h)).running

theorem asked_preserves_busy (requests : List Request) (h : Busy c₀ c) : Busy c₀ (c.asked requests) :=
  preserves_attempts requests (fun request _ => perform_preserves_busy request) h

theorem stopping_asked (h : c.running = true) (requests : List Request) :
    (c.asked requests).stopping = (c.stopping || requests.any Request.stops) := by
  induction requests generalizing c with
  | nil => exact (Bool.or_false _).symm
  | cons request requests ih =>
      show (asked requests (stateOf (request.perform c))).stopping = _
      rw [ih (running_perform h request), stopping_perform h, List.any_cons, Bool.or_assoc]

/-! ## Cues -/

def Cue.stops (cue : Cue) : Bool := cue.requests.any Request.stops

theorem attend_eq (cue : Cue) (c : Console) :
    cue.attend c = .ok (attempts Request.perform cue.requests c).1 (c.asked cue.requests) := rfl

theorem attend_obeys_busy (cue : Cue) : Obeys (Busy c₀) (fun _ => False) cue.attend :=
  fun _ h => asked_preserves_busy cue.requests h

theorem attendAll_obeys_busy (cues : List Cue) (done : Nat) :
    Obeys (Busy c₀) (fun _ => False) (attendAll cues done) :=
  Obeys.mapM _ fun cue _ => attend_obeys_busy cue

theorem polite_attendAll (cues : List Cue) : Polite (attendAll cues) :=
  fun _ done => (attendAll_obeys_busy cues done).preserves

theorem stopping_mapM_attend (h : c.running = true) (cues : List Cue) :
    (stateOf (cues.mapM Cue.attend c)).stopping = (c.stopping || cues.any Cue.stops) := by
  induction cues generalizing c with
  | nil => exact (Bool.or_false _).symm
  | cons cue cues ih =>
      have hbusy := asked_preserves_busy cue.requests (busy_self h)
      rw [List.mapM_cons, bind_of_ok (attend_eq cue c), stateOf_bind_pure, ih hbusy.running,
        stopping_asked h, List.any_cons, Bool.or_assoc]
      rfl

/-- A cue of a cycle asks for a stop. -/
def stopsAt (cues : List Cue) (done : Nat) : Bool :=
  cues.any fun cue => cue.cycle == (done : Int) && cue.stops

theorem stopping_attendAll (h : c.running = true) (cues : List Cue) (done : Nat) :
    (stateOf (attendAll cues done c)).stopping = (c.stopping || stopsAt cues done) := by
  rw [attendAll, stopping_mapM_attend h, List.any_filter]
  rfl

end ChipEight.Console
