import ChipEight.Console
import ChipEight.Effect
import ChipEight.Machine.Step

/-!
Steps on a console, as data. A launch starts a run and may bring cues: requests to be made of the
running console before certain cycles.
-/
namespace ChipEight.Console

/-- Where the image of a launch comes from: it is given, or it is in a file, which may be written
first. A background launch tells the end of its run apart from its own refusal. -/
inductive Source
  | image (image : List Byte) (offset : Int)
  | file (name : String) (written : Option (List Byte))
  | background (name : String) (written : Option (List Byte))

/-- What can be asked of a console, also while it runs. -/
inductive Request
  | machine (step : Machine.Step)
  | frequency
  | setFrequency (frequency : Int)
  | setLoadFont (on : Bool)
  | running
  | imageName
  | stop
  | join
  | view
  | launch (source : Source)

inductive Answer
  | reply (reply : Reply)
  | name (name : Option String)
  | view (machine : Machine)

/-- What the requests of one cue gave, in order. -/
abbrev Note := List (Except Failure Answer)

/-- How a launch ended: with the notes of its cues; in the background, also with the failure that
the run died of. -/
inductive Ending
  | returned (notes : List Note)
  | joined (notes : List Note) (died : Option Failure)

/-- Writes the file of a launch, also of one that will be refused. -/
def prepare : Source → EStateM Failure Console Unit
  | .file name (some image) => keepFile name image
  | .background name (some image) => keepFile name image
  | _ => return ()

/-- Does a run on a thread of its own, and waits for its end. The failure that ends the run is kept
for whoever waits. -/
def onThread (act : EStateM Failure Console (List Note)) : EStateM Failure Console Ending :=
  fun c =>
    match act { c with inBackground := true } with
    | .ok notes c => .ok (.joined notes none) { c with inBackground := false }
    | .error e c => .ok (.joined [] (some e)) { c with inBackground := false }

def launch (watch : Watcher Note) (stopAfter : Int) (source : Source) :
    EStateM Failure Console Ending := do
  prepare source
  claim
  match source with
  | .image image offset => return .returned (← runImage watch stopAfter image offset)
  | .file name _ => return .returned (← runFile watch stopAfter name)
  | .background name _ => onThread (runFile watch stopAfter name)

/-- A launch that is asked for without a plan has no cues and stops at once. -/
def Request.perform : Request → EStateM Failure Console Answer
  | .machine step => do return .reply (← onMachine step.perform)
  | .frequency => do return .reply (.number (← get).frequency)
  | .setFrequency rate => do
    Console.setFrequency rate
    return .reply .done
  | .setLoadFont on => do
    modify fun c => { c with loadFont := on }
    return .reply .done
  | .running => do return .reply (.flag (← get).running)
  | .imageName => do return .name (← get).imageName
  | .stop => do
    Console.stop
    return .reply .done
  | .join => do
    Console.join
    return .reply .done
  | .view => do return .view (← get).machine
  | .launch source => do
    let _ ← Console.launch (fun _ => return []) 0 source
    return .reply .done

/-- Requests to be made before the cycle of a given number. -/
structure Cue where
  cycle : Int
  requests : List Request

/-- Makes the requests of a cue, whatever fails, and takes the note of them. -/
def Cue.attend (cue : Cue) : EStateM Failure Console Note := fun c =>
  let (note, c) := Effect.attempts Request.perform cue.requests c
  .ok note c

/-- Attends to the cues of a cycle in their order. -/
def attendAll (cues : List Cue) : Watcher Note := fun done =>
  (cues.filter fun cue => cue.cycle == (done : Int)).mapM Cue.attend

inductive Step
  | request (request : Request)
  | launch (source : Source) (stopAfter : Int) (cues : List Cue)

inductive Outcome
  | answer (answer : Answer)
  | ending (ending : Ending)

def Step.perform : Step → EStateM Failure Console Outcome
  | .request asked => do return .answer (← asked.perform)
  | .launch source stopAfter cues => do
    return .ending (← Console.launch (attendAll cues) stopAfter source)

end ChipEight.Console
