import ChipEight.Directory
import ChipEight.Effect
import ChipEight.Machine
import ChipEight.Reply

/-!
The console: it runs images on a new machine each until it is told to stop, and refuses some
requests while it runs. Faults do not end a run, if they can be told.
-/
namespace ChipEight

/-- A console is `inBackground` while a run is under way that has a thread of its own. -/
structure Console where
  frequency : Int
  loadFont : Bool
  machine : Machine
  imageName : Option String
  running : Bool
  stopping : Bool
  inBackground : Bool
  directory : Directory

namespace Console

variable {α : Type}

def defaultFrequency : Int := 60

/-- The least frequency that rounds to no binary64 number; from here on the clock has no period. -/
def clockLimit : Int := Int.pow 2 1024 - Int.pow 2 970

/-- The name of the thread that a background run has. -/
def threadName : String := "Virtual CHIP-8"

def new (frequency : Int) (loadFont : Bool) (directory : Directory := .empty) :
    Except Failure Console := do
  if frequency ≤ 0 then
    throw (.clockRate frequency)
  return {
    frequency, loadFont
    machine := .new {}
    imageName := none, running := false, stopping := false, inBackground := false
    directory }

def onMachine (act : EStateM Failure Machine α) : EStateM Failure Console α :=
  fun ⟨frequency, loadFont, machine, imageName, running, stopping, inBackground, directory⟩ =>
    match act machine with
    | .ok a machine =>
      .ok a ⟨frequency, loadFont, machine, imageName, running, stopping, inBackground, directory⟩
    | .error e machine =>
      .error e ⟨frequency, loadFont, machine, imageName, running, stopping, inBackground, directory⟩

/-- The frequency is fixed while the console runs; else it must be positive. -/
def setFrequency (frequency : Int) : EStateM Failure Console Unit := do
  if (← get).running then
    throw Fault.clockFixed.failure
  if frequency ≤ 0 then
    throw (.clockRate frequency)
  modify fun c => { c with frequency }

/-- Asks a run to end after the cycle that is under way. -/
def stop : EStateM Failure Console Unit :=
  modify fun c => { c with stopping := true }

/-- Waits for the end of the thread that was started last, which that thread itself cannot do. Any
other wait is over at once, since nothing else is under way beside that thread. -/
def join : EStateM Failure Console Unit := do
  if (← get).inBackground then
    throw .ownThread

def keepFile (name : String) (image : List Byte) : EStateM Failure Console Unit := do
  match (← get).directory.write name image with
  | .ok directory => modify fun c => { c with directory }
  | .error fault => throw (.file fault)

/-! ## Runs -/

/-- Takes the console for a run, unless it is taken. Earlier requests to stop are forgotten. -/
def claim : EStateM Failure Console Unit := do
  if (← get).running then
    throw Fault.alreadyRunning.failure
  modify fun c => { c with running := true, stopping := false }

/-- Gives the console back, however the run ended. -/
def release (act : EStateM Failure Console α) : EStateM Failure Console α := fun c =>
  match act c with
  | .ok a c => .ok a { c with running := false }
  | .error e c => .error e { c with running := false }

/-- Puts a new machine in the place of the old one, with the font if it is wanted. -/
def renew : EStateM Failure Console Unit := do
  modify fun c => { c with machine := .new {} }
  if (← get).loadFont then
    onMachine (told Machine.loadFont)

/-- One cycle. Its fault is passed over, unless it cannot be told. -/
def tick : EStateM Failure Console Unit :=
  onMachine fun m =>
    match Machine.cycle m with
    | .ok _ m => .ok () m
    | .error incident m => if incident.fault.Tellable then .ok () m else .error .unwritable m

/-- The clock of a run must have a period. -/
def checkClock : EStateM Failure Console Unit := do
  if clockLimit ≤ (← get).frequency then
    throw .overflow

/-- What a watcher of a run does before the cycle of a given number, counted from zero, and the
notes that it takes. -/
abbrev Watcher (note : Type) :=
  Nat → EStateM Failure Console (List note)

variable {note : Type}

/-- Cycles until the console is stopping, which `remaining` cycles from now it is at the latest. -/
def loop (watch : Watcher note) :
    (remaining done : Nat) → List note → EStateM Failure Console (List note)
  | 0, _, notes => do
    stop
    return notes
  | remaining + 1, done, notes => do
    if (← get).stopping then
      return notes
    let new ← watch done
    tick
    loop watch remaining (done + 1) (notes ++ new)

/-- Runs an image on a new machine; the console has been claimed, and is given back at the end. The
run stops after a number of cycles, before the first if the number is not positive. -/
def runImage (watch : Watcher note) (stopAfter : Int) (image : List Byte) (offset : Int) :
    EStateM Failure Console (List note) :=
  release do
    renew
    onMachine (told (Machine.load image offset))
    checkClock
    loop watch stopAfter.toNat 0 []

/-- Reads the image in a file for a run, and keeps the name of the file. Without a file there is no
run, and the console is given back; but a name that no file can have leaves it taken for good. -/
def fetchImage (name : String) : EStateM Failure Console (List Byte) := do
  match (← get).directory.read name with
  | .ok image =>
    modify fun c => { c with imageName := Directory.lastStep name }
    return image
  | .error .nullCharacter => throw (.file .nullCharacter)
  | .error fault => release (throw (.file fault))

/-- Runs the image in a file. -/
def runFile (watch : Watcher note) (stopAfter : Int) (name : String) :
    EStateM Failure Console (List note) := do
  let image ← fetchImage name
  runImage watch stopAfter image Processor.programStart

end Console
end ChipEight
