import ChipEight.Run
import ChipEight.Service.Check
import ChipEight.Text.Blank
import ChipEight.Text.Hex

/-!
Requests to run an image or to list its instructions: what they say, and what a run is to do for
them. The text of an image is looked at first, then the addresses.
-/
namespace ChipEight.Service

/-- Why a request of the right shape is refused. -/
inductive Refusal
  | notHex
  | imageTooLarge
  | notAddress (key : String)
  deriving DecidableEq, Repr

/-- The bytes that fit between the start of programs and the end of memory. -/
def imageLimit : Nat := 3584

def Refusal.message : Refusal → String
  | notHex => "ROM must be a hex string"
  | imageTooLarge => s!"ROM size exceeds limit of {imageLimit} bytes"
  | notAddress key => "Invalid memory address key: " ++ key

/-- The status with which a refusal is raised. -/
def Refusal.status (_ : Refusal) : Nat := 400

/-- What a request may ask of a run. Values for single bytes come with the texts of their
addresses. -/
structure Settings where
  maxSteps : Int := 10000
  loadFont : Bool := true
  maxDepth : Option Int := none
  stopOnSelfJump : Bool := true
  trace : Bool := true
  traceRegisters : Bool := false
  traceStack : Bool := false
  memory : List (String × Int) := []

structure RunRequest where
  image : String
  settings : Option Settings := none

structure ListRequest where
  image : String
  origin : Int := Processor.programStart

/-! ## The parts of a request -/

/-- The image that a text writes in hexadecimal digits; blanks may stand anywhere between them. -/
def image (text : String) : Except Refusal (List Byte) :=
  match Hex.bytes? (text.toList.filter fun c => !Blank.isBlank c) with
  | none => .error .notHex
  | some bytes => if imageLimit < bytes.length then .error .imageTooLarge else .ok bytes

/-- Values by the address that their key writes; of keys for one address the last counts. -/
def addressed (values : List (String × Int)) : Except Refusal (Table Int Int) := do
  let pairs ← values.mapM fun (key, value) =>
    match Numeral.literal? key with
    | some addr => .ok (addr, value)
    | none => .error (.notAddress key)
  return .ofList pairs

/-- The settings of a request, which may leave all of them out. -/
def RunRequest.chosen (request : RunRequest) : Settings :=
  request.settings.getD {}

/-- The options of a run: the machine is the usual one, but for the depth of its stack. -/
def Settings.options (settings : Settings) (initialMemory : Table Int Int) : Run.Options where
  maxSteps := settings.maxSteps
  loadFont := settings.loadFont
  maxDepth := settings.maxDepth
  stopOnSelfJump := settings.stopOnSelfJump
  trace := settings.trace
  traceRegisters := settings.traceRegisters
  traceStack := settings.traceStack
  initialMemory := initialMemory

/-- The image that a request to run is about, and the options of the run. -/
def plan (request : RunRequest) : Except Refusal (List Byte × Run.Options) := do
  let bytes ← image request.image
  let initialMemory ← addressed request.chosen.memory
  return (bytes, request.chosen.options initialMemory)

end ChipEight.Service
