import ChipEight.Directory
import ChipEight.Instruction.Text
import ChipEight.Text.Numeral

/-!
Faults. A `Fault` is the cause of a failure, a `Report` is how a failure is told: its kind, its
message, and the step, address and word it belongs to. An `Incident` is a fault that struck in a
cycle. Where a message would have to name a number that cannot be written, there is no report, but a
failure of its own.
-/
namespace ChipEight

/-- Kinds of failure, from the general to the particular. -/
inductive FaultKind
  | any
  | runtime
  | memoryAccess
  | displayAccess
  | recoverable
  | unsupportedInstruction
  | stackUnderflow
  | stackOverflow
  | machine
  | machineState
  | romTooLarge
  deriving DecidableEq, Repr

namespace FaultKind

def all : List FaultKind :=
  [.any, .runtime, .memoryAccess, .displayAccess, .recoverable, .unsupportedInstruction,
   .stackUnderflow, .stackOverflow, .machine, .machineState, .romTooLarge]

def name : FaultKind → String
  | any => "Chip8Error"
  | runtime => "Chip8RuntimeError"
  | memoryAccess => "MemoryAccessError"
  | displayAccess => "DisplayAccessError"
  | recoverable => "RecoverableError"
  | unsupportedInstruction => "UnsupportedInstruction"
  | stackUnderflow => "StackUnderflow"
  | stackOverflow => "StackOverflow"
  | machine => "MachineError"
  | machineState => "MachineStateError"
  | romTooLarge => "RomTooLarge"

def ofName? (name : String) : Option FaultKind :=
  all.find? (·.name = name)

/-- The kind itself and every kind that takes it in. -/
def lineage : FaultKind → List FaultKind
  | any => [any]
  | runtime => [runtime, any]
  | memoryAccess => [memoryAccess, runtime, any]
  | displayAccess => [displayAccess, runtime, any]
  | recoverable => [recoverable, runtime, any]
  | unsupportedInstruction => [unsupportedInstruction, recoverable, runtime, any]
  | stackUnderflow => [stackUnderflow, recoverable, runtime, any]
  | stackOverflow => [stackOverflow, recoverable, runtime, any]
  | machine => [machine, any]
  | machineState => [machineState, machine, any]
  | romTooLarge => [romTooLarge, machine, any]

end FaultKind

/-- How a failure is told. -/
structure Report where
  kind : FaultKind
  message : String
  step : Int := 0
  addr : Int := 0
  word : Option Int := none
  deriving DecidableEq, Repr

/-- Causes of failure. An access outside memory is one to a word or to bytes that are there, or to a
range whose length is any number. -/
inductive Fault
  | outsideMemory (addr length : Int)
  | outsideRange (addr length : Int)
  | outsideDisplay (x y width height : Int)
  | unsupported (instruction : Instruction)
  | emptyStack
  | fullStack (limit : Int)
  | alreadyRunning
  | clockFixed
  | imageTooLarge (length offset capacity : Int)
  deriving DecidableEq, Repr

namespace Fault

def kind : Fault → FaultKind
  | outsideMemory _ _ => .memoryAccess
  | outsideRange _ _ => .memoryAccess
  | outsideDisplay _ _ _ _ => .displayAccess
  | unsupported _ => .unsupportedInstruction
  | emptyStack => .stackUnderflow
  | fullStack _ => .stackOverflow
  | alreadyRunning => .machineState
  | clockFixed => .machineState
  | imageTooLarge _ _ _ => .romTooLarge

/-- A recoverable fault is noted if it can be told, and the machine goes on as if the instruction did
nothing. -/
def recoverable (f : Fault) : Bool :=
  f.kind.lineage.contains .recoverable

/-- The numbers of any size that the message has in decimal. Addresses are written in hexadecimal, and
the lengths of words, images and memories are no numbers of any size. -/
def numbers : Fault → List Int
  | outsideRange _ length => [length]
  | outsideDisplay x y width height => [x, y, width, height]
  | fullStack limit => [limit]
  | _ => []

/-- Whether the message can be written. -/
def Tellable (f : Fault) : Prop :=
  ∀ n ∈ f.numbers, Numeral.Writable n

instance (f : Fault) : Decidable f.Tellable :=
  inferInstanceAs (Decidable (∀ n ∈ f.numbers, Numeral.Writable n))

def unsupportedMessage (i : Instruction) : String :=
  match i.operation with
  | .native _ => "RCA 1802 call is not implemented: " ++ wordText i.word
  | .unknown _ => "Unsupported opcode: " ++ wordText i.word
  | _ => "Timer/key instruction is not emulated: " ++ i.text

/-- The message of a fault that can be told. -/
def message : Fault → String
  | outsideMemory addr length | outsideRange addr length =>
    if length = 1 then
      "Memory address out of range: " ++ Hex.marked 5 addr
    else
      "Memory range out of bounds: " ++ Hex.marked 5 addr ++ "+" ++ toString length
  | outsideDisplay x y width height =>
    s!"Pixel out of range: ({x}, {y}) on {width}x{height} display"
  | unsupported i => unsupportedMessage i
  | emptyStack => "Return called from root level (stack empty)"
  | fullStack limit => s!"Call stack depth limit reached: {limit}"
  | alreadyRunning => "VM is already running"
  | clockFixed => "Cannot modify VM frequency while running"
  | imageTooLarge length offset capacity =>
    s!"ROM of {length} bytes does not fit at " ++ Hex.marked 5 offset ++
      s!" in {capacity} bytes of memory"

/-- The address that a fault carries by itself, outside any cycle. -/
def addr : Fault → Int
  | outsideMemory addr _ => addr
  | outsideRange addr _ => addr
  | imageTooLarge _ offset _ => offset
  | _ => 0

/-- The word that a fault carries by itself, outside any cycle. -/
def word : Fault → Option Int
  | unsupported i => some i.word.toNat
  | _ => none

/-- How a fault is told that can be told. -/
def report (f : Fault) : Report :=
  { kind := f.kind, message := f.message, addr := f.addr, word := f.word }

end Fault

/-- A fault that struck in a cycle: the number of the cycle, the address it fetched from, and the
instruction if one was fetched. -/
structure Incident where
  fault : Fault
  step : Nat
  addr : Int
  instruction : Option Instruction
  deriving DecidableEq, Repr

/-- A fault in a cycle is told with the place of the cycle, not with its own. An instruction that was
not fetched leaves the word of the fault as it is. -/
def Incident.report (i : Incident) : Report :=
  { kind := i.fault.kind
    message := i.fault.message
    step := i.step
    addr := i.addr
    word := match i.instruction with
      | some instruction => some instruction.word.toNat
      | none => i.fault.word }

/-- What goes to the log of an incident: its report, if the fault is recoverable and can be told. -/
def Incident.note? (i : Incident) : Option Report :=
  if i.fault.recoverable ∧ i.fault.Tellable then some i.report else none

/-- How a request can fail: with a report, or for a reason that has none. A number that is too long
is `unwritable`; numbers overflow where they are beyond what sizes and rates are counted in; a thread
cannot wait for its own end; no answer can hold a number that is not finite. -/
inductive Failure
  | reported (report : Report)
  | unwritable
  | negativeSize
  | overflow
  | noRoom
  | clockRate (frequency : Int)
  | noRegister (index : Int)
  | file (fault : FileFault)
  | ownThread
  | nonfinite
  deriving DecidableEq, Repr

/-- The report of a failure, if it has one. -/
def Failure.report? : Failure → Option Report
  | reported report => some report
  | _ => none

/-- The text of a failure, if it has one. -/
def Failure.message? : Failure → Option String
  | reported report => some report.message
  | unwritable => none
  | negativeSize => some "negative count"
  | overflow => none
  | noRoom => none
  | clockRate frequency => (Numeral.text? frequency).map ("Frequency must be positive: " ++ ·)
  | noRegister _ => none
  | file .nullCharacter => some "embedded null byte"
  | file _ => none
  | ownThread => none
  | nonfinite => some "Out of range float values are not JSON compliant"

/-- The failure that a fault is. -/
def Fault.failure (f : Fault) : Failure :=
  if f.Tellable then .reported f.report else .unwritable

/-- The failure that an incident is. -/
def Incident.failure (i : Incident) : Failure :=
  if i.fault.Tellable then .reported i.report else .unwritable

end ChipEight
