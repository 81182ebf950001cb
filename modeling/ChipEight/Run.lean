import ChipEight.Machine

/-!
Bounded runs. An image is loaded into a new machine, which cycles until a limit of steps, the first
jump to itself, or a fault that the machine does not recover from.
-/
namespace ChipEight.Run

structure Options extends Machine.Config where
  maxSteps : Int := 10000
  loadFont : Bool := true
  stopOnSelfJump : Bool := true
  trace : Bool := true
  traceRegisters : Bool := false
  traceStack : Bool := false
  initialMemory : Table Int Int := .empty

/-- One completed cycle: its number, where it fetched from and what; the index and, where asked for,
the registers and the stack (oldest first) after it. -/
structure Row where
  step : Nat
  addr : Int
  instruction : Instruction
  index : Int
  registers : Option (Vector Byte 16)
  stack : Option (List Int)

/-- How a run ended: the machine as it was left, and the failure if a fault ended the run. -/
structure Result where
  final : Machine
  halted : Bool
  trace : List Row
  fault : Option Failure

namespace Result

def steps (r : Result) : Nat :=
  r.final.cycles

def succeeded (r : Result) : Bool :=
  r.fault.isNone

/-- The picture at the end. -/
def picture (r : Result) : List String :=
  r.final.board.display.render Display.onMark Display.offMark

end Result

def row (options : Options) (addr : Int) (instruction : Instruction) (after : Machine) : Row :=
  let processor := after.board.processor
  { step := after.cycles
    addr
    instruction
    index := processor.i
    registers := if options.traceRegisters then some processor.v else none
    stack := if options.traceStack then some processor.stack.reverse else none }

/-- Loads the font if it is wanted, then the image, then single bytes over them, in this order. -/
def load (image : List Byte) (options : Options) : EStateM Fault Machine Unit := do
  if options.loadFont then
    Machine.loadFont
  Machine.load image options.start
  options.initialMemory.entries.forM fun entry =>
    Machine.onBoard (Board.onMemory (Memory.write entry.1 (UInt8.ofInt entry.2)))

/-- Cycles at most `limit` times; the rows so far come newest first. -/
def loop (options : Options) : (limit : Nat) → List Row → Machine → Result
  | 0, rows, m => { final := m, halted := false, trace := rows.reverse, fault := none }
  | limit + 1, rows, m =>
    let addr := m.board.processor.pc
    match Machine.cycle m with
    | .error incident m =>
      { final := m, halted := false, trace := rows.reverse, fault := some incident.failure }
    | .ok instruction m =>
      let rows := if options.trace then row options addr instruction m :: rows else rows
      if options.stopOnSelfJump && instruction.jumpsTo addr then
        { final := m, halted := true, trace := rows.reverse, fault := none }
      else
        loop options limit rows m

/-- What a run of an image on a new machine comes to. -/
def result (image : List Byte) (options : Options) : Result :=
  match load image options (Machine.new options.toConfig) with
  | .error fault m => { final := m, halted := false, trace := [], fault := some fault.failure }
  | .ok () m => loop options options.maxSteps.toNat [] m

/-- Runs an image, if a machine for it can be built. A fault that cannot be told leaves no result. -/
def run (image : List Byte) (options : Options) (room : Room := .usual) : Except Failure Result := do
  options.check room
  let r := result image options
  if r.fault = some .unwritable then
    throw .unwritable
  return r

end ChipEight.Run
