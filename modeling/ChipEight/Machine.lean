import ChipEight.Board.Execute
import ChipEight.Log

/-!
The machine: a board that is driven in cycles. A cycle fetches the instruction at the program
counter, executes it and commits the next address. Recoverable faults that can be told go to the log
and the cycle goes on as if nothing had been asked; any other fault is raised, but only after the
commit.
-/
namespace ChipEight

structure Machine where
  board : Board
  start : Int
  cycles : Nat
  log : Log
  last : Option Instruction

/-- What a machine is built with. -/
structure Machine.Config where
  memorySize : Int := Memory.defaultSize
  displayWidth : Int := Display.defaultWidth
  displayHeight : Int := Display.defaultHeight
  start : Int := Processor.programStart
  maxDepth : Option Int := none

namespace Machine

/-- Memory and display must be of a size that can be had; the memory is looked at first. -/
def Config.check (room : Room) (config : Config) : Except Failure Unit := do
  Memory.checkSize room config.memorySize
  Display.checkSize room config.displayWidth config.displayHeight

/-- A machine with zeroed memory and its display off. -/
def new (config : Config) : Machine :=
  { board := {
      processor := .fresh config.start config.maxDepth
      memory := .zeroed config.memorySize.toNat
      display := .blank config.displayWidth config.displayHeight }
    start := config.start
    cycles := 0
    log := .empty
    last := none }

/-- A new machine, if it can be built. -/
def build (config : Config) (room : Room := .usual) : Except Failure Machine := do
  config.check room
  return new config

/-- Starts afresh; memory and display stay as they are. -/
def reset : Machine → Machine
  | ⟨⟨processor, memory, display⟩, start, _, _, _⟩ =>
    ⟨⟨processor.reset start, memory, display⟩, start, 0, .empty, none⟩

variable {ε α : Type}

def onBoard (act : EStateM ε Board α) : EStateM ε Machine α :=
  fun ⟨board, start, cycles, log, last⟩ =>
    match act board with
    | .ok a board => .ok a ⟨board, start, cycles, log, last⟩
    | .error e board => .error e ⟨board, start, cycles, log, last⟩

/-! ## Loading -/

def loadFont : EStateM Fault Machine Unit :=
  onBoard (Board.onMemory (Memory.writeRange Font.start Font.bytes))

/-- Copies an image to an address; an image that would pass the end of memory is refused as such. -/
def load (image : List Byte) (offset : Int) : EStateM Fault Machine Unit := do
  let capacity := (← get).board.memory.size
  if offset + image.length > capacity then
    throw (.imageTooLarge image.length offset capacity)
  onBoard (Board.onMemory (Memory.writeRange offset image))

/-! ## Running -/

/-- Counts a cycle and moves the program counter, modulo 2 ^ 16. -/
def commit (next : Int) : Machine → Machine
  | ⟨⟨processor, memory, display⟩, start, cycles, log, last⟩ =>
    ⟨⟨{ processor with pc := next % 65536 }, memory, display⟩, start, cycles + 1, log, last⟩

def cycle : EStateM Incident Machine Instruction := fun ⟨board, start, cycles, log, last⟩ =>
  let addr := board.processor.pc
  match board.memory.fetch addr with
  | .error fault =>
    .error ⟨fault, cycles + 1, addr, none⟩ (commit (addr + 2) ⟨board, start, cycles, log, last⟩)
  | .ok instruction =>
    match Board.execute instruction board with
    | .ok next board =>
      .ok instruction (commit (next.getD (addr + 2)) ⟨board, start, cycles, log, some instruction⟩)
    | .error fault board =>
      let incident : Incident := ⟨fault, cycles + 1, addr, some instruction⟩
      match incident.note? with
      | some report =>
        .ok instruction
          (commit (addr + 2) ⟨board, start, cycles, log.push report, some instruction⟩)
      | none => .error incident (commit (addr + 2) ⟨board, start, cycles, log, some instruction⟩)

/-- Executes an instruction outside the cycles. Every fault is raised and none is logged, and the
program counter stays. -/
def execute (instruction : Instruction) : EStateM Fault Machine (Option Int) :=
  onBoard (Board.execute instruction)

end Machine
end ChipEight
