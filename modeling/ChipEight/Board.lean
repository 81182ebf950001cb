import ChipEight.Display
import ChipEight.Effect
import ChipEight.Font
import ChipEight.Memory
import ChipEight.Processor

/-!
The board: processor, memory and display, and what an operation on one of them does to the board.
-/
namespace ChipEight

structure Board where
  processor : Processor
  memory : Memory
  display : Display

namespace Board

variable {ε α : Type}

def onProcessor (act : EStateM ε Processor α) : EStateM ε Board α :=
  fun ⟨processor, memory, display⟩ =>
    match act processor with
    | .ok a processor => .ok a ⟨processor, memory, display⟩
    | .error e processor => .error e ⟨processor, memory, display⟩

def onMemory (act : EStateM ε Memory α) : EStateM ε Board α :=
  fun ⟨processor, memory, display⟩ =>
    match act memory with
    | .ok a memory => .ok a ⟨processor, memory, display⟩
    | .error e memory => .error e ⟨processor, memory, display⟩

def onDisplay (act : EStateM ε Display α) : EStateM ε Board α :=
  fun ⟨processor, memory, display⟩ =>
    match act display with
    | .ok a display => .ok a ⟨processor, memory, display⟩
    | .error e display => .error e ⟨processor, memory, display⟩

/-! ## The single operations that instructions are made of -/

def getV (x : Register) : EStateM Fault Board Byte :=
  return (← get).processor.v.get x

def setV (x : Register) (value : Byte) : EStateM Fault Board Unit :=
  onProcessor (modify (Processor.setV x value))

def getI : EStateM Fault Board Int :=
  return (← get).processor.i

def setI (value : Int) : EStateM Fault Board Unit :=
  onProcessor (modify (Processor.setI value))

def setFlag (on : Bool) : EStateM Fault Board Unit :=
  setV Processor.flagRegister (if on then 1 else 0)

def readByte (addr : Int) : EStateM Fault Board Byte :=
  Effect.ask fun b => b.memory.read addr

def writeByte (addr : Int) (value : Byte) : EStateM Fault Board Unit :=
  onMemory (Memory.write addr value)

def getPixel (x y : Int) : EStateM Fault Board Bool :=
  Effect.ask fun b => b.display.get x y

def setPixel (x y : Int) (on : Bool) : EStateM Fault Board Unit :=
  onDisplay (Display.set x y on)

end Board
end ChipEight
