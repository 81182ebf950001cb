import ChipEight.Instruction

/-!
The processor: sixteen byte registers, the index register, the program counter and the call stack.
-/
namespace ChipEight

/-- The index and the program counter are integers, since they may be given any value from outside.
The stack has its newest entry first. -/
structure Processor where
  v : Vector Byte 16
  i : Int
  pc : Int
  stack : List Int
  maxDepth : Option Int

namespace Processor

/-- Where programs start. -/
def programStart : Int := 0x200

/-- The register that some operations write a flag to. -/
def flagRegister : Register := 15

/-- Zero registers and an empty stack. -/
def fresh (start : Int) (maxDepth : Option Int) : Processor :=
  { v := Vector.replicate 16 0, i := 0, pc := start, stack := [], maxDepth }

/-- Starts afresh at an address; the depth limit stays. -/
def reset (start : Int) (p : Processor) : Processor :=
  fresh start p.maxDepth

def setV (x : Register) (value : Byte) (p : Processor) : Processor :=
  { p with v := p.v.set x value }

/-- The index is taken modulo 2 ^ 16. -/
def setI (value : Int) (p : Processor) : Processor :=
  { p with i := value % 65536 }

def push (addr : Int) (p : Processor) : Processor :=
  { p with stack := addr :: p.stack }

def flag (p : Processor) : Byte :=
  p.v[flagRegister]

/-- The depth limit, if the stack has reached it. -/
def limitReached? (p : Processor) : Option Int :=
  p.maxDepth.filter (· ≤ p.stack.length)

/-- The register that an index names; a negative one counts from the last register. -/
def register? (index : Int) : Option Register :=
  let index := if index < 0 then index + 16 else index
  if h : 0 ≤ index ∧ index < 16 then some ⟨index.toNat, by omega⟩ else none

end Processor
end ChipEight
