import ChipEight.Board

/-!
Execution of one instruction. An instruction may ask for an address to go on at; the program counter
itself is moved by the machine's cycle only. A fault ends the instruction and leaves what it did
before.
-/
namespace ChipEight.Board

/-! ## Control flow -/

/-- An instruction that asks for no address. -/
def proceed (act : EStateM Fault Board Unit) : EStateM Fault Board (Option Int) := do
  act
  return none

/-- Skips the next instruction: goes on two words after this one. -/
def skipIf (condition : Bool) : EStateM Fault Board (Option Int) := do
  let pc := (← get).processor.pc
  return if condition then some (pc + 4) else none

/-- The stack holds the addresses of the calls themselves. -/
def call (target : Address) : EStateM Fault Board (Option Int) := do
  let p := (← get).processor
  match p.limitReached? with
  | some limit => throw (.fullStack limit)
  | none =>
    onProcessor (modify (Processor.push p.pc))
    return some target.val

/-- Goes on after the call that was made last. -/
def ret : EStateM Fault Board (Option Int) := do
  match (← get).processor.stack with
  | [] => throw .emptyStack
  | caller :: rest =>
    onProcessor (modify fun p => { p with stack := rest })
    return some (caller + 2)

/-! ## Drawing -/

/-- Flips a pixel, and raises the flag if the pixel was on. -/
def flip (x y : Int) : EStateM Fault Board Unit := do
  let wasOn ← getPixel x y
  if wasOn then
    setFlag true
  setPixel x y (!wasOn)

/-- Flips a pixel for each bit that is set; the most significant bit is leftmost. -/
def drawByte (x y : Int) (sprite : Byte) : EStateM Fault Board Unit :=
  (List.range 8).forM fun column =>
    if sprite.toNat.testBit (7 - column) then flip (x + column) y else pure ()

/-- Draws the byte at the index in the first row, the byte after it in the next one, and so on. -/
def drawRows (x y : Int) (count : Nat) : EStateM Fault Board Unit :=
  (List.range count).forM fun row => do
    let sprite ← readByte ((← getI) + row)
    drawByte x (y + row) sprite

/-- The place is read before the flag is lowered, since it may stand in the flag register. -/
def draw (vx vy : Register) (rows : Fin 16) : EStateM Fault Board Unit := do
  let x ← getV vx
  let y ← getV vy
  setFlag false
  drawRows x.toNat y.toNat rows

/-! ## The index and blocks of memory -/

/-- From this value on a sum with the index raises the flag. -/
def indexCeiling : Int := 0xFFF

def addIndex (x : Register) : EStateM Fault Board Unit := do
  let total := (← getI) + (← getV x).toNat
  setFlag (total ≥ indexCeiling)
  setI total

/-- Stores hundreds, tens and ones at the index and the two addresses after it. -/
def storeDigits (x : Register) : EStateM Fault Board Unit := do
  let value ← getV x
  writeByte (← getI) (value / 100)
  writeByte ((← getI) + 1) (value / 10 % 10)
  writeByte ((← getI) + 2) (value % 10)

/-- The registers up to and including one. -/
def registersTo (x : Register) : List Register :=
  (List.finRange 16).filter (· ≤ x)

/-- Stores registers at the index, which moves on after each of them. -/
def storeRegisters (x : Register) : EStateM Fault Board Unit :=
  (registersTo x).forM fun r => do
    writeByte (← getI) (← getV r)
    setI ((← getI) + 1)

/-- Loads registers from the index, which moves on after each of them. -/
def loadRegisters (x : Register) : EStateM Fault Board Unit :=
  (registersTo x).forM fun r => do
    setV r (← readByte (← getI))
    setI ((← getI) + 1)

/-! ## All instructions -/

def execute (i : Instruction) : EStateM Fault Board (Option Int) := do
  match i.operation with
  | .nop => return none
  | .clear => proceed (onDisplay (modify Display.clear))
  | .ret => ret
  | .jump target => return some target.val
  | .call target => call target
  | .skipIfByte x value => skipIf ((← getV x) == value)
  | .skipUnlessByte x value => skipIf ((← getV x) != value)
  | .skipIfSame x y => skipIf ((← getV x) == (← getV y))
  | .loadByte x value => proceed (setV x value)
  | .addByte x value => proceed (do setV x ((← getV x) + value))
  | .setIndex target => proceed (setI target.val)
  | .draw x y rows => proceed (draw x y rows)
  | .addIndex x => proceed (addIndex x)
  | .pointGlyph x => proceed (do setI (Font.glyphAddress (← getV x).toNat))
  | .storeDigits x => proceed (storeDigits x)
  | .storeRegisters x => proceed (storeRegisters x)
  | .loadRegisters x => proceed (loadRegisters x)
  | .native _ | .readDelay _ | .waitKey _ | .setDelay _ | .setSound _ | .unknown _ =>
    throw (.unsupported i)

end ChipEight.Board
