/-!
Instructions. A 16-bit word carries operand fields that can be read off whatever it means, and
encodes one operation: `Instruction.operation` decodes it.
-/
namespace ChipEight

abbrev Byte := UInt8
abbrev Word := UInt16
abbrev Register := Fin 16
abbrev Address := Fin 4096

structure Instruction where
  word : Word
  deriving DecidableEq, Repr

/-- What an instruction asks for, with the operands it uses. The last six are recognised but have no
effect on this machine. -/
inductive Operation
  | nop
  | clear
  | ret
  | jump (target : Address)
  | call (target : Address)
  | skipIfByte (x : Register) (value : Byte)
  | skipUnlessByte (x : Register) (value : Byte)
  | skipIfSame (x y : Register)
  | loadByte (x : Register) (value : Byte)
  | addByte (x : Register) (value : Byte)
  | setIndex (target : Address)
  | draw (x y : Register) (rows : Fin 16)
  | addIndex (x : Register)
  | pointGlyph (x : Register)
  | storeDigits (x : Register)
  | storeRegisters (x : Register)
  | loadRegisters (x : Register)
  | native (target : Address)
  | readDelay (x : Register)
  | waitKey (x : Register)
  | setDelay (x : Register)
  | setSound (x : Register)
  | unknown (word : Word)
  deriving DecidableEq, Repr

namespace Instruction

/-- An integer taken modulo 2 ^ 16. -/
def ofInt (n : Int) : Instruction :=
  ⟨UInt16.ofInt n⟩

/-- The instruction whose word has the given high and low bytes. -/
def ofBytes (high low : Byte) : Instruction :=
  ⟨UInt16.ofNat (256 * high.toNat + low.toNat)⟩

/-- Bits 12 to 15. -/
def family (i : Instruction) : Nat :=
  i.word.toNat / 4096

/-- Bits 8 to 11. -/
def x (i : Instruction) : Register :=
  ⟨i.word.toNat / 256 % 16, Nat.mod_lt _ (by decide)⟩

/-- Bits 4 to 7. -/
def y (i : Instruction) : Register :=
  ⟨i.word.toNat / 16 % 16, Nat.mod_lt _ (by decide)⟩

/-- Bits 0 to 3. -/
def n (i : Instruction) : Fin 16 :=
  ⟨i.word.toNat % 16, Nat.mod_lt _ (by decide)⟩

/-- Bits 0 to 7. -/
def nn (i : Instruction) : Byte :=
  UInt8.ofNat (i.word.toNat % 256)

/-- Bits 0 to 11. -/
def nnn (i : Instruction) : Address :=
  ⟨i.word.toNat % 4096, Nat.mod_lt _ (by decide)⟩

/-- Family 0 has three operations of its own; every other word in it calls native code. -/
def systemOperation (i : Instruction) : Operation :=
  match i.word.toNat with
  | 0x0000 => .nop
  | 0x00E0 => .clear
  | 0x00EE => .ret
  | _ => .native i.nnn

/-- Family F is told apart by the low byte. -/
def registerOperation (i : Instruction) : Operation :=
  match i.nn.toNat with
  | 0x07 => .readDelay i.x
  | 0x0A => .waitKey i.x
  | 0x15 => .setDelay i.x
  | 0x18 => .setSound i.x
  | 0x1E => .addIndex i.x
  | 0x29 => .pointGlyph i.x
  | 0x33 => .storeDigits i.x
  | 0x55 => .storeRegisters i.x
  | 0x65 => .loadRegisters i.x
  | _ => .unknown i.word

def operation (i : Instruction) : Operation :=
  match i.family with
  | 0x0 => i.systemOperation
  | 0x1 => .jump i.nnn
  | 0x2 => .call i.nnn
  | 0x3 => .skipIfByte i.x i.nn
  | 0x4 => .skipUnlessByte i.x i.nn
  | 0x5 => .skipIfSame i.x i.y
  | 0x6 => .loadByte i.x i.nn
  | 0x7 => .addByte i.x i.nn
  | 0xA => .setIndex i.nnn
  | 0xD => .draw i.x i.y i.n
  | 0xF => i.registerOperation
  | _ => .unknown i.word

/-- Whether this is a jump to the given address. -/
def jumpsTo (i : Instruction) (addr : Int) : Bool :=
  match i.operation with
  | .jump target => (target.val : Int) == addr
  | _ => false

end Instruction
end ChipEight
