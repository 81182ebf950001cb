import ChipEight.Instruction

/-!
Tags: one name for each kind of operation, and which kinds have an effect on this machine.
-/
namespace ChipEight

inductive Tag
  | nop | cls | ret | sys | jp | call | seByte | sneByte | seRegister | ldByte | addByte | ldIndex
  | drw | ldFromDelay | ldFromKey | ldDelay | ldSound | addIndex | ldGlyph | ldDigits | ldMemory
  | ldRegisters | unknown
  deriving DecidableEq, Repr

namespace Tag

def all : List Tag :=
  [.nop, .cls, .ret, .sys, .jp, .call, .seByte, .sneByte, .seRegister, .ldByte, .addByte, .ldIndex,
   .drw, .ldFromDelay, .ldFromKey, .ldDelay, .ldSound, .addIndex, .ldGlyph, .ldDigits, .ldMemory,
   .ldRegisters, .unknown]

def name : Tag → String
  | nop => "NOP"
  | cls => "CLS"
  | ret => "RET"
  | sys => "SYS"
  | jp => "JP"
  | call => "CALL"
  | seByte => "SE_VX_NN"
  | sneByte => "SNE_VX_NN"
  | seRegister => "SE_VX_VY"
  | ldByte => "LD_VX_NN"
  | addByte => "ADD_VX_NN"
  | ldIndex => "LD_I_NNN"
  | drw => "DRW"
  | ldFromDelay => "LD_VX_DT"
  | ldFromKey => "LD_VX_K"
  | ldDelay => "LD_DT_VX"
  | ldSound => "LD_ST_VX"
  | addIndex => "ADD_I_VX"
  | ldGlyph => "LD_F_VX"
  | ldDigits => "LD_B_VX"
  | ldMemory => "LD_I_VX"
  | ldRegisters => "LD_VX_I"
  | unknown => "UNKNOWN"

/-- Timers, keys and native code are not emulated. -/
def supported : Tag → Bool
  | sys | ldFromDelay | ldFromKey | ldDelay | ldSound | unknown => false
  | _ => true

example : ∀ tag : Tag, tag ∈ all := by intro tag; cases tag <;> decide
example : (all.map name).Nodup := by decide

end Tag

def Operation.tag : Operation → Tag
  | .nop => .nop
  | .clear => .cls
  | .ret => .ret
  | .jump _ => .jp
  | .call _ => .call
  | .skipIfByte _ _ => .seByte
  | .skipUnlessByte _ _ => .sneByte
  | .skipIfSame _ _ => .seRegister
  | .loadByte _ _ => .ldByte
  | .addByte _ _ => .addByte
  | .setIndex _ => .ldIndex
  | .draw _ _ _ => .drw
  | .addIndex _ => .addIndex
  | .pointGlyph _ => .ldGlyph
  | .storeDigits _ => .ldDigits
  | .storeRegisters _ => .ldMemory
  | .loadRegisters _ => .ldRegisters
  | .native _ => .sys
  | .readDelay _ => .ldFromDelay
  | .waitKey _ => .ldFromKey
  | .setDelay _ => .ldDelay
  | .setSound _ => .ldSound
  | .unknown _ => .unknown

def Instruction.tag (i : Instruction) : Tag :=
  i.operation.tag

def Instruction.supported (i : Instruction) : Bool :=
  i.tag.supported

end ChipEight
