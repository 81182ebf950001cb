import ChipEight.Instruction
import ChipEight.Text.Hex

/-!
The assembly text of an instruction: a mnemonic and exactly the operands that its operation uses.
-/
namespace ChipEight

/-- A register is written as V and its digit. -/
def registerText (x : Register) : String :=
  "V" ++ String.singleton (Hex.upperDigit x)

def byteText (b : Byte) : String :=
  Hex.marked 4 b.toNat

def addressText (a : Address) : String :=
  Hex.marked 5 a.val

def wordText (w : Word) : String :=
  Hex.marked 6 w.toNat

def Operation.text : Operation → String
  | .nop => "NOP"
  | .clear => "CLS"
  | .ret => "RET"
  | .jump target => "JP " ++ addressText target
  | .call target => "CALL " ++ addressText target
  | .skipIfByte x value => "SE " ++ registerText x ++ ", " ++ byteText value
  | .skipUnlessByte x value => "SNE " ++ registerText x ++ ", " ++ byteText value
  | .skipIfSame x y => "SE " ++ registerText x ++ ", " ++ registerText y
  | .loadByte x value => "LD " ++ registerText x ++ ", " ++ byteText value
  | .addByte x value => "ADD " ++ registerText x ++ ", " ++ byteText value
  | .setIndex target => "LD I, " ++ addressText target
  | .draw x y rows =>
    "DRW " ++ registerText x ++ ", " ++ registerText y ++ ", " ++ toString rows.val
  | .addIndex x => "ADD I, " ++ registerText x
  | .pointGlyph x => "LD F, " ++ registerText x
  | .storeDigits x => "LD B, " ++ registerText x
  | .storeRegisters x => "LD [I], " ++ registerText x
  | .loadRegisters x => "LD " ++ registerText x ++ ", [I]"
  | .native target => "SYS " ++ addressText target
  | .readDelay x => "LD " ++ registerText x ++ ", DT"
  | .waitKey x => "LD " ++ registerText x ++ ", K"
  | .setDelay x => "LD DT, " ++ registerText x
  | .setSound x => "LD ST, " ++ registerText x
  | .unknown word => "??? " ++ wordText word

def Instruction.text (i : Instruction) : String :=
  i.operation.text

end ChipEight
