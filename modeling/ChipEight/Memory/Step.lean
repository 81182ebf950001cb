import ChipEight.Effect
import ChipEight.Memory
import ChipEight.Reply

/-!
Steps on memory, as data.
-/
namespace ChipEight.Memory

inductive Step
  | readByte (addr : Int)
  | readWord (addr : Int)
  | readBytes (addr length : Int)
  | writeByte (addr value : Int)
  | writeBytes (addr : Int) (values : List Int)
  | erase
  | snapshot
  | size

/-- Integers to be stored are taken modulo 256. -/
def Step.perform : Step → EStateM Fault Memory Reply
  | readByte addr => Effect.ask fun m => (m.read addr).map fun b => .number b.toNat
  | readWord addr => Effect.ask fun m => (m.fetch addr).map fun i => .number i.word.toNat
  | readBytes addr length => Effect.ask fun m => (m.readRange addr length).map .bytes
  | writeByte addr value => do
    write addr (UInt8.ofInt value)
    return .done
  | writeBytes addr values => do
    writeRange addr (values.map UInt8.ofInt)
    return .done
  | erase => do
    modify Memory.erase
    return .done
  | snapshot => return .bytes (← get).snapshot
  | size => return .number (← get).size

end ChipEight.Memory
