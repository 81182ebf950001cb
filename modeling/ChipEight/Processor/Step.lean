import ChipEight.Processor
import ChipEight.Reply

/-!
Steps on the processor, as data.
-/
namespace ChipEight.Processor

inductive Step
  | setV (index value : Int)
  | setI (value : Int)
  | rawI (value : Int)
  | rawPc (value : Int)
  | push (addr : Int)
  | setMaxDepth (limit : Option Int)
  | flag
  | reset (start : Int)

/-- Only a register index can be refused. Raw values are stored as they are. -/
def Step.perform : Step → EStateM Failure Processor Reply
  | setV index value =>
    match register? index with
    | some x => do
      modify (Processor.setV x (UInt8.ofInt value))
      return .done
    | none => throw (.noRegister index)
  | setI value => do
    modify (Processor.setI value)
    return .done
  | rawI value => do
    modify fun p => { p with i := value }
    return .done
  | rawPc value => do
    modify fun p => { p with pc := value }
    return .done
  | push addr => do
    modify (Processor.push addr)
    return .done
  | setMaxDepth limit => do
    modify fun p => { p with maxDepth := limit }
    return .done
  | flag => return .number (← get).flag.toNat
  | reset start => do
    modify (Processor.reset start)
    return .done

end ChipEight.Processor
