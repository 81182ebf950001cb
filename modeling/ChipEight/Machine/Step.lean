import ChipEight.Display.Step
import ChipEight.Effect
import ChipEight.Machine
import ChipEight.Memory.Step
import ChipEight.Processor.Step

/-!
Steps on a machine, as data: steps on its parts, loading, cycles, and questions about its past.
-/
namespace ChipEight.Machine

inductive Step
  | memory (step : Memory.Step)
  | display (step : Display.Step)
  | processor (step : Processor.Step)
  | loadFont
  | load (image : List Byte) (offset : Int)
  | cycle
  | execute (word : Int)
  | reset
  | last
  | diagnostics

def Step.perform : Step → EStateM Failure Machine Reply
  | memory step => told (onBoard (Board.onMemory step.perform))
  | display step => told (onBoard (Board.onDisplay step.perform))
  | processor step => onBoard (Board.onProcessor step.perform)
  | loadFont => told do
    Machine.loadFont
    return .done
  | load image offset => told do
    Machine.load image offset
    return .done
  | cycle => EStateM.adaptExcept Incident.failure do
    return .instruction (some (← Machine.cycle))
  | execute word => told do
    return .target (← Machine.execute (.ofInt word))
  | reset => do
    modify Machine.reset
    return .done
  | last => return .instruction (← get).last
  | diagnostics => return .reports (← get).log.reports

/-- Performs a step a number of times, but at least once, and gives what came last. -/
def Step.performTimes (times : Int) (step : Step) : EStateM Failure Machine Reply :=
  Effect.again step.perform (times - 1).toNat

end ChipEight.Machine
