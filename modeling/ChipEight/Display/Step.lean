import ChipEight.Display
import ChipEight.Effect
import ChipEight.Reply

/-!
Steps on the display, as data. A batch performs its steps in order and ends with the first that
fails; what the steps before it did stays.
-/
namespace ChipEight.Display

inductive Step
  | clear
  | getPixel (x y : Int)
  | setPixel (x y : Int) (on : Bool)
  | lit
  | render (on off : String)
  | snapshot
  | batch (steps : List Step)

mutual

def Step.perform : Step → EStateM Fault Display Reply
  | .clear => do
    modify Display.clear
    return .done
  | .getPixel x y => Effect.ask fun d => (d.get x y).map .flag
  | .setPixel x y on => do
    set x y on
    return .done
  | .lit => do return .number (← EStateM.get).lit
  | .render on off => do return .lines ((← EStateM.get).render on off)
  | .snapshot => do return .grid (← EStateM.get).rows
  | .batch steps => do return .several (← Step.performAll steps)

def Step.performAll : List Step → EStateM Fault Display (List Reply)
  | [] => return []
  | step :: steps => do
    let reply ← step.perform
    return reply :: (← Step.performAll steps)

end

end ChipEight.Display
