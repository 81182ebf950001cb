import ChipEight.Service.Usual

/-!
The request service: runs an image, or lists its instructions, as a JSON request asks. A request that
the framework does not pass is invalid; of the others some are refused.
-/
namespace ChipEight.Service

def run (body : Json) (framework : Framework := .usual) (room : Room := .usual) :
    Except Failure Response :=
  match framework.readRun body with
  | .error issues => framework.render (.invalid issues)
  | .ok request =>
    match plan request with
    | .error refusal => framework.render (.refused refusal)
    | .ok (bytes, options) => do
      let result ← Run.run bytes options room
      framework.render (.ran result)

def list (body : Json) (framework : Framework := .usual) : Except Failure Response :=
  match framework.readList body with
  | .error issues => framework.render (.invalid issues)
  | .ok request =>
    match image request.image with
    | .error refusal => framework.render (.refused refusal)
    | .ok bytes => framework.render (.listed (Instruction.listing bytes request.origin))

end ChipEight.Service
