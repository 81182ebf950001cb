import ChipEight.Service

/-!
# Frameworks that keep to what is declared

What the service relies on of a framework (`Lawful`): that the fields of a request that passes have the types and the
bounds which they are declared with, and that what the service returns or raises is answered with its status. Nothing
is said of which requests pass, nor of how the others are answered.
-/

namespace ChipEight.Service

/-! ## Requests that differ in their values for single bytes -/

/-- Two objects have the same fields, except for one. -/
def AlikeBut (name : String) (json json' : Json) : Prop :=
  ∃ fields fields', json = .obj fields ∧ json' = .obj fields' ∧ ∀ other ≠ name, json.field? other = json'.field? other

/-- Two bodies of requests to run have the same fields and the same options, except for the values for single bytes. -/
def SameButMemory (body body' : Json) : Prop :=
  AlikeBut "options" body body' ∧ ∃ options options', body.field? "options" = some options ∧
    body'.field? "options" = some options' ∧ AlikeBut "initial_memory" options options'

/-! ## What is relied on -/

/-- The limits that settings are declared with. -/
structure Settings.Bounded (settings : Settings) : Prop where
  maxSteps : 1 ≤ settings.maxSteps ∧ settings.maxSteps ≤ 1000000
  maxDepth : ∀ depth, settings.maxDepth = some depth → 1 ≤ depth ∧ depth ≤ 256

/-- The settings without their values for single bytes. -/
def Settings.apart (settings : Settings) : Settings := { settings with memory := [] }

/-- The service returns the answer as a value. -/
def Answer.Returned : Answer → Prop
  | ran _ | listed _ => True
  | refused _ | invalid _ => False

/-- A framework does what the declarations of requests and answers ask of it. The text of an image is a string, and
what is read of one field does not depend on another one. A value that is returned is answered with status 200 if it
can be written as JSON; if not, there is no answer. -/
structure Framework.Lawful (framework : Framework) : Prop where
  runImage : ∀ {body request text}, framework.readRun body = .ok request → body.field? "rom" = some (.str text) →
    request.image = text
  bounded : ∀ {body request}, framework.readRun body = .ok request → request.chosen.Bounded
  apart : ∀ {body body' request request'}, SameButMemory body body' → framework.readRun body = .ok request →
    framework.readRun body' = .ok request' →
    request'.image = request.image ∧ request'.chosen.apart = request.chosen.apart
  listImage : ∀ {body request text}, framework.readList body = .ok request → body.field? "rom" = some (.str text) →
    request.image = text
  origin : ∀ {body request}, framework.readList body = .ok request → 0 ≤ request.origin ∧ request.origin ≤ 0xFFF
  returned : ∀ {answer}, answer.Returned → answer.Writable → framework.render answer = .ok ⟨200, answer⟩
  unwritten : ∀ {answer}, answer.Returned → ¬ answer.Writable → ∃ failure, framework.render answer = .error failure
  raised : ∀ refusal, framework.render (.refused refusal) = .ok ⟨refusal.status, .refused refusal⟩

end ChipEight.Service
