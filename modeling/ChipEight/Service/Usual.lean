import ChipEight.Service.Framework

/-!
The usual framework. Whatever is left out of a request has a default, and several values may write one
number or boolean.
-/
namespace ChipEight.Service

/-! ## Reading -/

/-- The path of a request's whole body. -/
def bodyPlace : List String := ["body"]

def checkSettings (place : List String) : Json → Checked Settings
  | .obj fields => do
    let json := .obj fields
    let maxSteps ← optional place json "max_steps" 10000 (integerWithin 1 1000000)
    let loadFont ← optional place json "load_font" true boolean
    let maxDepth ← optional place json "max_stack_depth" none (optionalWithin 1 256)
    let stopOnSelfJump ← optional place json "stop_on_self_jump" true boolean
    let trace ← optional place json "trace" true boolean
    let traceRegisters ← optional place json "trace_include_registers" false boolean
    let traceStack ← optional place json "trace_include_stack" false boolean
    let memory ← match json.field? "initial_memory" with
      | some table => integerTable (place ++ ["initial_memory"]) table
      | none => pure []
    return { maxSteps, loadFont, maxDepth, stopOnSelfJump, trace, traceRegisters, traceStack, memory }
  | json => .amiss {} place .notObject json

def checkRun : Json → Checked RunRequest
  | .obj fields => do
    let json := .obj fields
    let image ← required bodyPlace json "rom" "" string
    let settings ← match json.field? "options" with
      | none | some .null => pure none
      | some options => some <$> checkSettings (bodyPlace ++ ["options"]) options
    return { image, settings }
  | json => .amiss ⟨"", none⟩ bodyPlace .notObject json

def checkList : Json → Checked ListRequest
  | .obj fields => do
    let json := .obj fields
    let image ← required bodyPlace json "rom" "" string
    let origin ← optional bodyPlace json "origin" Processor.programStart (integerWithin 0 0xFFF)
    return { image, origin }
  | json => .amiss ⟨"", 0⟩ bodyPlace .notObject json

/-! ## Writing -/

def usualStatus : Answer → Nat
  | .ran _ => 200
  | .listed _ => 200
  | .refused refusal => refusal.status
  | .invalid _ => 422

/-- The failure of an answer that cannot be written. -/
def renderFailure : Answer → Failure
  | .invalid _ => .nonfinite
  | _ => .unwritable

def Framework.usual : Framework where
  readRun json := (checkRun json).result
  readList json := (checkList json).result
  render answer :=
    if answer.Writable then .ok ⟨usualStatus answer, answer⟩ else .error (renderFailure answer)

end ChipEight.Service
