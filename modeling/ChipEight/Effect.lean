/-!
Operations that answer or fail and leave a state in both cases: `EStateM ε σ α`. A failure undoes
nothing, so what was done before it stays done.
-/
namespace ChipEight.Effect

variable {ε σ α ι : Type}

/-- The state that an operation left. -/
def stateOf : EStateM.Result ε σ α → σ
  | .ok _ s => s
  | .error _ s => s

/-- What an operation answered, or how it failed. -/
def outcomeOf : EStateM.Result ε σ α → Except ε α
  | .ok a _ => .ok a
  | .error e _ => .error e

/-- Looks at the state, which stays as it is. -/
def ask (look : σ → Except ε α) : EStateM ε σ α := fun s =>
  match look s with
  | .ok a => .ok a s
  | .error e => .error e s

/-- Does an operation `n` times and then once more, whatever fails, and gives what the last one
gave. -/
def again (act : EStateM ε σ α) : Nat → EStateM ε σ α
  | 0 => act
  | n + 1 => fun s => again act n (stateOf (act s))

/-- Does one operation for each item, whatever fails: what each of them gave. -/
def attempts (act : ι → EStateM ε σ α) : List ι → σ → List (Except ε α) × σ
  | [], s => ([], s)
  | i :: is, s =>
    let result := act i s
    let (rest, last) := attempts act is (stateOf result)
    (outcomeOf result :: rest, last)

/-- Does one operation for each item, whatever fails: what each of them gave and the state it
left. -/
def history (act : ι → EStateM ε σ α) : List ι → σ → List (Except ε α × σ)
  | [], _ => []
  | i :: is, s =>
    let result := act i s
    (outcomeOf result, stateOf result) :: history act is (stateOf result)

end ChipEight.Effect
