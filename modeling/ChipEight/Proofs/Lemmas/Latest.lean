import ChipEight.Proofs.Lemmas.Effect

/-!
# The latest note

Operations are noted one after the other, each with the state that it finds. What is shown of the state at the end is
the latest note, if each operation by itself leaves what it notes last.
-/

namespace ChipEight.Effect

variable {ε σ α β γ ι : Type}

/-- The notes on operations that are done one after the other, whatever they raise. -/
def notes (act : ι → EStateM ε σ α) (note : ι → σ → List β) : List ι → σ → List β
  | [], _ => []
  | i :: is, s => note i s ++ notes act note is (stateOf (act i s))

/-- The notes on an operation, of which a failed one has none. -/
def ifDone (notes : List β) : EStateM.Result ε σ α → List β
  | .ok _ _ => notes
  | .error _ _ => []

theorem getLastD_append (as bs : List β) (b : β) : (as ++ bs).getLastD b = bs.getLastD (as.getLastD b) := by
  rw [List.getLastD_eq_getLast?, List.getLast?_append, List.getLastD_eq_getLast?, List.getLastD_eq_getLast?]
  cases bs.getLast? <;> rfl

variable {act : ι → EStateM ε σ α} {note : ι → σ → List β} {I : σ → Prop}

theorem view_attempts (view : σ → γ) (f : β → γ) (hI : ∀ i, Preserves I (act i))
    (hnote : ∀ i s b, I s → view s = f b → view (stateOf (act i s)) = f ((note i s).getLastD b))
    (is : List ι) {s : σ} {b : β} (hs : I s) (hb : view s = f b) :
    view (attempts act is s).2 = f ((notes act note is s).getLastD b) := by
  induction is generalizing s b with
  | nil => exact hb
  | cons i is ih =>
      rw [notes, getLastD_append]
      exact ih (hI i s hs) (hnote i s b hs hb)

end ChipEight.Effect
