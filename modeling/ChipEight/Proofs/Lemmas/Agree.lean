import ChipEight.Proofs.Lemmas.Effect

/-!
# Two operations side by side

Operations agree if they end alike whenever they start from states that are related, and leave states that are
related again. Like `Obeys`, this passes through sequences and loops. With equal states for related ones it says
of two operations that no run tells them apart.
-/

namespace ChipEight.Effect

variable {ε σ τ α β ι : Type}

/-- The same answer or the same failure, and states that are related. -/
inductive Alike (R : σ → τ → Prop) : EStateM.Result ε σ α → EStateM.Result ε τ α → Prop
  | ok (a : α) {s : σ} {t : τ} (h : R s t) : Alike R (.ok a s) (.ok a t)
  | error (e : ε) {s : σ} {t : τ} (h : R s t) : Alike R (.error e s) (.error e t)

/-- From states that are related two operations end alike. -/
def Agree (R : σ → τ → Prop) (x : EStateM ε σ α) (y : EStateM ε τ α) : Prop :=
  ∀ s t, R s t → Alike R (x s) (y t)

variable {R : σ → τ → Prop}

theorem Alike.outcome {r : EStateM.Result ε σ α} {r' : EStateM.Result ε τ α} (h : Alike R r r') :
    outcomeOf r = outcomeOf r' := by
  cases h <;> rfl

theorem Alike.state {r : EStateM.Result ε σ α} {r' : EStateM.Result ε τ α} (h : Alike R r r') :
    R (stateOf r) (stateOf r') := by
  cases h with
  | ok _ hR => exact hR
  | error _ hR => exact hR

theorem alike_of_outcome {r : EStateM.Result ε σ α} {r' : EStateM.Result ε τ α} (h : outcomeOf r = outcomeOf r')
    (hR : R (stateOf r) (stateOf r')) : Alike R r r' := by
  cases r <;> cases r' <;> cases h
  · exact .ok _ hR
  · exact .error _ hR

theorem Agree.pure (a : α) : Agree (ε := ε) R (pure a) (pure a) := fun _ _ hR => .ok a hR

theorem Alike.bind {x : EStateM ε σ α} {y : EStateM ε τ α} {f : α → EStateM ε σ β} {g : α → EStateM ε τ β}
    {s : σ} {t : τ} (h : Alike R (x s) (y t))
    (hf : ∀ a s' t', x s = .ok a s' → R s' t' → Alike R (f a s') (g a t')) :
    Alike R ((x >>= f) s) ((y >>= g) t) := by
  generalize hs : x s = r at h
  generalize ht : y t = r' at h
  cases h with
  | ok a hR =>
      rw [bind_of_ok hs, bind_of_ok ht]
      exact hf a _ _ hs hR
  | error e hR =>
      rw [bind_of_error hs, bind_of_error ht]
      exact .error e hR

theorem Agree.bind {x : EStateM ε σ α} {y : EStateM ε τ α} {f : α → EStateM ε σ β} {g : α → EStateM ε τ β}
    (hx : Agree R x y) (hf : ∀ a, Agree R (f a) (g a)) : Agree R (x >>= f) (y >>= g) :=
  fun s t hR => (hx s t hR).bind fun a s' t' _ hR' => hf a s' t' hR'

theorem Agree.mapM {f : ι → EStateM ε σ α} {g : ι → EStateM ε τ α} (is : List ι)
    (h : ∀ i ∈ is, Agree R (f i) (g i)) : Agree R (is.mapM f) (is.mapM g) := by
  induction is with
  | nil => rw [List.mapM_nil, List.mapM_nil]; exact Agree.pure _
  | cons i is ih =>
      rw [List.mapM_cons, List.mapM_cons]
      refine Agree.bind (h i List.mem_cons_self) fun a => Agree.bind (ih fun i hi => ?_) fun as => ?_
      · exact h i (List.mem_cons_of_mem _ hi)
      · exact Agree.pure _

theorem Agree.forM {f : ι → EStateM ε σ PUnit} {g : ι → EStateM ε τ PUnit} (is : List ι)
    (h : ∀ i ∈ is, Agree R (f i) (g i)) : Agree R (is.forM f) (is.forM g) := by
  induction is with
  | nil => exact Agree.pure _
  | cons i is ih =>
      refine Agree.bind (h i List.mem_cons_self) fun _ => ih fun i hi => ?_
      exact h i (List.mem_cons_of_mem _ hi)

theorem Agree.attempts {f : ι → EStateM ε σ α} {g : ι → EStateM ε τ α} (is : List ι)
    (h : ∀ i ∈ is, Agree R (f i) (g i)) {s : σ} {t : τ} (hR : R s t) :
    (attempts f is s).1 = (attempts g is t).1 ∧ R (attempts f is s).2 (attempts g is t).2 := by
  induction is generalizing s t with
  | nil => exact ⟨rfl, hR⟩
  | cons i is ih =>
      have hfirst := h i List.mem_cons_self s t hR
      have hrest := ih (fun i hi => h i (List.mem_cons_of_mem _ hi)) hfirst.state
      refine ⟨?_, hrest.2⟩
      show outcomeOf (f i s) :: _ = outcomeOf (g i t) :: _
      rw [hfirst.outcome, hrest.1]

/-! ## Loops from one state -/

/-- The items that a loop comes to, up to the first that fails, each with the state that it finds. -/
def starts (act : ι → EStateM ε σ PUnit) : List ι → σ → List (ι × σ)
  | [], _ => []
  | i :: is, s =>
    (i, s) :: match act i s with
      | .ok _ s' => starts act is s'
      | .error _ _ => []

/-- Two loops end alike if their operations do from each state that the first one comes to. -/
theorem Alike.forM {f : ι → EStateM ε σ PUnit} {g : ι → EStateM ε τ PUnit} {is : List ι} {s : σ} {t : τ}
    (hR : R s t) (h : ∀ start ∈ starts f is s, ∀ t, R start.2 t → Alike R (f start.1 start.2) (g start.1 t)) :
    Alike R (is.forM f s) (is.forM g t) := by
  induction is generalizing s t with
  | nil => exact .ok _ hR
  | cons i is ih =>
      refine (h (i, s) List.mem_cons_self t hR).bind fun _ s' t' hs hR' => ih hR' fun start hmem => h start ?_
      rw [starts, hs]
      exact List.mem_cons_of_mem _ hmem

/-! ## Equal states -/

/-- Equal states in which `I` holds. -/
def Same (I : σ → Prop) (s t : σ) : Prop := s = t ∧ I s

variable {I : σ → Prop} {P : ε → Prop}

theorem Obeys.agree {act : EStateM ε σ α} (h : Obeys I P act) : Agree (Same I) act act := by
  rintro s _ ⟨rfl, hs⟩
  have hends := h s hs
  cases hr : act s with
  | ok a s' => rw [hr] at hends; exact .ok a ⟨rfl, hends⟩
  | error e s' => rw [hr] at hends; exact .error e ⟨rfl, hends.1⟩

theorem Alike.eq {r r' : EStateM.Result ε σ α} (h : Alike (Same I) r r') : r = r' := by
  cases h with
  | ok a hR => rw [hR.1]
  | error e hR => rw [hR.1]

end ChipEight.Effect
