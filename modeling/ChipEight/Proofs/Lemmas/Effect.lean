import ChipEight.Effect

/-!
# Operations that fail

How a sequence of operations succeeds or fails, what holds of the state that an operation leaves and of
what it raises (`Obeys`), and what is preserved or stays as it was whatever it raises (`Preserves`,
`Keeps`). All of this passes through sequences and loops, so that it is shown of the single operations
only.
-/

namespace ChipEight.Effect

variable {ε σ τ α β ι : Type}

/-! ## Sequences -/

theorem get_bind (f : σ → EStateM ε σ α) (s : σ) : (get >>= f) s = f s s := rfl

theorem bind_of_ok {x : EStateM ε σ α} {s s' : σ} {a : α} (h : x s = .ok a s')
    (f : α → EStateM ε σ β) : (x >>= f) s = f a s' := by
  show EStateM.bind x f s = _
  rw [EStateM.bind, h]

theorem bind_of_error {x : EStateM ε σ α} {s s' : σ} {e : ε} (h : x s = .error e s')
    (f : α → EStateM ε σ β) : (x >>= f) s = .error e s' := by
  show EStateM.bind x f s = _
  rw [EStateM.bind, h]

/-! ## How an operation ends -/

/-- The state that is left satisfies `I`, and an error satisfies `P`. -/
def Ends (I : σ → Prop) (P : ε → Prop) : EStateM.Result ε σ α → Prop
  | .ok _ s => I s
  | .error e s => I s ∧ P e

/-- From a state that satisfies `I` the operation ends in one, also where it fails, and what it raises
satisfies `P`. -/
def Obeys (I : σ → Prop) (P : ε → Prop) (act : EStateM ε σ α) : Prop :=
  ∀ s, I s → Ends I P (act s)

variable {I : σ → Prop} {P : ε → Prop}

@[simp] theorem ends_ok {a : α} {s : σ} : Ends I P (.ok a s) ↔ I s := Iff.rfl

@[simp] theorem ends_error {e : ε} {s : σ} : Ends (α := α) I P (.error e s) ↔ I s ∧ P e := Iff.rfl

theorem Ends.stateOf {r : EStateM.Result ε σ α} (h : Ends I P r) : I (stateOf r) := by
  cases r with
  | ok a s => exact h
  | error e s => exact h.1

theorem Ends.mono {Q : ε → Prop} {r : EStateM.Result ε σ α} (h : Ends I P r)
    (hq : ∀ e, P e → Q e) : Ends I Q r := by
  cases r with
  | ok a s => exact h
  | error e s => exact ⟨h.1, hq e h.2⟩

theorem Obeys.mono {Q : ε → Prop} {act : EStateM ε σ α} (h : Obeys I P act) (hq : ∀ e, P e → Q e) :
    Obeys I Q act := fun s hs => (h s hs).mono hq

theorem Obeys.pure (a : α) : Obeys I P (pure a) := fun _ hs => hs

theorem Obeys.bind {x : EStateM ε σ α} {f : α → EStateM ε σ β} (hx : Obeys I P x)
    (hf : ∀ a, Obeys I P (f a)) : Obeys I P (x >>= f) := by
  intro s hs
  have hends := hx s hs
  cases h : x s with
  | ok a s₁ =>
      rw [h] at hends
      rw [bind_of_ok h]
      exact hf a s₁ hends
  | error e s₁ =>
      rw [h] at hends
      rw [bind_of_error h]
      exact hends

theorem Obeys.forM {f : ι → EStateM ε σ PUnit} (is : List ι) (hf : ∀ i ∈ is, Obeys I P (f i)) :
    Obeys I P (is.forM f) := by
  induction is with
  | nil => exact Obeys.pure _
  | cons i is ih =>
      refine Obeys.bind (hf i List.mem_cons_self) fun _ => ih fun i hi => ?_
      exact hf i (List.mem_cons_of_mem _ hi)

theorem Obeys.mapM {f : ι → EStateM ε σ α} (is : List ι) (hf : ∀ i ∈ is, Obeys I P (f i)) :
    Obeys I P (is.mapM f) := by
  induction is with
  | nil => rw [List.mapM_nil]; exact Obeys.pure _
  | cons i is ih =>
      rw [List.mapM_cons]
      refine Obeys.bind (hf i List.mem_cons_self) fun _ => Obeys.bind (ih fun i hi => ?_) fun _ => ?_
      · exact hf i (List.mem_cons_of_mem _ hi)
      · exact Obeys.pure _

/-! ## What is preserved -/

/-- If the state satisfies `I`, so does the state that is left, also where the operation fails. -/
def Preserves (I : σ → Prop) (act : EStateM ε σ α) : Prop :=
  ∀ s, I s → I (stateOf (act s))

theorem Obeys.preserves {act : EStateM ε σ α} (h : Obeys I P act) : Preserves I act :=
  fun s hs => (h s hs).stateOf

theorem Preserves.obeys {act : EStateM ε σ α} (h : Preserves I act) : Obeys I (fun _ => True) act := by
  intro s hs
  have hleft := h s hs
  cases hr : act s with
  | ok a s₁ => rw [hr] at hleft; exact hleft
  | error e s₁ => rw [hr] at hleft; exact ⟨hleft, trivial⟩

theorem preserves_attempts {act : ι → EStateM ε σ α} (is : List ι)
    (h : ∀ i ∈ is, Preserves I (act i)) {s : σ} (hs : I s) : I (attempts act is s).2 := by
  induction is generalizing s with
  | nil => exact hs
  | cons i is ih =>
      have hi := h i List.mem_cons_self s hs
      exact ih (fun i hi => h i (List.mem_cons_of_mem _ hi)) hi

/-! ## What is kept -/

/-- What the view shows of the state stays as it was, also where the operation fails. -/
def Keeps (view : σ → τ) (act : EStateM ε σ α) : Prop :=
  ∀ s, view (stateOf (act s)) = view s

variable {view : σ → τ}

theorem keeps_iff {act : EStateM ε σ α} :
    Keeps view act ↔ ∀ c, Preserves (fun s => view s = c) act :=
  ⟨fun h _ s hs => (h s).trans hs, fun h s => h _ s rfl⟩

theorem Keeps.pure (a : α) : Keeps (ε := ε) view (pure a) := fun _ => rfl

theorem Keeps.bind {x : EStateM ε σ α} {f : α → EStateM ε σ β} (hx : Keeps view x)
    (hf : ∀ a, Keeps view (f a)) : Keeps view (x >>= f) := by
  refine keeps_iff.mpr fun c => Obeys.preserves (P := fun _ => True) ?_
  exact (keeps_iff.mp hx c).obeys.bind fun a => (keeps_iff.mp (hf a) c).obeys

theorem Keeps.forM {f : ι → EStateM ε σ PUnit} (hf : ∀ i, Keeps view (f i)) (is : List ι) :
    Keeps view (is.forM f) := by
  refine keeps_iff.mpr fun c => Obeys.preserves (P := fun _ => True) ?_
  exact Obeys.forM is fun i _ => (keeps_iff.mp (hf i) c).obeys

/-! ## The state that is left -/

theorem stateOf_adaptExcept {ε' : Type} (f : ε → ε') (act : EStateM ε σ α) (s : σ) :
    stateOf (EStateM.adaptExcept f act s) = stateOf (act s) := by
  unfold EStateM.adaptExcept
  cases act s <;> rfl

theorem stateOf_bind_pure (act : EStateM ε σ α) (f : α → β) (s : σ) :
    stateOf ((act >>= fun a => pure (f a)) s) = stateOf (act s) := by
  cases h : act s with
  | ok a s₁ => rw [bind_of_ok h]; rfl
  | error e s₁ => rw [bind_of_error h]; rfl

theorem stateOf_ask (look : σ → Except ε α) (s : σ) : stateOf (ask look s) = s := by
  unfold ask
  cases look s <;> rfl

/-- An operation with a guard fails if the guard does not hold. -/
theorem fails_ite_iff {P : Prop} [Decidable P] {a : α} {e : ε} {s t : σ} :
    (∃ e' t', (if P then EStateM.Result.ok a s else .error e t) = .error e' t') ↔ ¬ P := by
  by_cases h : P <;> simp [h]

/-- Where a guard does not hold, the state is left as it is found there. -/
theorem eq_of_ite_error {P : Prop} [Decidable P] {a : α} {e e' : ε} {s t t' : σ}
    (h : (if P then EStateM.Result.ok a s else .error e t) = .error e' t') : t' = t := by
  split at h
  · cases h
  · cases h
    rfl

theorem eq_ok_of_outcomeOf {r : EStateM.Result ε σ α} {a : α} (h : outcomeOf r = .ok a) : r = .ok a (stateOf r) := by
  cases r with
  | ok a' s => cases h; rfl
  | error e s => cases h

theorem eq_error_of_outcomeOf {r : EStateM.Result ε σ α} {e : ε} (h : outcomeOf r = .error e) :
    r = .error e (stateOf r) := by
  cases r with
  | ok a s => cases h
  | error e' s => cases h; rfl

/-! ## Answers -/

/-- What holds of an answer, if there is one, can be decided. -/
instance decidableAnswer {x : Except ε α} {P : α → Prop} [DecidablePred P] : Decidable (∃ a, x = .ok a ∧ P a) :=
  match x with
  | .ok a => decidable_of_iff (P a) ⟨fun h => ⟨a, rfl, h⟩, fun ⟨_, heq, h⟩ => by cases heq; exact h⟩
  | .error _ => isFalse fun ⟨_, heq, _⟩ => by cases heq

end ChipEight.Effect
