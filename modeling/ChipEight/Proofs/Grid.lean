import ChipEight.Proofs.Lemmas.Latest
import ChipEight.Proofs.Lemmas.Views

/-!
# The display as a grid of pixels

Whatever steps a display has taken, each of its points is as it was set last since all was cleared. A batch is nothing
but its steps, and all views of the display show these pixels.
-/

namespace ChipEight.Display

open Effect

variable {d : Display}

/-! ## How steps end -/

theorem perform_getPixel (x y : Int) (d : Display) :
    Step.perform (.getPixel x y) d =
      if d.Contains x y then .ok (.flag (d.isOn (x, y))) d else .error (d.refusal x y) d := by
  by_cases hc : d.Contains x y <;> simp [Step.perform, ask, Display.get, isOn, hc, Except.map]

theorem perform_setPixel_of_contains {x y : Int} (h : d.Contains x y) (on : Bool) :
    Step.perform (.setPixel x y on) d = .ok .done (d.put x y on h) := by
  have hset : set x y on d = .ok () (d.put x y on h) := dif_pos h
  rw [Step.perform, bind_of_ok hset]
  rfl

theorem perform_setPixel_of_not_contains {x y : Int} (h : ¬ d.Contains x y) (on : Bool) :
    Step.perform (.setPixel x y on) d = .error (d.refusal x y) d := by
  have hset : set x y on d = .error (d.refusal x y) d := dif_neg h
  rw [Step.perform, bind_of_error hset]

/-- How a batch ends: its steps are performed one after another, up to the first that fails. -/
inductive Batched (d : Display) (steps : List Step) : EStateM.Result Fault Display Reply → Prop
  | whole {replies : List Reply} {d' : Display}
      (hdone : attempts Step.perform steps d = (replies.map .ok, d')) : Batched d steps (.ok (.several replies) d')
  | part {before after : List Step} {step : Step} {replies : List Reply} {fault : Fault} {d₁ d' : Display}
      (hsteps : steps = before ++ step :: after)
      (hdone : attempts Step.perform before d = (replies.map .ok, d₁)) (hfault : step.perform d₁ = .error fault d') :
      Batched d steps (.error fault d')

theorem attempts_cons_of_ok {step : Step} {steps : List Step} {reply : Reply} {replies : List Reply}
    {d d₁ d' : Display} (hstep : step.perform d = .ok reply d₁)
    (hsteps : attempts Step.perform steps d₁ = (replies.map .ok, d')) :
    attempts Step.perform (step :: steps) d = ((reply :: replies).map .ok, d') := by
  simp only [attempts, hstep, stateOf, outcomeOf, hsteps, List.map_cons]

theorem perform_batch (steps : List Step) (d : Display) :
    Step.perform (.batch steps) d = match Step.performAll steps d with
      | .ok replies d' => .ok (.several replies) d'
      | .error fault d' => .error fault d' := by
  rw [Step.perform]
  cases h : Step.performAll steps d with
  | ok replies d' => rw [bind_of_ok h]; rfl
  | error fault d' => rw [bind_of_error h]

theorem batched (steps : List Step) (d : Display) : Batched d steps (Step.perform (.batch steps) d) := by
  rw [perform_batch]
  induction steps generalizing d with
  | nil => exact .whole rfl
  | cons step steps ih =>
      rw [Step.performAll]
      cases hstep : step.perform d with
      | error fault d₁ =>
          rw [bind_of_error hstep]
          have hdone : attempts Step.perform [] d = (([] : List Reply).map .ok, d) := rfl
          exact .part (List.nil_append _).symm hdone hstep
      | ok reply d₁ =>
          rw [bind_of_ok hstep]
          have hrest := ih d₁
          cases hall : Step.performAll steps d₁ with
          | ok replies d' =>
              rw [hall] at hrest
              rw [bind_of_ok hall]
              cases hrest with
              | whole hdone => exact .whole (attempts_cons_of_ok hstep hdone)
          | error fault d' =>
              rw [hall] at hrest
              rw [bind_of_error hall]
              obtain _ | ⟨rfl, hdone, hfault⟩ := hrest
              exact .part rfl (attempts_cons_of_ok hstep hdone) hfault

/-! ## What steps put at a point -/

mutual

/-- What a step puts at a point, in order, as far as it succeeds. Clearing puts every point off, and a batch puts what
its steps put up to the first that fails. -/
def Step.puts (p : Point) : Step → Display → List Bool
  | .clear, _ => [false]
  | .setPixel x y on, d => ifDone (if (x, y) = p then [on] else []) (Step.perform (.setPixel x y on) d)
  | .batch steps, d => Step.putsAll p steps d
  | .getPixel _ _, _ | .lit, _ | .render _ _, _ | .snapshot, _ => []

def Step.putsAll (p : Point) : List Step → Display → List Bool
  | [], _ => []
  | step :: steps, d => step.puts p d ++ match step.perform d with
    | .ok _ d' => Step.putsAll p steps d'
    | .error _ _ => []

end

theorem isOn_setPixel (p : Point) (x y : Int) (on : Bool) (d : Display) :
    (stateOf (Step.perform (.setPixel x y on) d)).isOn p =
      ((Step.setPixel x y on).puts p d).getLastD (d.isOn p) := by
  rw [Step.puts]
  by_cases hc : d.Contains x y
  · rw [perform_setPixel_of_contains hc, stateOf, isOn_put]
    split <;> rfl
  · rw [perform_setPixel_of_not_contains hc]
    rfl

mutual

/-- A point is left as a step has put it last. -/
theorem Step.isOn_perform (p : Point) :
    (step : Step) → (d : Display) → (stateOf (step.perform d)).isOn p = (step.puts p d).getLastD (d.isOn p)
  | .clear, d => isOn_clear d p
  | .setPixel x y on, d => isOn_setPixel p x y on d
  | .getPixel x y, d => by rw [perform, stateOf_ask, puts]; rfl
  | .lit, _ | .render _ _, _ | .snapshot, _ => rfl
  | .batch steps, d => by
      rw [perform, stateOf_bind_pure, puts]
      exact Step.isOn_performAll p steps d

theorem Step.isOn_performAll (p : Point) :
    (steps : List Step) → (d : Display) →
      (stateOf (performAll steps d)).isOn p = (putsAll p steps d).getLastD (d.isOn p)
  | [], _ => rfl
  | step :: steps, d => by
      rw [performAll, putsAll, getLastD_append, ← Step.isOn_perform p step d]
      cases hstep : step.perform d with
      | error fault d₁ =>
          rw [bind_of_error hstep]
          rfl
      | ok reply d₁ =>
          rw [bind_of_ok hstep, stateOf_bind_pure]
          exact Step.isOn_performAll p steps d₁

end

/-! ## Grids -/

/-- A display acts as a grid of points that are on or off. -/
structure ActsAsGrid (width height : Int) (value : Point → Bool) (d : Display) : Prop where
  get : ∀ x y, Step.perform (.getPixel x y) d =
    if (0 ≤ x ∧ x < width) ∧ 0 ≤ y ∧ y < height then .ok (.flag (value (x, y))) d
    else .error (.outsideDisplay x y width height) d
  set : ∀ x y on, (∃ fault d', Step.perform (.setPixel x y on) d = .error fault d') ↔
    ¬ ((0 ≤ x ∧ x < width) ∧ 0 ≤ y ∧ y < height)
  failed : ∀ (step : Step) fault d', (∀ steps, step ≠ .batch steps) → step.perform d = .error fault d' → d' = d
  batch : ∀ steps, Batched d steps (Step.perform (.batch steps) d)
  snapshot : Step.perform .snapshot d = .ok (.grid (grid width height value)) d
  lit : Step.perform .lit d = .ok (.number ((grid width height value).flatten.count true)) d
  render : ∀ on off, Step.perform (.render on off) d =
    .ok (.lines ((grid width height value).map fun row =>
      String.join (row.map fun pixel => if pixel then on else off))) d
  readable : ∀ (on off : Char) lines, on ≠ off →
    Step.perform (.render (String.singleton on) (String.singleton off)) d = .ok (.lines lines) d →
      grid width height value = lines.map fun line => line.toList.map (· == on)

theorem actsAsGrid {width height : Int} {value : Point → Bool} (hextent : d.extent = (width, height))
    (hvalue : ∀ p, d.isOn p = value p) : d.ActsAsGrid width height value := by
  obtain rfl : d.isOn = value := funext hvalue
  obtain ⟨rfl, rfl⟩ : d.width = width ∧ d.height = height := by simpa [extent] using hextent
  refine { get := fun x y => perform_getPixel x y d, set := fun x y on => ?set,
           failed := fun step fault d' hsingle h => ?failed, batch := fun steps => batched steps d,
           snapshot := ?snapshot, lit := ?lit, render := fun on off => ?render,
           readable := fun on off lines hne h => ?readable }
  case set =>
    by_cases hc : d.Contains x y
    · rw [perform_setPixel_of_contains hc]
      exact iff_of_false (by simp) (not_not_intro hc)
    · rw [perform_setPixel_of_not_contains hc]
      exact iff_of_true ⟨_, _, rfl⟩ hc
  case failed =>
    cases step with
    | getPixel x y => rw [perform_getPixel] at h; exact eq_of_ite_error h
    | setPixel x y on =>
        by_cases hc : d.Contains x y
        · rw [perform_setPixel_of_contains hc] at h
          cases h
        · rw [perform_setPixel_of_not_contains hc] at h
          cases h
          rfl
    | batch steps => exact absurd rfl (hsingle steps)
    | clear | lit | render | snapshot => cases h
  case snapshot => rw [← rows_eq]; rfl
  case lit => rw [← rows_eq]; rfl
  case render => rw [← rows_eq]; rfl
  case readable =>
    cases h
    rw [← rows_eq, Display.render, List.map_map]
    exact (List.map_id'' (row_of_rowText hne) d.rows).symm

/-- What was put at a point last, by the steps that succeeded, or else off. -/
def latest (width height : Int) (steps : List Step) (p : Point) : Bool :=
  (notes Step.perform (Step.puts p) steps (blank width height)).getLastD false

/-- A display of any size acts as a grid of points after any steps. Each point is as it was set last since all was
cleared. -/
theorem display_acts_as_grid (width height : Int) (steps : List Step) :
    ActsAsGrid width height (latest width height steps) (attempts Step.perform steps (blank width height)).2 := by
  refine actsAsGrid ?_ fun p => ?_
  · exact preserves_attempts steps (fun step _ => keeps_iff.mp (Step.perform_keeps_extent step) _) rfl
  · have hdark : (blank width height).isOn p = false := isOn_clear (blank width height) p
    refine view_attempts (I := fun _ => True) (isOn · p) id (fun _ _ _ => trivial) ?_ steps trivial hdark
    rintro step d on - rfl
    exact Step.isOn_perform p step d

end ChipEight.Display
