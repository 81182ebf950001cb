import ChipEight.Proofs.Lemmas.Shape

/-!
# Points and pixels

A display is known by its size and by the points at which it is on. Flipping pixels one after the other comes to
the same in every order: a pixel has changed if and only if its point was named an odd number of times.
-/

namespace ChipEight

/-- A place in the plane, on a display or off it. -/
abbrev Point := Int × Int

namespace Display

/-- A point off the display is never on. -/
def isOn (d : Display) (p : Point) : Bool :=
  if h : d.Contains p.1 p.2 then d.pixel p.1 p.2 h else false

/-- The display with one pixel flipped, if there is such a pixel. -/
def flip (d : Display) (p : Point) : Display :=
  if h : d.Contains p.1 p.2 then d.put p.1 p.2 (!d.pixel p.1 p.2 h) h else d

def flipAll (points : List Point) (d : Display) : Display := points.foldl flip d

variable {d d' : Display} {p q : Point} {points points' : List Point}

theorem contains_congr (h : d'.extent = d.extent) (x y : Int) : d'.Contains x y ↔ d.Contains x y := by
  simp only [extent, Prod.mk.injEq] at h
  simp [Contains, h]

theorem eq_of_isOn (hextent : d'.extent = d.extent) (h : ∀ p, d.Contains p.1 p.2 → d'.isOn p = d.isOn p) :
    d' = d := by
  obtain ⟨width, height, pixels⟩ := d
  obtain ⟨width', height', pixels'⟩ := d'
  simp only [extent, Prod.mk.injEq] at hextent
  obtain ⟨rfl, rfl⟩ := hextent
  congr
  refine Vector.ext fun y hy => Vector.ext fun x hx => ?_
  have hc : Contains ⟨width', height', pixels⟩ x y := by
    simp only [Contains]
    omega
  have hc' : Contains ⟨width', height', pixels'⟩ x y := hc
  simpa [isOn, hc, hc', pixel] using h (x, y) hc

/-! ## One pixel -/

@[simp] theorem extent_flip (d : Display) (p : Point) : (d.flip p).extent = d.extent := by
  unfold flip
  split <;> rfl

theorem pixel_put {x y x' y' : Int} (h : d.Contains x y) (on : Bool) (h' : d.Contains x' y') :
    (d.put x y on h).pixel x' y' h' = if x = x' ∧ y = y' then on else d.pixel x' y' h' := by
  obtain ⟨hx, hy⟩ := h
  obtain ⟨hx', hy'⟩ := h'
  have hxs : x.toNat = x'.toNat ↔ x = x' := by omega
  have hys : y.toNat = y'.toNat ↔ y = y' := by omega
  by_cases heqy : y = y'
  · subst heqy
    simp [pixel, put, Vector.getElem_set, hxs]
  · simp [pixel, put, hys, heqy]

theorem isOn_of_not_contains (h : ¬ d.Contains p.1 p.2) : d.isOn p = false := dif_neg h

theorem isOn_put {x y : Int} (h : d.Contains x y) (on : Bool) (q : Point) :
    (d.put x y on h).isOn q = if (x, y) = q then on else d.isOn q := by
  by_cases hq : d.Contains q.1 q.2
  · have hput : (d.put x y on h).Contains q.1 q.2 := hq
    simp only [isOn, hq, hput, dite_true, pixel_put h on hq, Prod.ext_iff]
  · have hput : ¬ (d.put x y on h).Contains q.1 q.2 := hq
    have hne : (x, y) ≠ q := by
      rintro rfl
      exact hq h
    rw [isOn_of_not_contains hput, isOn_of_not_contains hq, if_neg hne]

theorem isOn_flip (h : d.Contains q.1 q.2) : (d.flip p).isOn q = (d.isOn q ^^ decide (p = q)) := by
  by_cases hp : d.Contains p.1 p.2
  · rw [flip, dif_pos hp, isOn_put]
    by_cases heq : p = q
    · subst heq
      simp [isOn, hp]
    · simp [heq]
  · have hne : p ≠ q := by
      rintro rfl
      exact hp h
    simp [flip, hp, hne]

theorem isOn_clear (d : Display) (p : Point) : d.clear.isOn p = false := by
  unfold isOn
  split <;> simp [pixel, clear, blank]

theorem isOn_flip_of_ne (hne : p ≠ q) : (d.flip p).isOn q = d.isOn q := by
  by_cases h : d.Contains q.1 q.2
  · simp [isOn_flip h, hne]
  · rw [isOn_of_not_contains h, isOn_of_not_contains (mt (contains_congr (extent_flip d p) _ _).mp h)]

/-! ## Many pixels -/

@[simp] theorem extent_flipAll (points : List Point) (d : Display) : (d.flipAll points).extent = d.extent := by
  induction points generalizing d with
  | nil => rfl
  | cons p rest ih => exact (ih (d.flip p)).trans (extent_flip d p)

theorem flipAll_append (points points' : List Point) (d : Display) :
    d.flipAll (points ++ points') = (d.flipAll points).flipAll points' := List.foldl_append

theorem isOn_flipAll (h : d.Contains q.1 q.2) :
    (d.flipAll points).isOn q = (d.isOn q ^^ decide (points.count q % 2 = 1)) := by
  induction points generalizing d with
  | nil => simp [flipAll]
  | cons p rest ih =>
      have hrest : (d.flip p).Contains q.1 q.2 := (contains_congr (extent_flip d p) _ _).mpr h
      have hstep : (d.flipAll (p :: rest)).isOn q = ((d.flip p).flipAll rest).isOn q := rfl
      rw [hstep, ih hrest, isOn_flip h, List.count_cons, Bool.xor_assoc]
      congr 1
      by_cases heq : p = q
      · have hodd : (rest.count q + 1) % 2 = 1 ↔ rest.count q % 2 = 0 := by omega
        rcases Nat.mod_two_eq_zero_or_one (rest.count q) with hcount | hcount <;> simp [heq, hodd, hcount]
      · simp [heq]

/-- Points that are all different are flipped once each. -/
theorem isOn_flipAll_of_nodup (hnodup : points.Nodup) (h : d.Contains q.1 q.2) :
    (d.flipAll points).isOn q = (d.isOn q ^^ decide (q ∈ points)) := by
  rw [isOn_flipAll h, hnodup.count]
  by_cases hq : q ∈ points <;> simp [hq]

theorem flipAll_eq_of_parity (h : ∀ q, points.count q % 2 = points'.count q % 2) (d : Display) :
    d.flipAll points = d.flipAll points' := by
  refine eq_of_isOn (by simp) fun q hq => ?_
  rw [contains_congr (extent_flipAll points' d)] at hq
  rw [isOn_flipAll hq, isOn_flipAll hq, h]

theorem flipAll_perm (h : points.Perm points') (d : Display) : d.flipAll points = d.flipAll points' :=
  flipAll_eq_of_parity (fun q => by rw [h.count_eq]) d

/-- What is flipped twice is as it was. -/
theorem flipAll_twice (points : List Point) (d : Display) : d.flipAll (points ++ points) = d := by
  have heven : ∀ q, (points ++ points).count q % 2 = ([] : List Point).count q % 2 := by
    intro q
    rw [List.count_append, List.count_nil]
    omega
  exact flipAll_eq_of_parity heven d

end Display
end ChipEight
