import ChipEight.Proofs.Lemmas.Pixels

/-!
# Views of the display

Rows, their number of pixels that are on, and their texts all show the same pixels.
-/

namespace ChipEight.Display

/-- The rows of a grid of points, top to bottom. -/
def grid (width height : Int) (value : Point → Bool) : List (List Bool) :=
  (List.range height.toNat).map fun y : Nat => (List.range width.toNat).map fun x : Nat => value (x, y)

theorem rows_eq (d : Display) : d.rows = grid d.width d.height d.isOn := by
  rw [grid]
  apply List.ext_getElem
  · simp [rows]
  · intro y hy _
    apply List.ext_getElem
    · simp [rows]
    · intro x hx _
      simp only [rows, List.getElem_map, Vector.getElem_toList, Vector.length_toList, List.length_map] at hx hy
      have hc : d.Contains x y := by
        simp only [Contains]
        omega
      simp [rows, isOn, hc, pixel]

theorem toList_rowText (on off : Char) (row : List Bool) :
    (rowText (String.singleton on) (String.singleton off) row).toList =
      row.map fun pixel => if pixel then on else off := by
  rw [rowText, String.toList_join]
  induction row with
  | nil => rfl
  | cons pixel row ih =>
      rw [List.map_cons, List.flatMap_cons, ih]
      cases pixel <;> simp

/-- A row can be read back from its text. -/
theorem row_of_rowText {on off : Char} (hne : on ≠ off) (row : List Bool) :
    (rowText (String.singleton on) (String.singleton off) row).toList.map (· == on) = row := by
  rw [toList_rowText, List.map_map]
  apply List.map_id''
  intro pixel
  cases pixel <;> simp [hne.symm]

end ChipEight.Display
