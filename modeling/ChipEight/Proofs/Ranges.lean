import ChipEight.Proofs.Lemmas.Accesses

/-!
# Ranges that are read

A range is read as it is unless it ends below zero. Such an end counts from the end of memory, and the bytes are then
those of a range that is longer by the size of memory.
-/

namespace ChipEight.Memory

variable {m : Memory} {addr length : Int} {data : List Byte}

/-- The bytes are those of the range of an access, one from each of its addresses in order, and memory has all of
them. -/
structure IsRange (m : Memory) (addr length : Int) (data : List Byte) : Prop where
  bytes : data = (Int.range addr (addr + length)).map m.cell
  count : data.length = max length 0
  covered : ∀ a, addr ≤ a → a < addr + length → m.Covers a 1

theorem isRange_cells (hc : m.Covers addr length) :
    m.IsRange addr length ((Int.range addr (addr + length)).map m.cell) := by
  obtain ⟨haddr, hsize⟩ := hc
  refine { bytes := rfl, count := ?count, covered := fun a hfirst hlast => ⟨by omega, by omega⟩ }
  case count => simp [Int.range]

theorem IsRange.eq_nil_iff (h : m.IsRange addr length data) : data = [] ↔ length ≤ 0 := by
  rw [← List.length_eq_zero_iff, ← Int.natCast_eq_zero, h.count, max_eq_right_iff]

theorem isRange_iff_eq_nil (h : length ≤ 0) : m.IsRange addr length data ↔ data = [] := by
  constructor
  · intro hrange
    exact hrange.eq_nil_iff.mpr h
  · rintro rfl
    refine { bytes := ?bytes, count := (max_eq_right h).symm, covered := fun a hfirst hlast => ?covered }
    case bytes => simp [Int.range, h]
    case covered => omega

theorem isRange_of_nonneg_end (h : m.readRange addr length = .ok data) (hend : 0 ≤ addr + length) :
    m.IsRange addr length data := by
  obtain ⟨hc, rfl⟩ := readRange_eq_ok_iff.mp h
  rw [slice_of_nonneg hc.1 hend hc.2]
  exact isRange_cells hc

theorem isRange_of_negative_end (h : m.readRange addr length = .ok data) (hend : addr + length < 0) :
    m.IsRange addr (m.size + length) data := by
  obtain ⟨⟨haddr, -⟩, rfl⟩ := readRange_eq_ok_iff.mp h
  have hlonger : m.Covers addr (m.size + length) := ⟨haddr, by omega⟩
  have hlast : addr + length + m.size = addr + (m.size + length) := by omega
  rw [slice_of_neg haddr hend, hlast]
  exact isRange_cells hlonger

/-- A range can be read if memory covers it. The bytes are those of the range unless it ends below zero, which takes a
negative length. Then they are those of a range that is longer by the size of memory, and so those of the range itself
only if no byte is left. -/
theorem range_read_strays_at_negative_end_only (m : Memory) (addr length : Int) :
    ((∃ data, m.readRange addr length = .ok data) ↔ m.Covers addr length) ∧
      ∀ data, m.readRange addr length = .ok data →
        (m.IsRange addr length data ↔ 0 ≤ addr + length ∨ m.size + length ≤ 0) ∧
          (addr + length < 0 → m.IsRange addr (m.size + length) data) := by
  refine ⟨⟨?covers, fun hc => ⟨_, readRange_eq_ok_iff.mpr ⟨hc, rfl⟩⟩⟩, fun data h => ⟨?own, isRange_of_negative_end h⟩⟩
  case covers =>
    rintro ⟨data, h⟩
    exact (readRange_eq_ok_iff.mp h).1
  case own =>
    by_cases hend : 0 ≤ addr + length
    · exact iff_of_true (isRange_of_nonneg_end h hend) (.inl hend)
    · -- the range is empty, and the longer one tells whether the bytes are none
      have haddr := (readRange_eq_ok_iff.mp h).1.1
      have hlonger := isRange_of_negative_end h (Int.not_le.mp hend)
      calc
        m.IsRange addr length data ↔ data = [] := isRange_iff_eq_nil (by omega)
        _ ↔ m.size + length ≤ 0 := hlonger.eq_nil_iff
        _ ↔ 0 ≤ addr + length ∨ m.size + length ≤ 0 := (or_iff_right hend).symm

def fourBytes : Memory := .new 4 ⟨[(0, 1), (1, 2), (2, 3), (3, 4)], by decide⟩

/-- The same two bytes are read by their number and by an end that counts from the end of memory. -/
theorem range_reads_of_same_bytes :
    (fourBytes.readRange 1 2 = .ok [2, 3] ∧ fourBytes.IsRange 1 2 [2, 3]) ∧
      (fourBytes.readRange 1 (-2) = .ok [2, 3] ∧ ¬ fourBytes.IsRange 1 (-2) [2, 3] ∧
        fourBytes.IsRange 1 (4 - 2) [2, 3]) ∧
      fourBytes.readRange 3 (-2) = .ok [] ∧ fourBytes.IsRange 3 (-2) [] := by
  have hnumber : fourBytes.readRange 1 2 = .ok [2, 3] := rfl
  have hstray : fourBytes.readRange 1 (-2) = .ok [2, 3] := rfl
  have hempty : fourBytes.readRange 3 (-2) = .ok [] := rfl
  obtain ⟨hown, -⟩ := (range_read_strays_at_negative_end_only fourBytes 1 2).2 _ hnumber
  obtain ⟨hother, hlonger⟩ := (range_read_strays_at_negative_end_only fourBytes 1 (-2)).2 _ hstray
  obtain ⟨hnone, -⟩ := (range_read_strays_at_negative_end_only fourBytes 3 (-2)).2 _ hempty
  exact ⟨⟨hnumber, hown.mpr (by decide)⟩, ⟨hstray, mt hother.mp (by decide), hlonger (by decide)⟩, hempty,
    hnone.mpr (by decide)⟩

/-- A range of minus one byte is none, but all bytes except the last are read. -/
theorem range_read_of_minus_one_byte :
    fourBytes.readRange 0 (-1) = .ok [1, 2, 3] ∧ ¬ fourBytes.IsRange 0 (-1) [1, 2, 3] :=
  ⟨rfl, fun h => absurd h.count (by decide)⟩

end ChipEight.Memory
