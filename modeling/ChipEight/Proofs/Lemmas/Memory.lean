import ChipEight.Memory
import ChipEight.Proofs.Lemmas.Table

/-!
# Sizes, bytes and fetches

Writing keeps the size of memory, and changes the bytes that it names and no others.
-/

namespace ChipEight

theorem Instruction.word_ofBytes (high low : Byte) :
    (ofBytes high low).word.toNat = 256 * high.toNat + low.toNat := by
  have hh := high.toNat_lt
  have hl := low.toNat_lt
  simp only [ofBytes, UInt16.toNat_ofNat']
  omega

theorem toNat_ofInt (n : Int) : ((UInt8.ofInt n).toNat : Int) = n % 256 := by
  show ((UInt8.ofNat (n % 256).toNat).toNat : Int) = _
  rw [UInt8.toNat_ofNat']
  omega

namespace Memory

/-! ## Writing keeps the size -/

@[simp] theorem size_zeroed (n : Nat) : (zeroed n).size = n := by simp [zeroed, size]

@[simp] theorem size_put (addr : Int) (value : Byte) (m : Memory) : (m.put addr value).size = m.size := by
  simp [put, size]

@[simp] theorem size_putAll (data : List Byte) (addr : Int) (m : Memory) :
    (m.putAll addr data).size = m.size := by
  induction data generalizing addr m with
  | nil => rfl
  | cons b bs ih => rw [putAll, ih, size_put]

theorem covers_congr {m m' : Memory} (h : m'.size = m.size) (addr length : Int) :
    m'.Covers addr length ↔ m.Covers addr length := by
  unfold Covers
  rw [h]

theorem not_covers_iff {m : Memory} {addr length : Int} :
    ¬ m.Covers addr length ↔ addr < 0 ∨ m.size < addr + length := by
  unfold Covers
  omega

/-! ## The bytes after a write -/

variable {m : Memory} {a addr : Int}

theorem cell_zeroed (n : Nat) (addr : Int) : (zeroed n).cell addr = 0 := by
  simp only [cell, zeroed, Array.getD_eq_getD_getElem?, Array.getElem?_replicate]
  split <;> rfl

theorem cell_put (hc : m.Covers a 1) (value : Byte) (h : 0 ≤ addr) :
    (m.put a value).cell addr = if addr = a then value else m.cell addr := by
  obtain ⟨ha, hsize⟩ := hc
  have hlt : a.toNat < m.bytes.size := by
    change a + 1 ≤ (m.bytes.size : Nat) at hsize
    omega
  simp only [cell, put, Array.getD_eq_getD_getElem?]
  by_cases heq : addr = a
  · subst heq
    rw [if_pos rfl, Array.getElem?_setIfInBounds_self_of_lt hlt]
    rfl
  · have hne : a.toNat ≠ addr.toNat := by omega
    rw [if_neg heq, Array.getElem?_setIfInBounds_ne hne]

/-- A memory is known by its size and its bytes. -/
theorem eq_of_cell {m' : Memory} (hsize : m'.size = m.size) (h : ∀ a, 0 ≤ a → m'.cell a = m.cell a) : m' = m := by
  obtain ⟨bytes⟩ := m
  obtain ⟨bytes'⟩ := m'
  congr
  refine Array.ext hsize fun k hk hk' => ?_
  have hcell := h k (Int.natCast_nonneg k)
  simpa [cell, hk, hk'] using hcell

/-- The byte at an address of a block that starts at `first`. -/
def blockByte? (first : Int) (data : List Byte) (addr : Int) : Option Byte :=
  if first ≤ addr then data[(addr - first).toNat]? else none

theorem blockByte?_cons (first : Int) (b : Byte) (bs : List Byte) (addr : Int) :
    blockByte? first (b :: bs) addr = if addr = first then some b else blockByte? (first + 1) bs addr := by
  unfold blockByte?
  by_cases heq : addr = first
  · subst heq
    simp
  · by_cases hle : first ≤ addr
    · have hindex : (addr - first).toNat = (addr - (first + 1)).toNat + 1 := by omega
      rw [if_pos hle, if_neg heq, if_pos (by omega), hindex, List.getElem?_cons_succ]
    · rw [if_neg hle, if_neg heq, if_neg (by omega)]

theorem cell_putAll {data : List Byte} (hc : m.Covers a data.length) (h : 0 ≤ addr) :
    (m.putAll a data).cell addr = (blockByte? a data addr).getD (m.cell addr) := by
  induction data generalizing a m with
  | nil => simp [putAll, blockByte?]
  | cons b bs ih =>
      obtain ⟨ha, hsize⟩ := hc
      rw [List.length_cons] at hsize
      have hfirst : m.Covers a 1 := ⟨ha, by omega⟩
      have hrest : (m.put a b).Covers (a + 1) bs.length := ⟨by omega, by rw [size_put]; omega⟩
      rw [putAll, ih hrest, cell_put hfirst b h, blockByte?_cons]
      by_cases heq : addr = a
      · have hnone : blockByte? (a + 1) bs addr = none := if_neg (by omega)
        rw [hnone, if_pos heq, if_pos heq]
        rfl
      · rw [if_neg heq, if_neg heq]

/-! ## Values at their addresses -/

theorem preset_cons {entry : Int × Int} {rest : List (Int × Int)}
    (h : ((entry :: rest).map Prod.fst).Nodup) (m : Memory) :
    m.preset ⟨entry :: rest, h⟩ =
      (if m.Covers entry.1 1 then m.put entry.1 (UInt8.ofInt entry.2) else m).preset
        ⟨rest, (List.nodup_cons.mp h).2⟩ := rfl

@[simp] theorem size_preset (values : Table Int Int) (m : Memory) : (m.preset values).size = m.size := by
  obtain ⟨entries, nodup⟩ := values
  induction entries generalizing m with
  | nil => rfl
  | cons entry rest ih =>
      rw [preset_cons, ih]
      split
      · exact size_put _ _ _
      · rfl

theorem cell_preset (values : Table Int Int) (h : m.Covers addr 1) :
    (m.preset values).cell addr = ((values.get? addr).map UInt8.ofInt).getD (m.cell addr) := by
  obtain ⟨entries, nodup⟩ := values
  induction entries generalizing m with
  | nil => rfl
  | cons entry rest ih =>
      rw [preset_cons, Table.get?_cons]
      by_cases heq : entry.1 = addr
      · -- no later value has the same address
        have hnone := Table.get?_eq_none (heq ▸ (List.nodup_cons.mp nodup).1) (List.nodup_cons.mp nodup).2
        subst heq
        rw [if_pos h, ih ⟨h.1, by rw [size_put]; exact h.2⟩, hnone, if_pos rfl, cell_put h _ h.1]
        exact if_pos rfl
      · rw [if_neg heq]
        by_cases hc : m.Covers entry.1 1
        · rw [if_pos hc, ih ⟨h.1, by rw [size_put]; exact h.2⟩, cell_put hc _ h.1,
            if_neg (Ne.symm heq)]
        · rw [if_neg hc, ih h]

/-! ## Refusals -/

/-- The refusal of an access to one byte, if memory has no such byte. -/
def fault? (m : Memory) (a : Int) : Option Fault :=
  if m.Covers a 1 then none else some (.outsideMemory a 1)

theorem fault?_eq_none_iff {a : Int} : m.fault? a = none ↔ m.Covers a 1 := by simp [fault?]

theorem fault?_eq_some_iff {a : Int} {fault : Fault} :
    m.fault? a = some fault ↔ ¬ m.Covers a 1 ∧ fault = .outsideMemory a 1 := by
  by_cases hc : m.Covers a 1 <;> simp [fault?, hc, eq_comm]

/-! ## Fetching -/

theorem fetch_of_covers {m : Memory} {addr : Int} (h : m.Covers addr 2) :
    m.fetch addr = .ok (.ofBytes (m.cell addr) (m.cell (addr + 1))) := if_pos h

theorem fetch_of_not_covers {m : Memory} {addr : Int} (h : ¬ m.Covers addr 2) :
    m.fetch addr = .error (.outsideMemory addr 2) := if_neg h

theorem fetch_of_cells {m : Memory} {addr : Int} {high low : Byte} (h : m.Covers addr 2)
    (hh : m.cell addr = high) (hl : m.cell (addr + 1) = low) :
    m.fetch addr = .ok (.ofBytes high low) := by
  rw [fetch_of_covers h, hh, hl]

theorem covers_of_fetch {m : Memory} {addr : Int} {i : Instruction} (h : m.fetch addr = .ok i) :
    m.Covers addr 2 ∧ i = .ofBytes (m.cell addr) (m.cell (addr + 1)) := by
  by_cases hc : m.Covers addr 2
  · rw [fetch_of_covers hc] at h; cases h; exact ⟨hc, rfl⟩
  · rw [fetch_of_not_covers hc] at h; cases h

end Memory
end ChipEight
