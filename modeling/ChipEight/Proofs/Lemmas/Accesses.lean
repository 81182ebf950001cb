import ChipEight.Memory.Step
import ChipEight.Proofs.Lemmas.Effect
import ChipEight.Proofs.Lemmas.Memory
import Mathlib.Data.Int.Range

/-!
# How accesses to memory end

An access ends well if and only if memory covers it. Reading leaves memory as it is, and a write that fails does too.
-/

namespace ChipEight.Memory

open Effect

/-! ## Reading -/

theorem perform_readByte (addr : Int) (m : Memory) :
    Step.perform (.readByte addr) m =
      if m.Covers addr 1 then .ok (.number (m.cell addr).toNat) m else .error (.outsideMemory addr 1) m := by
  by_cases hc : m.Covers addr 1 <;> simp [Step.perform, ask, read, hc, Except.map]

theorem perform_readWord (addr : Int) (m : Memory) :
    Step.perform (.readWord addr) m =
      if m.Covers addr 2 then .ok (.number (256 * (m.cell addr).toNat + (m.cell (addr + 1)).toNat)) m
      else .error (.outsideMemory addr 2) m := by
  by_cases hc : m.Covers addr 2
  · simp [Step.perform, ask, fetch_of_covers hc, hc, Except.map, Instruction.word_ofBytes]
  · simp [Step.perform, ask, fetch_of_not_covers hc, hc, Except.map]

theorem perform_readBytes (addr length : Int) (m : Memory) :
    Step.perform (.readBytes addr length) m =
      if m.Covers addr length then .ok (.bytes (m.slice addr (addr + length))) m
      else .error (.outsideRange addr length) m := by
  by_cases hc : m.Covers addr length <;> simp [Step.perform, ask, readRange, hc, Except.map]

variable {m : Memory} {first last : Int}

theorem extract_eq_cells (hfirst : 0 ≤ first) (hlast : last ≤ m.size) :
    (m.bytes.extract first.toNat last.toNat).toList = (Int.range first last).map m.cell := by
  rw [size] at hlast
  apply List.ext_getElem
  · simp [Int.range]
    omega
  · intro j hj _
    have hlt : first.toNat + j < m.bytes.size := by
      rw [Array.length_toList, Array.size_extract] at hj
      omega
    have hindex : (first + j).toNat = first.toNat + j := by omega
    simp [Int.range, cell, hindex, hlt]

theorem slice_of_nonneg (hfirst : 0 ≤ first) (hlast : 0 ≤ last) (hsize : last ≤ m.size) :
    m.slice first last = (Int.range first last).map m.cell := by
  rw [slice, if_neg (Int.not_lt.mpr hlast), extract_eq_cells hfirst hsize]

theorem slice_of_neg (hfirst : 0 ≤ first) (hlast : last < 0) :
    m.slice first last = (Int.range first (last + m.size)).map m.cell := by
  rw [slice, if_pos hlast, extract_eq_cells hfirst (by omega)]

/-- A slice that does not count from the end of memory consists of the bytes at its addresses. -/
theorem slice_eq {addr : Int} {length : Nat} (h : m.Covers addr length) :
    m.slice addr (addr + length) = (List.range length).map fun j : Nat => m.cell (addr + j) := by
  obtain ⟨haddr, hsize⟩ := h
  rw [slice_of_nonneg haddr (by omega) hsize]
  simp [Int.range]

theorem readRange_eq_ok_iff {addr length : Int} {data : List Byte} :
    m.readRange addr length = .ok data ↔ m.Covers addr length ∧ data = m.slice addr (addr + length) := by
  by_cases hc : m.Covers addr length <;> simp [readRange, hc, eq_comm]

variable {a : Int} {reply : Reply}

theorem readByte_eq_ok_iff :
    outcomeOf (Step.perform (.readByte a) m) = .ok reply ↔ m.Covers a 1 ∧ reply = .number (m.cell a).toNat := by
  rw [perform_readByte]
  by_cases hc : m.Covers a 1 <;> simp [hc, outcomeOf, eq_comm]

theorem readWord_eq_ok_iff :
    outcomeOf (Step.perform (.readWord a) m) = .ok reply ↔
      m.Covers a 2 ∧ reply = .number (256 * (m.cell a).toNat + (m.cell (a + 1)).toNat) := by
  rw [perform_readWord]
  by_cases hc : m.Covers a 2 <;> simp [hc, outcomeOf, eq_comm]

theorem readBytes_eq_ok_iff {length : Int} :
    outcomeOf (Step.perform (.readBytes a length) m) = .ok reply ↔
      m.Covers a length ∧ reply = .bytes (m.slice a (a + length)) := by
  rw [perform_readBytes]
  by_cases hc : m.Covers a length <;> simp [hc, outcomeOf, eq_comm]

/-! ## Writing -/

theorem perform_writeByte (addr value : Int) (m : Memory) :
    Step.perform (.writeByte addr value) m =
      if m.Covers addr 1 then .ok .done (m.put addr (UInt8.ofInt value)) else .error (.outsideMemory addr 1) m := by
  by_cases hc : m.Covers addr 1
  · have hwrite : write addr (UInt8.ofInt value) m = .ok () (m.put addr (UInt8.ofInt value)) := if_pos hc
    rw [if_pos hc, Step.perform, bind_of_ok hwrite]
    rfl
  · have hwrite : write addr (UInt8.ofInt value) m = .error (.outsideMemory addr 1) m := if_neg hc
    rw [if_neg hc, Step.perform, bind_of_error hwrite]

theorem perform_writeBytes (addr : Int) (values : List Int) (m : Memory) :
    Step.perform (.writeBytes addr values) m =
      if m.Covers addr values.length then .ok .done (m.putAll addr (values.map UInt8.ofInt))
      else .error (.outsideMemory addr values.length) m := by
  have hlength : (values.map UInt8.ofInt).length = values.length := values.length_map _
  by_cases hc : m.Covers addr values.length
  · have hwrite : writeRange addr (values.map UInt8.ofInt) m = .ok () (m.putAll addr (values.map UInt8.ofInt)) := by
      rw [writeRange, hlength, if_pos hc]
    rw [if_pos hc, Step.perform, bind_of_ok hwrite]
    rfl
  · have hwrite : writeRange addr (values.map UInt8.ofInt) m = .error (.outsideMemory addr values.length) m := by
      rw [writeRange, hlength, if_neg hc]
    rw [if_neg hc, Step.perform, bind_of_error hwrite]

theorem eq_of_perform_error {step : Step} {fault : Fault} {m m' : Memory} (h : step.perform m = .error fault m') :
    m' = m := by
  cases step with
  | readByte addr => rw [perform_readByte] at h; exact eq_of_ite_error h
  | readWord addr => rw [perform_readWord] at h; exact eq_of_ite_error h
  | readBytes addr length => rw [perform_readBytes] at h; exact eq_of_ite_error h
  | writeByte addr value => rw [perform_writeByte] at h; exact eq_of_ite_error h
  | writeBytes addr values => rw [perform_writeBytes] at h; exact eq_of_ite_error h
  | erase | snapshot | size => cases h

end ChipEight.Memory
