import ChipEight.Instruction.Text
import ChipEight.Proofs.Endings
import ChipEight.Proofs.Lemmas.Listing
import ChipEight.Proofs.Lemmas.Stack
import ChipEight.Proofs.Lemmas.Stores
import ChipEight.Proofs.Lemmas.Target

/-!
# What is executed and what is listed

A listing of an image decodes it two bytes at a time from its start. A run that stores nothing and jumps and calls
with the parity of its start executes the entries of the listing as long as it is within the image.
-/

namespace ChipEight

/-! ## The parity of addresses -/

/-- The program counter and what is on the stack have the parity of `origin`. -/
structure Machine.Aligned (origin : Int) (m : Machine) : Prop where
  pc : m.pc % 2 = origin % 2
  callers : ∀ caller ∈ m.stack, caller % 2 = origin % 2

namespace Machine

variable {m m' : Machine} {i : Instruction} {origin : Int}

theorem pc_next_of_aligned (h : m.Aligned origin) (hc : cycle m = .ok i m')
    (ht : i.tag = .jp ∨ i.tag = .call → (i.nnn.val : Int) % 2 = origin % 2) :
    m'.pc % 2 = origin % 2 := by
  have hpc := h.pc
  cases Cycled.of_eq hc with
  | recovered =>
      show (m.pc + 2) % 65536 % 2 = _
      omega
  | @done _ next board hf he =>
      show next.getD (m.pc + 2) % 65536 % 2 = _
      cases Board.goes_of_execute he with
      | nowhere => show (m.pc + 2) % 65536 % 2 = _; omega
      | target htag => have := ht htag; show (i.nnn.val : Int) % 65536 % 2 = _; omega
      | skip => show (m.pc + 4) % 65536 % 2 = _; omega
      | @back caller rest hs =>
          have hcaller := h.callers caller (by rw [stack, hs]; exact List.mem_cons_self)
          show (caller + 2) % 65536 % 2 = _
          omega

theorem Aligned.next (h : m.Aligned origin) (hc : cycle m = .ok i m')
    (ht : i.tag = .jp ∨ i.tag = .call → (i.nnn.val : Int) % 2 = origin % 2) : m'.Aligned origin where
  pc := pc_next_of_aligned h hc ht
  callers caller hmem := by
    rw [← next_of_ok hc] at hmem
    rcases mem_stack_next hmem with rfl | hmem
    · exact h.pc
    · exact h.callers caller hmem

end Machine

namespace Run

variable {image : List Byte} {o : Options} {m : Machine}

/-! ## The image in memory -/

/-- No single value is loaded over the image. -/
def Options.Spares (o : Options) (image : List Byte) : Prop :=
  ∀ entry ∈ o.initialMemory.entries, ¬ (o.start ≤ entry.1 ∧ entry.1 < o.start + image.length)

theorem cell_of_spared (hsize : 0 ≤ o.memorySize) (hfit : ¬ Unfit image o) (hspares : o.Spares image) {k : Nat}
    {b : Byte} (hk : image[k]? = some b) : (loaded image o).board.memory.cell (o.start + k) = b := by
  obtain ⟨hlt, -⟩ := List.getElem?_eq_some_iff.mp hk
  obtain ⟨hfont, hstart, hend, -⟩ := not_unfit_iff.mp hfit
  have hnone : o.start + k ∉ o.initialMemory.entries.map Prod.fst := by
    intro hkey
    obtain ⟨entry, hentry, haddr⟩ := List.mem_map.mp hkey
    exact hspares entry hentry ⟨by omega, by omega⟩
  have hcell := cell_of_image hsize hfont hstart hend hk hnone
  rw [load_of_fit hsize hfit] at hcell
  exact hcell

/-- What is fetched within the image, at an even distance from its start, is two bytes of it. -/
theorem bytes_of_fetch (hsize : 0 ≤ o.memorySize) (hfit : ¬ Unfit image o) (hspares : o.Spares image) {addr : Int}
    {i : Instruction} (hf : (loaded image o).board.memory.fetch addr = .ok i)
    (hparity : addr % 2 = o.start % 2) (hfirst : o.start ≤ addr) (hlast : addr + 2 ≤ o.start + image.length) :
    ∃ (k : Nat) (high low : Byte), addr = o.start + 2 * k ∧ image[2 * k]? = some high ∧
      image[2 * k + 1]? = some low ∧ i = .ofBytes high low := by
  obtain ⟨k, hk⟩ : ∃ k : Nat, addr = o.start + (2 * k : Nat) := ⟨((addr - o.start) / 2).toNat, by omega⟩
  have hnext : addr + 1 = o.start + (2 * k + 1 : Nat) := by omega
  have hh : image[2 * k]? = some image[2 * k] := List.getElem?_eq_getElem (by omega)
  have hl : image[2 * k + 1]? = some image[2 * k + 1] := List.getElem?_eq_getElem (by omega)
  have hhigh := cell_of_spared hsize hfit hspares hh
  have hlow := cell_of_spared hsize hfit hspares hl
  rw [← hk] at hhigh
  rw [← hnext] at hlow
  exact ⟨k, _, _, by omega, hh, hl, by rw [(Memory.covers_of_fetch hf).2, hhigh, hlow]⟩

/-! ## Rows and listings -/

/-- The listing has one entry with the address of the row, and the row has its word and its text. -/
def Row.ListedIn (listing : List (Int × Instruction)) (r : Row) : Prop :=
  ∃ (k : Nat) (i : Instruction), listing[k]? = some (r.addr, i) ∧ r.instruction.word = i.word ∧
    r.instruction.text = i.text ∧
      ∀ (j : Nat) (entry : Int × Instruction), listing[j]? = some entry → entry.1 = r.addr → j = k

theorem listedIn_of_bytes {r : Row} {k : Nat} {high low : Byte} (haddr : r.addr = o.start + 2 * k)
    (hh : image[2 * k]? = some high) (hl : image[2 * k + 1]? = some low)
    (hi : r.instruction = .ofBytes high low) : r.ListedIn (Instruction.listing image o.start) := by
  refine ⟨k, r.instruction, ?_, rfl, rfl, fun j entry hentry hsame => ?_⟩
  · rw [Instruction.getElem?_listing_of_bytes o.start hh hl, haddr, hi]
  · have hj := Instruction.addr_of_listing hentry
    omega

section Loaded

variable (hload : load image o (.new o.toConfig) = .ok () m)

include hload

theorem cycle_of_row {k : Nat} {entry : Row} (h : (result image o).trace[k]? = some entry) :
    ∃ i, Machine.cycle (m.advance k) = .ok i (m.advance (k + 1)) ∧
      entry = row o (m.advance k).pc i (m.advance (k + 1)) := by
  obtain ⟨rows, m', left, hon, -, hend⟩ := divides_of_loaded hload
  exact row_of_ending hon hend h

theorem stack_of_loaded : m.stack = [] := congrArg Processor.stack (processor_of_loaded hload)

/-- Before each of its rows the run has the parity of its start. -/
theorem aligned_of_rows
    (htargets : ∀ entry ∈ (result image o).trace, entry.instruction.tag = .jp ∨ entry.instruction.tag = .call →
      (entry.instruction.nnn.val : Int) % 2 = o.start % 2) {k : Nat} (hk : k ≤ (result image o).trace.length) :
    (m.advance k).Aligned o.start := by
  induction k with
  | zero =>
      refine ⟨congrArg (· % 2) (pc_of_loaded hload), fun caller hmem => ?_⟩
      rw [show (m.advance 0).stack = [] from stack_of_loaded hload] at hmem
      cases hmem
  | succ k ih =>
      obtain ⟨i, hc, hentry⟩ := cycle_of_row hload (List.getElem?_eq_getElem hk)
      refine (ih (Nat.le_of_lt hk)).next hc ?_
      have htarget := htargets _ (List.getElem_mem hk)
      rw [hentry] at htarget
      exact htarget

/-- Before each of its rows the memory of the run is as it was loaded. -/
theorem memory_of_rows (hstores : ∀ entry ∈ (result image o).trace, ¬ entry.instruction.Stores) {k : Nat}
    (hk : k ≤ (result image o).trace.length) : (m.advance k).board.memory = m.board.memory := by
  refine Machine.memory_advance fun j hj ⟨i, hf, hi⟩ => ?_
  have hlt := Nat.lt_of_lt_of_le hj hk
  obtain ⟨i', hc, hentry⟩ := cycle_of_row hload (List.getElem?_eq_getElem hlt)
  cases hf.symm.trans (Machine.fetch_of_cycle_ok hc)
  have hquiet := hstores _ (List.getElem_mem hlt)
  rw [hentry] at hquiet
  exact hquiet hi

theorem listedIn_of_row (hsize : 0 ≤ o.memorySize) (hspares : o.Spares image)
    (hstores : ∀ entry ∈ (result image o).trace, ¬ entry.instruction.Stores) {k : Nat} {entry : Row}
    (h : (result image o).trace[k]? = some entry) (hparity : entry.addr % 2 = o.start % 2)
    (hfirst : o.start ≤ entry.addr) (hlast : entry.addr + 2 ≤ o.start + image.length) :
    entry.ListedIn (Instruction.listing image o.start) := by
  obtain ⟨hfit, rfl⟩ := fit_of_load hsize hload
  obtain ⟨hlt, -⟩ := List.getElem?_eq_some_iff.mp h
  obtain ⟨i, hc, rfl⟩ := cycle_of_row hload h
  have hf := Machine.fetch_of_cycle_ok hc
  rw [memory_of_rows hload hstores (Nat.le_of_lt hlt)] at hf
  obtain ⟨j, high, low, haddr, hh, hl, hi⟩ := bytes_of_fetch hsize hfit hspares hf hparity hfirst hlast
  exact listedIn_of_bytes haddr hh hl hi

end Loaded

/-- A run that does not change its image and has no jump and no call to an address of the other parity executes
what is listed: every row has the parity of the start, and within the image it is the entry of its address. -/
theorem run_executes_listing {room : Room} {r : Result} (hr : run image o room = .ok r) (hspares : o.Spares image)
    (hstores : ∀ entry ∈ r.trace, ¬ entry.instruction.Stores)
    (htargets : ∀ entry ∈ r.trace, entry.instruction.tag = .jp ∨ entry.instruction.tag = .call →
      (entry.instruction.nnn.val : Int) % 2 = o.start % 2) :
    ∀ entry ∈ r.trace, entry.addr % 2 = o.start % 2 ∧
      (o.start ≤ entry.addr → entry.addr + 2 ≤ o.start + image.length →
        entry.ListedIn (Instruction.listing image o.start)) := by
  obtain ⟨⟨hcheck, -⟩, rfl⟩ := run_eq_ok.mp hr
  have hsize := (Machine.Config.check_eq_ok_iff.mp hcheck).memory.1
  intro entry hentry
  cases hl : load image o (.new o.toConfig) with
  | error fault m => rw [result_of_refused hl] at hentry; cases hentry
  | ok _ m =>
      obtain ⟨k, hk⟩ := List.getElem?_of_mem hentry
      obtain ⟨hlt, -⟩ := List.getElem?_eq_some_iff.mp hk
      have hparity : entry.addr % 2 = o.start % 2 := by
        obtain ⟨i, -, rfl⟩ := cycle_of_row hl hk
        exact (aligned_of_rows hl htargets (Nat.le_of_lt hlt)).pc
      exact ⟨hparity, listedIn_of_row hl hsize hspares hstores hk hparity⟩

/-- A call from an odd address and the return from it, with a single value after the image. -/
theorem run_executes_listing_of_call :
    ∃ o r, run [0x20, 0x07, 0x10, 0x03, 0x00, 0x00, 0x00, 0xEE] o = .ok r ∧
      o.start = 1 ∧ o.trace = true ∧ o.initialMemory.entries = [(9, 0xFF)] ∧
      r.trace.map Row.addr = [1, 7, 3] ∧
      ∀ entry ∈ r.trace, entry.addr % 2 = 1 ∧
        entry.ListedIn (Instruction.listing [0x20, 0x07, 0x10, 0x03, 0x00, 0x00, 0x00, 0xEE] 1) := by
  let image : List Byte := [0x20, 0x07, 0x10, 0x03, 0x00, 0x00, 0x00, 0xEE]
  let o : Options := { memorySize := 10, start := 1, loadFont := false, initialMemory := .ofList [(9, 0xFF)] }
  have hr : run image o = .ok (result image o) :=
    run_eq_ok.mpr ⟨⟨Machine.Config.check_of_usual_display (by decide) rfl rfl, by decide +kernel⟩, rfl⟩
  have haddrs : (result image o).trace.map Row.addr = [1, 7, 3] := by decide +kernel
  have hspares : o.Spares image := by unfold Options.Spares; decide
  have hlisted := run_executes_listing hr hspares (by decide +kernel) (by decide +kernel)
  refine ⟨o, _, hr, rfl, rfl, rfl, haddrs, fun entry hentry => ?_⟩
  obtain ⟨hparity, hwithin⟩ := hlisted entry hentry
  -- all three rows are within the image
  have hin : ∀ entry ∈ (result image o).trace, o.start ≤ entry.addr ∧ entry.addr + 2 ≤ o.start + image.length := by
    decide +kernel
  exact ⟨hparity, hwithin (hin entry hentry).1 (hin entry hentry).2⟩

end Run
end ChipEight
