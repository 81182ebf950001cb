import ChipEight.Proofs.Lemmas.Execute
import ChipEight.Proofs.Lemmas.Halting
import ChipEight.Proofs.Lemmas.Memory

/-!
# How blocks of memory are moved

Bytes are moved one by one, each to an address of its own or from one, until an address is outside memory. What is
moved is settled beforehand: no byte that is stored or loaded has an influence on those that are still to come.
-/

namespace ChipEight

open Effect

variable {addr index : Nat → Int} {value : Nat → Byte} {k : Nat}

/-! ## Values at their places -/

namespace Memory

/-- The first `k` values were stored at their addresses, and no other byte has changed. -/
structure Stored (addr : Nat → Int) (value : Nat → Byte) (k : Nat) (m m' : Memory) : Prop where
  size : m'.size = m.size
  cell : ∀ j < k, m'.cell (addr j) = value j
  others : ∀ a, 0 ≤ a → (∀ j < k, a ≠ addr j) → m'.cell a = m.cell a

variable {m m' : Memory}

theorem Stored.zero (m : Memory) : Stored addr value 0 m m := ⟨rfl, nofun, fun _ _ _ => rfl⟩

/-- One more value is stored, at an address that is apart from those before it. -/
theorem Stored.succ (h : Stored addr value k m m') (hc : m'.Covers (addr k) 1) (hnonneg : ∀ j < k, 0 ≤ addr j)
    (hne : ∀ j < k, addr j ≠ addr k) : Stored addr value (k + 1) m (m'.put (addr k) (value k)) where
  size := by rw [size_put, h.size]
  cell j hj := by
    rcases Nat.lt_succ_iff_lt_or_eq.mp hj with hlt | rfl
    · rw [cell_put hc _ (hnonneg j hlt), if_neg (hne j hlt), h.cell j hlt]
    · rw [cell_put hc _ hc.1, if_pos rfl]
  others a ha hother := by
    rw [cell_put hc _ ha, if_neg (hother k (Nat.lt_succ_self k))]
    exact h.others a ha fun j hj => hother j (Nat.lt_succ_of_lt hj)

end Memory

namespace Board

variable {b b' s : Board}

/-- The address that is `j` bytes ahead of the index, around the end of the addresses. -/
def ahead (b : Board) (j : Nat) : Int := (b.processor.i + j) % 65536

theorem ahead_zero (h : 0 ≤ b.processor.i) (hlt : b.processor.i < 65536) : b.ahead 0 = b.processor.i := by
  simp only [ahead]
  omega

theorem ahead_eq (h : 0 ≤ b.processor.i) (hlt : b.processor.i < 65536) {j : Nat} (hj : j ≤ 65536) :
    b.ahead j = if b.processor.i + j < 65536 then b.processor.i + j else b.processor.i + j - 65536 := by
  simp only [ahead]
  split <;> omega

theorem ahead_congr (h : b'.processor.i = b.processor.i) : b'.ahead = b.ahead := by
  funext j
  rw [ahead, ahead, h]

theorem ahead_nonneg (b : Board) (j : Nat) : 0 ≤ b.ahead j := Int.emod_nonneg _ (by decide)

theorem ahead_lt (b : Board) (j : Nat) : b.ahead j < 65536 := Int.emod_lt_of_pos _ (by decide)

theorem ahead_succ (b : Board) (j : Nat) : b.ahead (j + 1) = (b.ahead j + 1) % 65536 := by
  simp only [ahead]
  omega

/-- No block is so long that it meets itself. -/
theorem ahead_ne {j k : Nat} (hjk : j < k) (hk : k < 65536) : b.ahead j ≠ b.ahead k := by
  simp only [ahead]
  omega

/-- The first `k` values were stored. The index has moved with them, and nothing else has changed. -/
structure Stored (b : Board) (addr : Nat → Int) (value : Nat → Byte) (index : Nat → Int) (k : Nat) (b' : Board) :
    Prop where
  memory : b.memory.Stored addr value k b'.memory
  rest : b' = { b with processor.i := index k, memory := b'.memory }

/-- The first `k` registers were loaded. The index has moved with them, and nothing else has changed. -/
structure Loaded (b : Board) (addr : Nat → Int) (index : Nat → Int) (k : Nat) (b' : Board) : Prop where
  register : ∀ r : Register, b'.processor.v.get r = if r.val < k then b.memory.cell (addr r) else b.processor.v.get r
  rest : b' = { b with processor := { b.processor with v := b'.processor.v, i := index k } }

theorem Stored.zero (h : index 0 = b.processor.i) : b.Stored addr value index 0 b where
  memory := .zero _
  rest := by rw [h]

theorem Stored.index_eq (h : b.Stored addr value index k s) : s.processor.i = index k := by rw [h.rest]

theorem Stored.covers_iff (h : b.Stored addr value index k s) {a : Int} :
    s.memory.Covers a 1 ↔ b.memory.Covers a 1 := Memory.covers_congr h.memory.size a 1

theorem Stored.succ {p : Processor} (h : b.Stored addr value index k s)
    (hp : p = { s.processor with i := index (k + 1) }) (hc : s.memory.Covers (addr k) 1)
    (hnonneg : ∀ j < k, 0 ≤ addr j) (hne : ∀ j < k, addr j ≠ addr k) :
    b.Stored addr value index (k + 1) { s with processor := p, memory := s.memory.put (addr k) (value k) } where
  memory := h.memory.succ hc hnonneg hne
  rest := by rw [hp, h.rest]

theorem Loaded.zero (h : index 0 = b.processor.i) : b.Loaded addr index 0 b where
  register _ := rfl
  rest := by rw [h]

theorem Loaded.index_eq (h : b.Loaded addr index k s) : s.processor.i = index k := by rw [h.rest]

theorem Loaded.memory (h : b.Loaded addr index k s) : s.memory = b.memory := by rw [h.rest]

theorem Loaded.succ (h : b.Loaded addr index k s) {r : Register} (hr : r.val = k) :
    b.Loaded addr index (k + 1)
      { s with processor := { s.processor.setV r (b.memory.cell (addr k)) with i := index (k + 1) } } where
  register r' := by
    show (s.processor.setV r _).v.get r' = _
    rw [Processor.get_setV, h.register r']
    by_cases heq : r = r'
    · subst heq
      rw [if_pos rfl, if_pos (by omega), hr]
    · have hne : r.val ≠ r'.val := mt Fin.ext heq
      have hlt : r'.val < k ↔ r'.val < k + 1 := by omega
      simp only [heq, if_false, hlt]
  rest := by rw [h.rest]; rfl

/-! ## One register -/

/-- Stores one register at the index, which moves on. -/
def storeRegister (r : Register) : EStateM Fault Board Unit := do
  writeByte (← getI) (← getV r)
  setI ((← getI) + 1)

/-- Loads one register from the index, which moves on. -/
def loadRegister (r : Register) : EStateM Fault Board Unit := do
  setV r (← readByte (← getI))
  setI ((← getI) + 1)

theorem storeRegisters_eq (x : Register) : storeRegisters x = (registersTo x).forM storeRegister := rfl

theorem loadRegisters_eq (x : Register) : loadRegisters x = (registersTo x).forM loadRegister := rfl

theorem storeRegister_eq (r : Register) (s : Board) :
    storeRegister r s =
      if s.memory.Covers s.processor.i 1 then
        .ok () { s with
          processor.i := (s.processor.i + 1) % 65536
          memory := s.memory.put s.processor.i (s.processor.v.get r) }
      else .error (.outsideMemory s.processor.i 1) s := by
  have hstore : storeRegister r s =
      (writeByte s.processor.i (s.processor.v.get r) >>= fun _ => getI >>= fun i => setI (i + 1)) s := rfl
  rw [hstore]
  by_cases hc : s.memory.Covers s.processor.i 1
  · rw [if_pos hc, bind_of_ok ((writeByte_eq _ _ s).trans (if_pos hc))]
    rfl
  · rw [if_neg hc, bind_of_error ((writeByte_eq _ _ s).trans (if_neg hc))]

theorem loadRegister_eq (r : Register) (s : Board) :
    loadRegister r s =
      if s.memory.Covers s.processor.i 1 then
        .ok () { s with
          processor := { s.processor.setV r (s.memory.cell s.processor.i) with i := (s.processor.i + 1) % 65536 } }
      else .error (.outsideMemory s.processor.i 1) s := by
  have hload : loadRegister r s =
      (readByte s.processor.i >>= fun value => setV r value >>= fun _ => getI >>= fun i => setI (i + 1)) s := rfl
  rw [hload]
  by_cases hc : s.memory.Covers s.processor.i 1
  · rw [if_pos hc, bind_of_ok ((readByte_eq _ s).trans (if_pos hc))]
    rfl
  · rw [if_neg hc, bind_of_error ((readByte_eq _ s).trans (if_neg hc))]

theorem numbers_registersTo (x : Register) : (registersTo x).map Fin.val = List.range (x + 1) := by
  have hall : ∀ x : Register, (registersTo x).map Fin.val = List.range (x + 1) := by decide
  exact hall x

theorem length_registersTo (x : Register) : (registersTo x).length = x + 1 := by
  rw [← List.length_map, numbers_registersTo, List.length_range]

/-! ## All registers -/

variable {x : Register}

theorem val_registersTo (hk : k < (registersTo x).length) : ((registersTo x)[k]).val = k := by
  have hk' : k < ((registersTo x).map Fin.val).length := by rwa [List.length_map]
  have hmap : ((registersTo x)[k]).val = ((registersTo x).map Fin.val)[k] := by rw [List.getElem_map]
  simp only [hmap, numbers_registersTo, List.getElem_range]

/-- The byte in the register with a number. -/
def registerAt (b : Board) (j : Nat) : Byte := if h : j < 16 then b.processor.v.get ⟨j, h⟩ else 0

theorem registerAt_val (b : Board) (r : Register) : b.registerAt r = b.processor.v.get r := dif_pos r.isLt

theorem storeRegisters_halts (h : b.ahead 0 = b.processor.i) (x : Register) :
    Halts (fun k => b.memory.fault? (b.ahead k)) (b.Stored b.ahead b.registerAt b.ahead) (x + 1) ⟨⟩
      (storeRegisters x b) := by
  rw [storeRegisters_eq, ← length_registersTo]
  refine halts_forM (.zero h) (fun k hk s hs hnone => ?_) (fun k hk s fault hs hsome => ?_)
  · have hcovers := hs.covers_iff.mpr (Memory.fault?_eq_none_iff.mp hnone)
    have hvalue : s.processor.v.get (registersTo x)[k] = b.registerAt k := by
      have hv : s.processor.v = b.processor.v := by rw [hs.rest]
      rw [hv, ← registerAt_val, val_registersTo hk]
    have hk' : k < 65536 := by
      rw [length_registersTo] at hk
      omega
    rw [storeRegister_eq, hs.index_eq, hvalue, if_pos hcovers, ← ahead_succ]
    exact ⟨_, rfl, hs.succ rfl hcovers (fun j _ => b.ahead_nonneg j) fun j hj => ahead_ne hj hk'⟩
  · obtain ⟨hnot, rfl⟩ := Memory.fault?_eq_some_iff.mp hsome
    rw [storeRegister_eq, hs.index_eq, if_neg (mt hs.covers_iff.mp hnot)]

theorem loadRegisters_halts (h : b.ahead 0 = b.processor.i) (x : Register) :
    Halts (fun k => b.memory.fault? (b.ahead k)) (b.Loaded b.ahead b.ahead) (x + 1) ⟨⟩ (loadRegisters x b) := by
  rw [loadRegisters_eq, ← length_registersTo]
  refine halts_forM (.zero h) (fun k hk s hs hnone => ?_) (fun k hk s fault hs hsome => ?_)
  · have hcovers : s.memory.Covers (b.ahead k) 1 := by
      rw [hs.memory]
      exact Memory.fault?_eq_none_iff.mp hnone
    have hcell : s.memory.cell (b.ahead k) = b.memory.cell (b.ahead k) := by rw [hs.memory]
    rw [loadRegister_eq, hs.index_eq, if_pos hcovers, hcell, ← ahead_succ]
    exact ⟨_, rfl, hs.succ (val_registersTo hk)⟩
  · obtain ⟨hnot, rfl⟩ := Memory.fault?_eq_some_iff.mp hsome
    rw [loadRegister_eq, hs.index_eq, hs.memory, if_neg hnot]

/-! ## Digits -/

/-- A digit of a byte, from the hundreds on. -/
def decimalDigit (value : Byte) (j : Nat) : Byte := .ofNat (value.toNat / Nat.pow 10 (2 - j) % 10)

/-- Stores one digit so many addresses after the index. -/
def storeDigit (value : Byte) (j : Nat) : EStateM Fault Board Unit := do
  writeByte ((← getI) + j) (decimalDigit value j)

theorem digits_eq (value : Byte) :
    value / 100 = decimalDigit value 0 ∧ value / 10 % 10 = decimalDigit value 1 ∧
      value % 10 = decimalDigit value 2 := by
  have hlt := value.toNat_lt
  refine ⟨?_, ?_, ?_⟩
  all_goals
    apply UInt8.toNat_inj.mp
    simp [decimalDigit]
    omega

theorem storeDigits_eq (x : Register) (b : Board) :
    storeDigits x b = (List.range 3).forM (storeDigit (b.processor.v.get x)) b := by
  have hdigits : ∀ value : Byte, (List.range 3).forM (storeDigit value) = (do
      writeByte (← getI) (value / 100)
      writeByte ((← getI) + 1) (value / 10 % 10)
      writeByte ((← getI) + 2) (value % 10)) := by
    intro value
    obtain ⟨hhundreds, htens, hones⟩ := digits_eq value
    rw [hhundreds, htens, hones]
    simp [List.forM_eq_forM, List.range_succ, storeDigit]
  rw [hdigits]
  rfl

theorem storeDigit_eq (value : Byte) (j : Nat) (s : Board) :
    storeDigit value j s =
      if s.memory.Covers (s.processor.i + j) 1 then
        .ok () { s with memory := s.memory.put (s.processor.i + j) (decimalDigit value j) }
      else .error (.outsideMemory (s.processor.i + j) 1) s := writeByte_eq _ _ s

theorem storeDigits_halts (h : 0 ≤ b.processor.i) (x : Register) :
    Halts (fun k => b.memory.fault? (b.processor.i + k))
      (b.Stored (fun k => b.processor.i + k) (decimalDigit (b.processor.v.get x)) fun _ => b.processor.i) 3 ⟨⟩
      (storeDigits x b) := by
  rw [storeDigits_eq]
  show Halts _ _ (List.range 3).length PUnit.unit _
  refine halts_forM (.zero rfl) (fun k hk s hs hnone => ?_) (fun k hk s fault hs hsome => ?_)
  · have hcovers := hs.covers_iff.mpr (Memory.fault?_eq_none_iff.mp hnone)
    rw [List.getElem_range, storeDigit_eq, hs.index_eq, if_pos hcovers]
    have hp : s.processor = { s.processor with i := b.processor.i } := by rw [← hs.index_eq]
    exact ⟨_, rfl, hs.succ hp hcovers (fun j _ => by omega) fun j hj => by omega⟩
  · obtain ⟨hnot, rfl⟩ := Memory.fault?_eq_some_iff.mp hsome
    rw [List.getElem_range, storeDigit_eq, hs.index_eq, if_neg (mt hs.covers_iff.mp hnot)]

/-! ## The instructions -/

variable {i : Instruction}

theorem execute_storeRegisters (hf : i.family = 0xF) (hn : i.nn = 0x55) :
    execute i = proceed (storeRegisters i.x) := by
  have hop : i.operation = .storeRegisters i.x := Instruction.operation_of_form (t := .ldMemory) ⟨hf, hn⟩ nofun nofun
  unfold execute
  rw [hop]

theorem execute_loadRegisters (hf : i.family = 0xF) (hn : i.nn = 0x65) :
    execute i = proceed (loadRegisters i.x) := by
  have hop : i.operation = .loadRegisters i.x := Instruction.operation_of_form (t := .ldRegisters) ⟨hf, hn⟩ nofun nofun
  unfold execute
  rw [hop]

theorem execute_storeDigits (hf : i.family = 0xF) (hn : i.nn = 0x33) :
    execute i = proceed (storeDigits i.x) := by
  have hop : i.operation = .storeDigits i.x := Instruction.operation_of_form (t := .ldDigits) ⟨hf, hn⟩ nofun nofun
  unfold execute
  rw [hop]

theorem execute_storeRegisters_halts (h : b.ahead 0 = b.processor.i) (hf : i.family = 0xF) (hn : i.nn = 0x55) :
    Halts (fun k => b.memory.fault? (b.ahead k)) (b.Stored b.ahead b.registerAt b.ahead) (i.x + 1) none
      (execute i b) := by
  rw [execute_storeRegisters hf hn]
  exact (storeRegisters_halts h i.x).bind_pure none

theorem execute_loadRegisters_halts (h : b.ahead 0 = b.processor.i) (hf : i.family = 0xF) (hn : i.nn = 0x65) :
    Halts (fun k => b.memory.fault? (b.ahead k)) (b.Loaded b.ahead b.ahead) (i.x + 1) none (execute i b) := by
  rw [execute_loadRegisters hf hn]
  exact (loadRegisters_halts h i.x).bind_pure none

theorem execute_storeDigits_halts (h : 0 ≤ b.processor.i) (hf : i.family = 0xF) (hn : i.nn = 0x33) :
    Halts (fun k => b.memory.fault? (b.processor.i + k))
      (b.Stored (fun k => b.processor.i + k) (decimalDigit (b.processor.v.get i.x)) fun _ => b.processor.i) 3 none
      (execute i b) := by
  rw [execute_storeDigits hf hn]
  exact (storeDigits_halts h i.x).bind_pure none

end Board
end ChipEight
