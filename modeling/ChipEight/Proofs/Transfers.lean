import ChipEight.Proofs.Lemmas.Block

/-!
# Transfers between registers and memory

A transfer moves bytes one after the other. It fails at the first address that is outside memory, and then it has
moved the bytes before that and no others.
-/

namespace ChipEight.Board

open Effect

variable {addr : Nat → Int} {Moved : Nat → Board → Prop} {count : Nat} {i : Instruction} {b : Board}

/-- Of `count` bytes, each at an address of its own, those before the first address outside memory are moved.
`Moved k` holds of the board once the first `k` of them were moved. -/
structure Transfers (b : Board) (count : Nat) (addr : Nat → Int) (Moved : Nat → Board → Prop)
    (r : EStateM.Result Fault Board (Option Int)) : Prop where
  ok_iff : (∃ b', r = .ok none b') ↔ ∀ j < count, addr j < b.memory.size
  whole : (∀ j < count, addr j < b.memory.size) → ∃ b', r = .ok none b' ∧ Moved count b'
  part : ∀ k < count, (∀ j < k, addr j < b.memory.size) → b.memory.size ≤ addr k →
    ∃ b', r = .error (.outsideMemory (addr k) 1) b' ∧ Moved k b'

theorem transfers_of_halts {r : EStateM.Result Fault Board (Option Int)} (hnonneg : ∀ j, 0 ≤ addr j)
    (h : Halts (fun k => b.memory.fault? (addr k)) Moved count none r) : Transfers b count addr Moved r := by
  have hnone : ∀ j, b.memory.fault? (addr j) = none ↔ addr j < b.memory.size := by
    intro j
    have hj := hnonneg j
    rw [Memory.fault?_eq_none_iff, Memory.Covers]
    omega
  have hok := h.ok_iff.trans (forall₂_congr fun j _ => hnone j)
  refine { ok_iff := hok, whole := fun hall => ?whole, part := fun k hk hbefore hout => ?part }
  case whole => exact h.completes fun k hk => (hnone k).mpr (hall k hk)
  case part =>
    cases h with
    | whole hinside => exact absurd ((hnone k).mp (hinside k hk)) (Int.not_lt.mpr hout)
    | @part k' fault b' _ hinside hfault hdone =>
        have hout' : ¬ addr k' < b.memory.size := fun hlt => by simp [(hnone k').mpr hlt] at hfault
        -- both are the first address outside memory
        obtain rfl : k = k' := by
          rcases Nat.lt_trichotomy k k' with hlt | heq | hlt
          · exact absurd ((hnone k).mp (hinside k hlt)) (Int.not_lt.mpr hout)
          · exact heq
          · exact absurd (hbefore k' hlt) hout'
        obtain ⟨-, rfl⟩ := Memory.fault?_eq_some_iff.mp hfault
        exact ⟨b', rfl, hdone⟩

/-- Registers are stored at the index and loaded from there, and digits are stored there, up to the first address that
is outside memory. The addresses of registers go around the end of all addresses, and the index goes with them. -/
theorem transfers_up_to_first_outside (h : 0 ≤ b.processor.i) (hlt : b.processor.i < 65536) (hf : i.family = 0xF) :
    (i.nn = 0x55 →
      Transfers b (i.x + 1) b.ahead (b.Stored b.ahead b.registerAt b.ahead) (execute i b)) ∧
    (i.nn = 0x65 →
      Transfers b (i.x + 1) b.ahead (b.Loaded b.ahead b.ahead) (execute i b)) ∧
    (i.nn = 0x33 →
      ((∃ b', execute i b = .ok none b') ↔ b.processor.i + 2 < b.memory.size) ∧
      Transfers b 3 (fun j => b.processor.i + j)
        (b.Stored (fun j => b.processor.i + j) (decimalDigit (b.processor.v.get i.x)) fun _ => b.processor.i)
        (execute i b)) := by
  have hfirst : b.ahead 0 = b.processor.i := by
    simp only [ahead]
    omega
  refine ⟨fun hn => ?_, fun hn => ?_, fun hn => ?_⟩
  · rw [execute_storeRegisters hf hn]
    exact transfers_of_halts b.ahead_nonneg ((storeRegisters_halts hfirst i.x).bind_pure none)
  · rw [execute_loadRegisters hf hn]
    exact transfers_of_halts b.ahead_nonneg ((loadRegisters_halts hfirst i.x).bind_pure none)
  · rw [execute_storeDigits hf hn]
    have htransfers := transfers_of_halts (by omega) ((storeDigits_halts h i.x).bind_pure none)
    exact ⟨htransfers.ok_iff.trans ⟨fun hall => hall 2 (by omega), fun htwo j hj => by omega⟩, htransfers⟩

/-- The last address there is, in a memory of all addresses: two registers are stored there and at zero, and
loaded from there, but of three digits only the first one is stored. -/
theorem transfers_at_last_address :
    ∃ b : Board, b.processor.i = 65535 ∧ b.memory.size = 65536 ∧
      (∃ b', execute (.ofInt 0xF155) b = .ok none b' ∧ b'.memory.cell 65535 = 123 ∧ b'.memory.cell 0 = 7 ∧
        b'.processor.i = 1) ∧
      (∃ b', execute (.ofInt 0xF165) b = .ok none b' ∧ b'.processor.v.get 1 = b.memory.cell 0 ∧
        b'.processor.v.get 2 = 9 ∧ b'.processor.i = 1) ∧
      ∃ b', execute (.ofInt 0xF033) b = .error (.outsideMemory 65536 1) b' ∧ b'.memory.cell 65535 = 1 ∧
        b'.processor.i = 65535 := by
  obtain ⟨memory, hsize⟩ : ∃ m : Memory, m.size = 65536 := ⟨.zeroed 65536, Memory.size_zeroed _⟩
  let b : Board :=
    { processor :=
        { Processor.fresh 0x200 none with i := 65535, v := #v[123, 7, 9, 0, 0, 0, 0, 0, 0, 0, 0, 0, 0, 0, 0, 0] }
      memory := memory
      display := .blank 0 0 }
  have h : 0 ≤ b.processor.i := by simp [b]
  have hlt : b.processor.i < 65536 := by simp [b]
  have hstore := (transfers_up_to_first_outside (i := .ofInt 0xF155) h hlt (by decide)).1 (by decide)
  have hload := (transfers_up_to_first_outside (i := .ofInt 0xF165) h hlt (by decide)).2.1 (by decide)
  have hdigits := ((transfers_up_to_first_outside (i := .ofInt 0xF033) h hlt (by decide)).2.2 (by decide)).2
  have hinside : ∀ j, b.ahead j < b.memory.size := by
    intro j
    have hbound : b.ahead j < 65536 := Int.emod_lt_of_pos _ (by decide)
    show _ < (memory.size : Int)
    omega
  obtain ⟨stored, hs, hstored⟩ := hstore.whole fun j _ => hinside j
  obtain ⟨loaded, hl, hloaded⟩ := hload.whole fun j _ => hinside j
  have hlast : ∀ j < 1, (65535 : Int) + (j : Nat) < memory.size := by
    intro j hj
    omega
  have hend : (memory.size : Int) ≤ 65535 + (1 : Nat) := by omega
  obtain ⟨failed, hd, hfailed⟩ := hdigits.part 1 (by decide) hlast hend
  refine ⟨b, rfl, hsize, ⟨stored, hs, hstored.memory.cell 0 (by decide), hstored.memory.cell 1 (by decide), ?_⟩,
    ⟨loaded, hl, hloaded.register 1, hloaded.register 2, ?_⟩, ⟨failed, hd, ?_, ?_⟩⟩
  · rw [hstored.rest]
    rfl
  · rw [hloaded.rest]
    rfl
  · have hdigit : decimalDigit 123 0 = 1 := by decide
    exact (hfailed.memory.cell 0 (by decide)).trans hdigit
  · rw [hfailed.rest]

end ChipEight.Board
