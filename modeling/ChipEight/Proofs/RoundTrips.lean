import ChipEight.Machine
import ChipEight.Proofs.Lemmas.Block

/-!
# Storing and loading again

Registers that were stored are loaded again from their block, and a block that was loaded is stored again as it was,
also around the end of the addresses. The digits of a byte are loaded again from the addresses up to that end only,
since they are stored beyond it and loaded from the first addresses.
-/

namespace ChipEight.Board

open Effect

variable {store load i : Instruction} {b b' s s' : Board} {next : Option Int} {x : Register}

/-! ## Registers -/

/-- The registers up to `y` hold what they hold on `b`, and the index has moved past their block. Nothing else of `s`
has changed. -/
structure Restored (b : Board) (y : Register) (s s' : Board) : Prop where
  loaded : ∀ r ≤ y, s'.processor.v.get r = b.processor.v.get r
  kept : ∀ r, y < r → s'.processor.v.get r = s.processor.v.get r
  index : s'.processor.i = (b.processor.i + (y + 1)) % 65536
  rest : s' = { s with processor := { s.processor with v := s'.processor.v, i := s'.processor.i } }

theorem restored_of_loaded {y : Register} (hstored : b.Stored b.ahead b.registerAt b.ahead (x + 1) b')
    (hmemory : s.memory = b'.memory) (hyx : y ≤ x) (hloaded : s.Loaded b.ahead b.ahead (y + 1) s') :
    Restored b y s s' := by
  refine { loaded := fun r hr => ?loaded, kept := fun r hr => ?kept, index := hloaded.index_eq, rest := ?rest }
  case loaded =>
    have hry : r.val < y.val + 1 := Nat.lt_succ_of_le hr
    have hrx : r.val < x.val + 1 := Nat.lt_succ_of_le (Fin.le_trans hr hyx)
    rw [hloaded.register, if_pos hry, hmemory, hstored.memory.cell r hrx, registerAt_val]
  case kept =>
    have hry : ¬ r.val < y.val + 1 := Nat.not_lt.mpr hr
    rw [hloaded.register, if_neg hry]
  case rest =>
    rw [hloaded.index_eq]
    exact hloaded.rest

theorem memory_of_stored (hloaded : b.Loaded b.ahead b.ahead (load.x + 1) b') (hmemory : s.memory = b'.memory)
    (hv : s.processor.v = b'.processor.v) (hxl : x ≤ load.x)
    (hstored : s.Stored b.ahead s.registerAt b.ahead (x + 1) s') : s'.memory = b.memory := by
  have hsame : s.memory = b.memory := hmemory.trans hloaded.memory
  refine Memory.eq_of_cell (hsame ▸ hstored.memory.size) fun a ha => ?_
  by_cases hblock : ∃ j < x.val + 1, a = b.ahead j
  · -- a register holds the byte of its own address
    obtain ⟨j, hj, rfl⟩ := hblock
    have hlt : j < load.x.val + 1 := Nat.lt_of_lt_of_le hj (Nat.succ_le_succ hxl)
    have hregister := hloaded.register ⟨j, by omega⟩
    rw [if_pos hlt] at hregister
    rw [hstored.memory.cell j hj, ← hregister, ← hv]
    exact dif_pos _
  · rw [hstored.memory.others a ha fun j hj heq => hblock ⟨j, hj, heq⟩, hsame]

/-- A memory of all addresses covers every block. -/
theorem fault?_ahead_of_size (hsize : b.memory.size = 65536) (k : Nat) : b.memory.fault? (b.ahead k) = none := by
  have hnonneg := b.ahead_nonneg k
  have hlt := b.ahead_lt k
  rw [Memory.fault?_eq_none_iff, Memory.Covers]
  omega

theorem load_after_store (h : 0 ≤ b.processor.i) (hlt : b.processor.i < 65536) (hsf : store.family = 0xF)
    (hsn : store.nn = 0x55) (hlf : load.family = 0xF) (hln : load.nn = 0x65) (hle : load.x ≤ store.x)
    (hok : execute store b = .ok next b') (hmemory : s.memory = b'.memory) (hi : s.processor.i = b.processor.i) :
    ∃ s', execute load s = .ok none s' ∧ Restored b load.x s s' := by
  have hfirst := ahead_zero h hlt
  obtain ⟨-, hnone, hstored⟩ := (execute_storeRegisters_halts hfirst hsf hsn).of_ok hok
  have hload := execute_loadRegisters_halts (b := s) (by rw [ahead_congr hi, hfirst, hi]) hlf hln
  rw [ahead_congr hi] at hload
  have hinside : ∀ k < load.x.val + 1, s.memory.fault? (b.ahead k) = none := by
    intro k hk
    have hcovers := Memory.fault?_eq_none_iff.mp (hnone k (Nat.lt_of_lt_of_le hk (Nat.succ_le_succ hle)))
    rw [Memory.fault?_eq_none_iff, hmemory]
    exact (Memory.covers_congr hstored.memory.size _ _).mpr hcovers
  obtain ⟨s', hs', hloaded⟩ := hload.completes hinside
  exact ⟨s', hs', restored_of_loaded hstored hmemory hle hloaded⟩

theorem store_after_load (h : 0 ≤ b.processor.i) (hlt : b.processor.i < 65536) (hsf : store.family = 0xF)
    (hsn : store.nn = 0x55) (hlf : load.family = 0xF) (hln : load.nn = 0x65) (hle : store.x ≤ load.x)
    (hok : execute load b = .ok next b') (hmemory : s.memory = b'.memory) (hv : s.processor.v = b'.processor.v)
    (hi : s.processor.i = b.processor.i) : ∃ s', execute store s = .ok none s' ∧ s'.memory = b.memory := by
  have hfirst := ahead_zero h hlt
  obtain ⟨-, hnone, hloaded⟩ := (execute_loadRegisters_halts hfirst hlf hln).of_ok hok
  have hstore := execute_storeRegisters_halts (b := s) (by rw [ahead_congr hi, hfirst, hi]) hsf hsn
  rw [ahead_congr hi, hmemory, hloaded.memory] at hstore
  obtain ⟨s', hs', hstored⟩ :=
    hstore.completes fun k hk => hnone k (Nat.lt_of_lt_of_le hk (Nat.succ_le_succ hle))
  exact ⟨s', hs', memory_of_stored hloaded hmemory hv hle hstored⟩

/-- Storing and loading undo each other. Registers that were stored are loaded again, whatever has become of the
processor but the index and of the display. A block that was loaded, or a part of it, is stored again without a change
to memory. -/
theorem storing_and_loading_undo_each_other (h : 0 ≤ b.processor.i) (hlt : b.processor.i < 65536)
    (hsf : store.family = 0xF) (hsn : store.nn = 0x55) (hlf : load.family = 0xF) (hln : load.nn = 0x65) :
    (load.x ≤ store.x → ∀ next b', execute store b = .ok next b' →
      ∀ s, s.memory = b'.memory → s.processor.i = b.processor.i →
        ∃ s', execute load s = .ok none s' ∧ Restored b load.x s s') ∧
    (store.x ≤ load.x → ∀ next b', execute load b = .ok next b' →
      ∀ s, s.memory = b'.memory → s.processor.v = b'.processor.v → s.processor.i = b.processor.i →
        ∃ s', execute store s = .ok none s' ∧ s'.memory = b.memory) := by
  constructor
  · intro hle next b' hok s hmemory hi
    exact load_after_store h hlt hsf hsn hlf hln hle hok hmemory hi
  · intro hle next b' hok s hmemory hv hi
    exact store_after_load h hlt hsf hsn hlf hln hle hok hmemory hv hi

/-- All registers are stored from the last address on, around the end. Two of them are loaded again into a processor
that was started afresh. Then three bytes are loaded from there, and stored again. -/
theorem storing_and_loading_around_the_end :
    ∃ b b₁ b₂ : Board, b.processor.i = 65535 ∧ b.memory.size = 65536 ∧
      execute (.ofInt 0xFF55) b = .ok none b₁ ∧
      (∃ s', execute (.ofInt 0xF165) { b₁ with processor := (b₁.processor.reset 0x200).setI 65535 } = .ok none s' ∧
        s'.processor.v.get 0 = 123 ∧ s'.processor.v.get 1 = 7 ∧ s'.processor.v.get 15 = 0 ∧ s'.processor.i = 1) ∧
      execute (.ofInt 0xF265) b = .ok none b₂ ∧
      ∃ s', execute (.ofInt 0xF255) { b₂ with processor.i := 65535 } = .ok none s' ∧ s'.memory = b.memory := by
  obtain ⟨memory, hsize⟩ : ∃ m : Memory, m.size = 65536 := ⟨.zeroed 65536, Memory.size_zeroed _⟩
  let b : Board :=
    { processor :=
        { Processor.fresh 0x200 none with i := 65535, v := #v[123, 7, 9, 0, 0, 0, 0, 0, 0, 0, 0, 0, 0, 0, 0, 1] }
      memory := memory
      display := .blank 0 0 }
  have h : 0 ≤ b.processor.i := by simp [b]
  have hlt : b.processor.i < 65536 := by simp [b]
  have hfirst := ahead_zero h hlt
  have hinside : ∀ n, ∀ k < n, b.memory.fault? (b.ahead k) = none := fun _ k _ => fault?_ahead_of_size hsize k
  have hstoreAll : (Instruction.ofInt 0xFF55).family = 0xF ∧ (Instruction.ofInt 0xFF55).nn = 0x55 := by decide
  have hloadTwo : (Instruction.ofInt 0xF165).family = 0xF ∧ (Instruction.ofInt 0xF165).nn = 0x65 := by decide
  have hstoreThree : (Instruction.ofInt 0xF255).family = 0xF ∧ (Instruction.ofInt 0xF255).nn = 0x55 := by decide
  have hloadThree : (Instruction.ofInt 0xF265).family = 0xF ∧ (Instruction.ofInt 0xF265).nn = 0x65 := by decide
  obtain ⟨b₁, hb₁, -⟩ := (execute_storeRegisters_halts hfirst hstoreAll.1 hstoreAll.2).completes (hinside _)
  obtain ⟨b₂, hb₂, -⟩ := (execute_loadRegisters_halts hfirst hloadThree.1 hloadThree.2).completes (hinside _)
  have hload := (storing_and_loading_undo_each_other h hlt hstoreAll.1 hstoreAll.2 hloadTwo.1 hloadTwo.2).1
    (by decide) _ _ hb₁
  have hstore := (storing_and_loading_undo_each_other h hlt hstoreThree.1 hstoreThree.2 hloadThree.1 hloadThree.2).2
    (by decide) _ _ hb₂
  obtain ⟨s, hs, hrestored⟩ := hload { b₁ with processor := (b₁.processor.reset 0x200).setI 65535 } rfl rfl
  refine ⟨b, b₁, b₂, rfl, hsize, hb₁, ⟨s, hs, ?_, ?_, ?_, hrestored.index⟩, hb₂, hstore _ rfl rfl rfl⟩
  · exact hrestored.loaded 0 (by decide)
  · exact hrestored.loaded 1 (by decide)
  · exact hrestored.kept 15 (by decide)

/-! ## Digits -/

theorem toNat_decimalDigit (value : Byte) (j : Nat) :
    (decimalDigit value j).toNat = value.toNat / Nat.pow 10 (2 - j) % 10 := by
  simp [decimalDigit]
  omega

/-- Three registers hold decimal digits, and these make up the value. -/
structure HoldDigits (value : Byte) (p : Processor) : Prop where
  digit : ∀ r : Register, r.val < 3 → (p.v.get r).toNat ≤ 9
  sum : 100 * (p.v.get 0).toNat + 10 * (p.v.get 1).toNat + (p.v.get 2).toNat = value.toNat

theorem holdDigits_of_decimalDigit {value : Byte} {p : Processor}
    (h : ∀ r : Register, r.val < 3 → p.v.get r = decimalDigit value r) : HoldDigits value p where
  digit r hr := by
    rw [h r hr, toNat_decimalDigit]
    omega
  sum := by
    have hlt := value.toNat_lt
    rw [h 0 (by decide), h 1 (by decide), h 2 (by decide)]
    simp [toNat_decimalDigit]
    omega

theorem storeDigits_of_room (h : 0 ≤ b.processor.i) (hf : i.family = 0xF) (hn : i.nn = 0x33)
    (hroom : b.processor.i + 2 < b.memory.size) : ∃ b', execute i b = .ok none b' := by
  refine (execute_storeDigits_halts h hf hn).ok_iff.mpr fun k hk => ?_
  rw [Memory.fault?_eq_none_iff]
  exact ⟨by omega, by omega⟩

theorem loaded_of_digits (h : 0 ≤ b.processor.i) (hlt : b.processor.i < 65536) (hf : i.family = 0xF)
    (hn : i.nn = 0x33) (hok : execute i b = .ok next b') :
    b.processor.i + 2 < b.memory.size ∧ b'.processor = b.processor ∧
      ∃ s, execute (.ofInt 0xF265) b' = .ok none s ∧ ∀ r : Register, r.val < 3 → s.processor.v.get r =
        if b.processor.i + r < 65536 then decimalDigit (b.processor.v.get i.x) r
        else b.memory.cell (b.processor.i + r - 65536) := by
  obtain ⟨-, hnone, hdone⟩ := (execute_storeDigits_halts h hf hn).of_ok hok
  have hlast : b.processor.i + 2 < b.memory.size := by
    have hcovers := (Memory.fault?_eq_none_iff.mp (hnone 2 (by decide))).2
    omega
  have hprocessor : b'.processor = b.processor := by rw [hdone.rest]
  have hi : b'.processor.i = b.processor.i := by rw [hprocessor]
  have hfirst : b'.ahead 0 = b'.processor.i := by rw [ahead_congr hi, hi, ahead_zero h hlt]
  have hload := execute_loadRegisters_halts (i := .ofInt 0xF265) hfirst (by decide) (by decide)
  have hcount : (Instruction.ofInt 0xF265).x.val + 1 = 3 := by decide
  rw [ahead_congr hi, hcount] at hload
  have hinside : ∀ k < 3, b'.memory.fault? (b.ahead k) = none := by
    intro k hk
    have hnonneg := b.ahead_nonneg k
    have hsize := hdone.memory.size
    rw [Memory.fault?_eq_none_iff, Memory.Covers]
    rw [ahead_eq h hlt (by omega)] at hnonneg ⊢
    split at hnonneg <;> omega
  obtain ⟨s, hs, hloaded⟩ := hload.completes hinside
  refine ⟨hlast, hprocessor, s, hs, fun r hr => ?_⟩
  rw [hloaded.register, if_pos hr, ahead_eq h hlt (by omega)]
  split
  · exact hdone.memory.cell r hr
  · -- the first addresses are apart from those that the digits were stored at
    exact hdone.memory.others _ (by omega) fun j hj => by omega

/-- Digits that were stored are loaded again up to the last address of 16 bits, and so all of them in a memory that
has no further addresses. What is stored beyond it is not loaded: in its place come the bytes from address zero on. -/
theorem digits_are_loaded_up_to_last_address (h : 0 ≤ b.processor.i) (hlt : b.processor.i < 65536)
    (hf : i.family = 0xF) (hn : i.nn = 0x33) (hok : execute i b = .ok next b') :
    b.processor.i + 2 < b.memory.size ∧ b'.processor = b.processor ∧ ∃ s, execute (.ofInt 0xF265) b' = .ok none s ∧
      (b.processor.i + 2 < 65536 ∨ b.memory.size ≤ 65536 → HoldDigits (b.processor.v.get i.x) s.processor) ∧
      ∀ r : Register, r.val < 3 → s.processor.v.get r =
        if b.processor.i + r < 65536 then decimalDigit (b.processor.v.get i.x) r
        else b.memory.cell (b.processor.i + r - 65536) := by
  obtain ⟨hlast, hprocessor, s, hs, hloaded⟩ := loaded_of_digits h hlt hf hn hok
  refine ⟨hlast, hprocessor, s, hs, fun hend => holdDigits_of_decimalDigit fun r hr => ?_, hloaded⟩
  have hbefore : b.processor.i + r < 65536 := by omega
  rw [hloaded r hr, if_pos hbefore]

/-- Three digits at the last three addresses of a memory that has all of them. -/
theorem digits_are_loaded_at_last_addresses :
    ∃ b b' s : Board, b.processor.i = 65533 ∧ b.memory.size = 65536 ∧ b.processor.v.get 2 = 254 ∧
      execute (.ofInt 0xF233) b = .ok none b' ∧ execute (.ofInt 0xF265) b' = .ok none s ∧
      HoldDigits 254 s.processor := by
  obtain ⟨memory, hsize⟩ : ∃ m : Memory, m.size = 65536 := ⟨.zeroed 65536, Memory.size_zeroed _⟩
  let b : Board :=
    { processor := ((Processor.fresh 0x200 none).setV 2 254).setI 65533
      memory := memory
      display := .blank 0 0 }
  have hi : b.processor.i = 65533 := rfl
  have hroom : b.processor.i + 2 < memory.size := by omega
  obtain ⟨b', hb'⟩ := storeDigits_of_room (b := b) (i := .ofInt 0xF233) (by omega) (by decide) (by decide) hroom
  obtain ⟨-, -, s, hs, hdigits, -⟩ :=
    digits_are_loaded_up_to_last_address (by omega) (by omega) (by decide) (by decide) hb'
  exact ⟨b, b', s, hi, hsize, rfl, hb', hs, hdigits (.inl (by omega))⟩

/-- In a memory of one byte more, the last digit of 7 is stored in that byte and is not loaded again. -/
theorem digit_is_lost_past_last_address :
    ∃ (m : Machine) (b b' s : Board), Machine.build { memorySize := 65537 } = .ok m ∧
      b = { m.board with processor := (m.board.processor.setV 0 7).setI 65534 } ∧
      execute (.ofInt 0xF033) b = .ok none b' ∧ execute (.ofInt 0xF265) b' = .ok none s ∧
      ¬ HoldDigits 7 s.processor := by
  let m := Machine.new { memorySize := 65537 }
  let b : Board := { m.board with processor := (m.board.processor.setV 0 7).setI 65534 }
  have hi : b.processor.i = 65534 := rfl
  have hsize : b.memory.size = 65537 := Memory.size_zeroed 65537
  obtain ⟨b', hb'⟩ :=
    storeDigits_of_room (b := b) (i := .ofInt 0xF033) (by omega) (by decide) (by decide) (by omega)
  obtain ⟨-, -, s, hs, hloaded⟩ := loaded_of_digits (by omega) (by omega) (by decide) (by decide) hb'
  refine ⟨m, b, b', s, rfl, rfl, hb', hs, fun hdigits => ?_⟩
  have hvalue : b.processor.v.get (Instruction.ofInt 0xF033).x = 7 := by decide
  rw [hi, hvalue] at hloaded
  have hhundreds : s.processor.v.get 0 = 0 := (hloaded 0 (by decide)).trans (if_pos (by decide))
  have htens : s.processor.v.get 1 = 0 := (hloaded 1 (by decide)).trans (if_pos (by decide))
  have hones : s.processor.v.get 2 = 0 :=
    ((hloaded 2 (by decide)).trans (if_neg (by decide))).trans (Memory.cell_zeroed 65537 _)
  have hsum := hdigits.sum
  rw [hhundreds, htens, hones] at hsum
  cases hsum

end ChipEight.Board
