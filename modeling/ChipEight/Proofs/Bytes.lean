import ChipEight.Proofs.Lemmas.Accesses
import ChipEight.Proofs.Lemmas.Latest
import ChipEight.Proofs.Lemmas.Shape

/-!
# Memory as an array of bytes

Whatever steps a memory has taken, it holds at each address the value that a step put there last. Words and blocks are
nothing but their bytes.
-/

namespace ChipEight.Memory

open Effect

variable {m : Memory} {a addr : Int}

/-! ## The values that steps put -/

/-- The value that a step puts at an address if it succeeds, if it puts one. Erasing puts zero everywhere. -/
def Step.value? (addr : Int) : Step → Option Int
  | writeByte a value => if addr = a then some value else none
  | writeBytes a values => if a ≤ addr then values[(addr - a).toNat]? else none
  | erase => some 0
  | readByte _ | readWord _ | readBytes _ _ | snapshot | size => none

/-- The value that a step puts at an address of a memory, as a list. -/
def Step.puts (addr : Int) (step : Step) (m : Memory) : List Int :=
  ifDone (step.value? addr).toList (step.perform m)

theorem blockByte?_map (values : List Int) (addr : Int) :
    blockByte? a (values.map UInt8.ofInt) addr = ((Step.writeBytes a values).value? addr).map UInt8.ofInt := by
  simp only [blockByte?, Step.value?, List.getElem?_map]
  split <;> rfl

/-- A step leaves at an address what it has put there. -/
theorem cell_perform (step : Step) {value : Int} (hc : m.Covers addr 1) (hv : m.cell addr = UInt8.ofInt value) :
    (stateOf (step.perform m)).cell addr = UInt8.ofInt ((step.puts addr m).getLastD value) := by
  rw [Step.puts]
  cases step with
  | readByte a => rw [perform_readByte]; split <;> exact hv
  | readWord a => rw [perform_readWord]; split <;> exact hv
  | readBytes a length => rw [perform_readBytes]; split <;> exact hv
  | snapshot | size => exact hv
  | erase => exact cell_zeroed _ _
  | writeByte a new =>
      rw [perform_writeByte]
      by_cases ha : m.Covers a 1
      · rw [if_pos ha, stateOf, cell_put ha _ hc.1]
        by_cases heq : addr = a <;> simp [ifDone, Step.value?, heq, hv]
      · rw [if_neg ha]
        exact hv
  | writeBytes a values =>
      rw [perform_writeBytes]
      by_cases ha : m.Covers a values.length
      · have hblock : m.Covers a (values.map UInt8.ofInt).length := by rwa [List.length_map]
        rw [if_pos ha, stateOf, cell_putAll hblock hc.1, blockByte?_map]
        cases hnew : (Step.writeBytes a values).value? addr <;> simp [ifDone, hv]
      · rw [if_neg ha]
        exact hv

theorem cell_new {size : Nat} (values : Table Int Int) (hc : (zeroed size).Covers addr 1) :
    (new size values).cell addr = UInt8.ofInt ((values.get? addr).getD 0) := by
  rw [new, cell_preset values hc, cell_zeroed]
  cases values.get? addr <;> rfl

/-! ## Arrays -/

/-- The steps that write the items of a block one by one. -/
def Step.single (a : Int) (values : List Int) : List Step := values.mapIdx fun j value => .writeByte (a + j) value

theorem single_cons (a value : Int) (values : List Int) :
    Step.single a (value :: values) = .writeByte a value :: Step.single (a + 1) values := by
  simp [Step.single, List.mapIdx_cons, Int.add_assoc, Int.add_comm 1]

/-- A block is written as its items are one after the other. -/
theorem attempts_single (values : List Int) (hc : m.Covers a values.length) :
    attempts Step.perform (Step.single a values) m =
      (List.replicate values.length (.ok .done), m.putAll a (values.map UInt8.ofInt)) := by
  induction values generalizing a m with
  | nil => rfl
  | cons value values ih =>
      obtain ⟨ha, hsize⟩ := hc
      rw [List.length_cons] at hsize
      have hfirst : m.Covers a 1 := ⟨ha, by omega⟩
      have hrest : (m.put a (UInt8.ofInt value)).Covers (a + 1) values.length :=
        ⟨by omega, by rw [size_put]; omega⟩
      rw [single_cons, attempts, perform_writeByte, if_pos hfirst, stateOf, ih hrest]
      rfl

/-- A byte can be read at an address, and it is the value. -/
def Reads (m : Memory) (a value : Int) : Prop := outcomeOf (Step.perform (.readByte a) m) = .ok (.number value)

theorem reads_iff {value : Int} : m.Reads a value ↔ m.Covers a 1 ∧ value = (m.cell a).toNat := by
  rw [Reads, readByte_eq_ok_iff, Reply.number.injEq]

/-- A memory acts as an array of bytes that holds these values modulo 256. -/
structure ActsAsArray (size : Nat) (value : Int → Int) (m : Memory) : Prop where
  read : ∀ a, Step.perform (.readByte a) m =
    if 0 ≤ a ∧ a < size then .ok (.number (value a % 256)) m else .error (.outsideMemory a 1) m
  write : ∀ a new, (∃ fault m', Step.perform (.writeByte a new) m = .error fault m') ↔ a < 0 ∨ size ≤ a
  writeBlock : ∀ a values, (∃ fault m', Step.perform (.writeBytes a values) m = .error fault m') ↔
    a < 0 ∨ size < a + values.length
  failed : ∀ step fault m', Step.perform step m = .error fault m' → m' = m
  blockByItems : ∀ a values reply m', Step.perform (.writeBytes a values) m = .ok reply m' →
    attempts Step.perform (Step.single a values) m = (List.replicate values.length (.ok .done), m')
  word : ∀ a reply, outcomeOf (Step.perform (.readWord a) m) = .ok reply ↔
    ∃ high low, m.Reads a high ∧ m.Reads (a + 1) low ∧ reply = .number (256 * high + low)
  block : ∀ a length reply, 1 ≤ length → (outcomeOf (Step.perform (.readBytes a length) m) = .ok reply ↔
    ∃ data : List Byte, reply = .bytes data ∧ data.length = length ∧
      ∀ j (hj : j < data.length), m.Reads (a + j) data[j].toNat)

theorem readWord_by_bytes (m : Memory) (a : Int) (reply : Reply) :
    outcomeOf (Step.perform (.readWord a) m) = .ok reply ↔
      ∃ high low, m.Reads a high ∧ m.Reads (a + 1) low ∧ reply = .number (256 * high + low) := by
  simp only [readWord_eq_ok_iff, reads_iff]
  constructor
  · rintro ⟨⟨ha, hsize⟩, rfl⟩
    exact ⟨_, _, ⟨⟨ha, by omega⟩, rfl⟩, ⟨⟨by omega, by omega⟩, rfl⟩, rfl⟩
  · rintro ⟨_, _, ⟨hfirst, rfl⟩, ⟨hsecond, rfl⟩, rfl⟩
    have := hsecond.2
    exact ⟨⟨hfirst.1, by omega⟩, rfl⟩

theorem readBytes_by_bytes (m : Memory) (a length : Int) (reply : Reply) (hlength : 1 ≤ length) :
    outcomeOf (Step.perform (.readBytes a length) m) = .ok reply ↔
      ∃ data : List Byte, reply = .bytes data ∧ data.length = length ∧
        ∀ j (hj : j < data.length), m.Reads (a + j) data[j].toNat := by
  obtain ⟨n, rfl⟩ := Int.eq_ofNat_of_zero_le (Int.le_trans Int.one_nonneg hlength)
  simp only [readBytes_eq_ok_iff, reads_iff]
  constructor
  · rintro ⟨hc, rfl⟩
    refine ⟨_, rfl, by simp [slice_eq hc], fun j hj => ?_⟩
    have hlt : j < n := by simpa [slice_eq hc] using hj
    obtain ⟨ha, hsize⟩ := hc
    refine ⟨⟨by omega, by omega⟩, ?_⟩
    simp [slice_eq ⟨ha, hsize⟩]
  · rintro ⟨data, rfl, hn, hdata⟩
    obtain ⟨hfirst, -⟩ := hdata 0 (by omega)
    obtain ⟨hlast, -⟩ := hdata (n - 1) (by omega)
    have ha := hfirst.1
    have hsize := hlast.2
    have hc : m.Covers a n := ⟨by omega, by omega⟩
    refine ⟨hc, congrArg Reply.bytes ?_⟩
    apply List.ext_getElem
    · rw [slice_eq hc, List.length_map, List.length_range]
      omega
    · intro j hj _
      have hcell := (hdata j hj).2
      rw [Int.natCast_inj, UInt8.toNat_inj] at hcell
      simp [slice_eq hc, hcell]

theorem actsAsArray {size : Nat} {value : Int → Int} (hsize : m.size = size)
    (hvalue : ∀ a, m.Covers a 1 → m.cell a = UInt8.ofInt (value a)) : m.ActsAsArray size value := by
  subst hsize
  refine { read := fun a => ?read, write := fun a new => ?write, writeBlock := fun a values => ?writeBlock,
           failed := fun step fault m' => eq_of_perform_error, blockByItems := fun a values reply m' h => ?blockByItems,
           word := readWord_by_bytes m, block := readBytes_by_bytes m }
  case read =>
    have hc : m.Covers a 1 ↔ 0 ≤ a ∧ a < m.size := and_congr_right fun _ => Int.add_one_le_iff
    rw [perform_readByte]
    by_cases h : m.Covers a 1
    · rw [if_pos h, if_pos (hc.mp h), hvalue a h, toNat_ofInt]
    · rw [if_neg h, if_neg (mt hc.mpr h)]
  case write =>
    rw [perform_writeByte, fails_ite_iff, not_covers_iff, Int.lt_add_one_iff]
  case writeBlock =>
    rw [perform_writeBytes, fails_ite_iff, not_covers_iff]
  case blockByItems =>
    rw [perform_writeBytes] at h
    split at h
    · rename_i hc
      cases h
      exact attempts_single values hc
    · cases h

/-- The value that was put at an address last, by the steps that succeeded, or else the first value there. -/
def latest (size : Nat) (values : Table Int Int) (steps : List Step) (addr : Int) : Int :=
  (notes Step.perform (Step.puts addr) steps (new size values)).getLastD ((values.get? addr).getD 0)

/-- A memory of any size and with any first values acts as an array of bytes after any steps. At each address it holds
what was put there last. -/
theorem memory_acts_as_array (size : Nat) (values : Table Int Int) (steps : List Step) :
    ActsAsArray size (latest size values steps) (attempts Step.perform steps (new size values)).2 := by
  have hkeeps : ∀ step : Step, Preserves (fun m : Memory => m.size = size) step.perform := fun step =>
    keeps_iff.mp (Step.perform_keeps_size step) size
  have hnew : (new size values).size = size := by rw [new, size_preset, size_zeroed]
  have hsize : (attempts Step.perform steps (new size values)).2.size = size :=
    preserves_attempts steps (fun step _ => hkeeps step) hnew
  refine actsAsArray hsize fun a hc => ?_
  have hcovers : ∀ m : Memory, m.size = size → m.Covers a 1 := fun m hm =>
    (covers_congr (hm.trans hsize.symm) a 1).mpr hc
  refine view_attempts (cell · a) UInt8.ofInt hkeeps (fun step m value hm hv => ?_) steps hnew ?_
  · exact cell_perform step (hcovers m hm) hv
  · exact cell_new values (hcovers _ (size_zeroed size))

end ChipEight.Memory
