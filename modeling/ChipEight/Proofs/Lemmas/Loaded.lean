import ChipEight.Machine.Step
import ChipEight.Proofs.Lemmas.Load

/-!
# What loads

A run loads the font, its image and single values, in this order. If everything fits, `loaded` is the machine
that it comes to; if not, loading fails with the fault of the first thing that does not (`FirstMisfit`).
-/

namespace ChipEight

open Effect

theorem Machine.perform_readByte {m : Machine} {addr : Int} (h : m.board.memory.Covers addr 1) :
    Step.perform (.memory (.readByte addr)) m = .ok (.number (m.board.memory.cell addr).toNat) m := by
  simp only [Step.perform, Memory.Step.perform, told, EStateM.adaptExcept, onBoard, Board.onMemory, ask,
    Memory.read, if_pos h]
  rfl

namespace Run

variable {image : List Byte} {o : Options}

/-! ## What fits and what does not -/

/-- The address is in the memory that is asked for. -/
def Options.Inside (o : Options) (addr : Int) : Prop := 0 ≤ addr ∧ addr < o.memorySize

instance (o : Options) (addr : Int) : Decidable (o.Inside addr) := inferInstanceAs (Decidable (_ ∧ _))

/-- Something that is to be loaded does not fit. -/
def Unfit (image : List Byte) (o : Options) : Prop :=
  (o.loadFont = true ∧ o.memorySize < 160) ∨ o.start < 0 ∨ o.memorySize < o.start + image.length ∨
    ∃ entry ∈ o.initialMemory.entries, ¬ o.Inside entry.1

/-- The fault of the first thing that does not fit: the font, then the image, then the single values in the order
of their table. -/
inductive FirstMisfit (image : List Byte) (o : Options) : Fault → Prop
  | font (hf : o.loadFont = true) (hm : o.memorySize < 160) :
      FirstMisfit image o (.outsideMemory 0x50 80)
  | tooLarge (hf : o.loadFont = true → 160 ≤ o.memorySize) (hm : o.memorySize < o.start + image.length) :
      FirstMisfit image o (.imageTooLarge image.length o.start o.memorySize)
  | negative (hf : o.loadFont = true → 160 ≤ o.memorySize) (hm : o.start + image.length ≤ o.memorySize)
      (hs : o.start < 0) : FirstMisfit image o (.outsideMemory o.start image.length)
  | value (hf : o.loadFont = true → 160 ≤ o.memorySize) (hm : o.start + image.length ≤ o.memorySize)
      (hs : 0 ≤ o.start) {before after : List (Int × Int)} {entry : Int × Int}
      (he : o.initialMemory.entries = before ++ entry :: after)
      (hb : ∀ entry ∈ before, o.Inside entry.1) (hout : ¬ o.Inside entry.1) :
      FirstMisfit image o (.outsideMemory entry.1 1)

theorem not_unfit_iff :
    ¬ Unfit image o ↔ (o.loadFont = true → 160 ≤ o.memorySize) ∧ 0 ≤ o.start ∧
      o.start + image.length ≤ o.memorySize ∧ ∀ entry ∈ o.initialMemory.entries, o.Inside entry.1 := by
  simp only [Unfit, not_or, not_and, not_exists, Int.not_lt, Decidable.not_not]

theorem exists_firstMisfit (h : Unfit image o) : ∃ fault, FirstMisfit image o fault := by
  by_cases hf : o.loadFont = true ∧ o.memorySize < 160
  · exact ⟨_, .font hf.1 hf.2⟩
  have hfont : o.loadFont = true → 160 ≤ o.memorySize := fun hl => Int.not_lt.mp fun hm => hf ⟨hl, hm⟩
  by_cases hm : o.memorySize < o.start + image.length
  · exact ⟨_, .tooLarge hfont hm⟩
  have himage := Int.not_lt.mp hm
  by_cases hs : o.start < 0
  · exact ⟨_, .negative hfont himage hs⟩
  have hout : ∃ entry ∈ o.initialMemory.entries, ¬ o.Inside entry.1 := by
    rcases h with h | h | h | h
    · exact absurd h hf
    · exact absurd h hs
    · exact absurd h hm
    · exact h
  cases hfirst : o.initialMemory.entries.find? fun entry => ¬ o.Inside entry.1 with
  | none =>
      obtain ⟨entry, he, hout⟩ := hout
      have hnone := List.find?_eq_none.mp hfirst entry he
      simp [hout] at hnone
  | some entry =>
      obtain ⟨hout, before, after, he, hb⟩ := List.find?_eq_some_iff_append.mp hfirst
      refine ⟨_, .value hfont himage (Int.not_lt.mp hs) he (fun entry hmem => ?_) (by simpa using hout)⟩
      simpa using hb entry hmem

/-! ## Loading -/

/-- The machine after the font. -/
def fonted (o : Options) : Machine := (Machine.new o.toConfig).withFont o.loadFont

/-- The machine after the font and the image. -/
def imaged (image : List Byte) (o : Options) : Machine :=
  { fonted o with board.memory := (fonted o).board.memory.putAll o.start image }

/-- The machine after the font, the image and the single values. -/
def loaded (image : List Byte) (o : Options) : Machine :=
  { imaged image o with board.memory := (imaged image o).board.memory.preset o.initialMemory }

section Sizes

variable (hsize : 0 ≤ o.memorySize)

include hsize

theorem size_fresh : ((Machine.new o.toConfig).board.memory.size : Int) = o.memorySize := by
  show ((Memory.zeroed o.memorySize.toNat).size : Int) = _
  rw [Memory.size_zeroed]
  exact Int.toNat_of_nonneg hsize

theorem size_fonted : ((fonted o).board.memory.size : Int) = o.memorySize := by
  rw [fonted, Machine.size_withFont, size_fresh hsize]

theorem size_imaged : ((imaged image o).board.memory.size : Int) = o.memorySize := by
  rw [imaged, Memory.size_putAll, size_fonted hsize]

theorem size_loaded : ((loaded image o).board.memory.size : Int) = o.memorySize := by
  rw [loaded, Memory.size_preset, size_imaged hsize]

theorem covers_imaged_iff {addr : Int} :
    (imaged image o).board.memory.Covers addr 1 ↔ o.Inside addr := by
  unfold Memory.Covers Options.Inside
  rw [size_imaged hsize]
  omega

theorem load_fonted (hf : o.loadFont = true → 160 ≤ o.memorySize) :
    (if o.loadFont then Machine.loadFont else pure ()) (.new o.toConfig) = .ok () (fonted o) := by
  have hnew := size_fresh hsize
  exact Machine.loadFont_of_wanted fun hl => by have := hf hl; omega

theorem load_imaged (hs : 0 ≤ o.start) (hm : o.start + image.length ≤ o.memorySize) :
    Machine.load image o.start (fonted o) = .ok () (imaged image o) :=
  Machine.load_of_fits hs (by rw [size_fonted hsize]; exact hm)

/-- If the font and the image fit, the single values are what is left. -/
theorem load_eq_values (hf : o.loadFont = true → 160 ≤ o.memorySize) (hs : 0 ≤ o.start)
    (hm : o.start + image.length ≤ o.memorySize) :
    load image o (.new o.toConfig) = o.initialMemory.entries.forM writeEntry (imaged image o) := by
  rw [load_eq, bind_of_ok (load_fonted hsize hf), bind_of_ok (load_imaged hsize hs hm)]
  rfl

/-- If the font and the image fit, each byte of memory can be read after loading, also if a single value is refused. -/
theorem read_of_load (hf : o.loadFont = true → 160 ≤ o.memorySize) (hs : 0 ≤ o.start)
    (hm : o.start + image.length ≤ o.memorySize) {addr : Int} (h : o.Inside addr) {m : Machine}
    (hleft : stateOf (load image o (.new o.toConfig)) = m) :
    Machine.Step.perform (.memory (.readByte addr)) m = .ok (.number (m.board.memory.cell addr).toNat) m := by
  have hkept : m.board.memory.size = (imaged image o).board.memory.size := by
    rw [← hleft, load_eq_values hsize hf hs hm]
    exact Keeps.forM writeEntry_keeps_size _ _
  exact Machine.perform_readByte ((Memory.covers_congr hkept addr 1).mpr ((covers_imaged_iff hsize).mpr h))

/-- A byte of the image stays at its address if no single value is for it. -/
theorem cell_of_image (hf : o.loadFont = true → 160 ≤ o.memorySize) (hs : 0 ≤ o.start)
    (hm : o.start + image.length ≤ o.memorySize) {k : Nat} {b : Byte} (hk : image[k]? = some b)
    (hnone : o.start + k ∉ o.initialMemory.entries.map Prod.fst) :
    (stateOf (load image o (.new o.toConfig))).board.memory.cell (o.start + k) = b := by
  have haddr : 0 ≤ o.start + k := by omega
  have hcovers : (fonted o).board.memory.Covers o.start image.length := ⟨hs, by rw [size_fonted hsize]; exact hm⟩
  have hindex : (o.start + k - o.start).toNat = k := by omega
  have hblock : Memory.blockByte? o.start image (o.start + k) = some b := by
    rw [Memory.blockByte?, if_pos (by omega), hindex, hk]
  rw [load_eq_values hsize hf hs hm, cell_of_unnamed haddr hnone, imaged, Memory.cell_putAll hcovers haddr, hblock]
  rfl

theorem load_of_fit (h : ¬ Unfit image o) :
    load image o (.new o.toConfig) = .ok () (loaded image o) := by
  obtain ⟨hf, hs, hm, hvalues⟩ := not_unfit_iff.mp h
  rw [load_eq_values hsize hf hs hm]
  exact writeEntry_of_all_inside fun entry he => (covers_imaged_iff hsize).mpr (hvalues entry he)

theorem load_of_misfit {fault : Fault} (h : FirstMisfit image o fault) :
    ∃ m, load image o (.new o.toConfig) = .error fault m := by
  have hnew := size_fresh hsize
  have hfonted := size_fonted hsize
  cases h with
  | font hf hm =>
      have herror := Machine.loadFont_of_small (m := .new o.toConfig) (by omega)
      rw [load_eq, hf, if_pos rfl, bind_of_error herror]
      exact ⟨_, rfl⟩
  | tooLarge hf hm =>
      have hsmall : (fonted o).board.memory.size < o.start + image.length := by rw [hfonted]; exact hm
      have herror := Machine.load_of_too_large hsmall
      rw [hfonted] at herror
      rw [load_eq, bind_of_ok (load_fonted hsize hf), bind_of_error herror]
      exact ⟨_, rfl⟩
  | negative hf hm hs =>
      have hroom : o.start + image.length ≤ (fonted o).board.memory.size := by rw [hfonted]; exact hm
      have herror := Machine.load_of_negative hs hroom
      rw [load_eq, bind_of_ok (load_fonted hsize hf), bind_of_error herror]
      exact ⟨_, rfl⟩
  | value hf hm hs he hb hout =>
      rw [load_eq_values hsize hf hs hm, he]
      refine writeEntry_of_first_outside (fun entry hmem => ?_) fun hc => hout ?_
      · exact (covers_imaged_iff hsize).mpr (hb entry hmem)
      · exact (covers_imaged_iff hsize).mp hc

/-- The image loads if and only if everything fits. -/
theorem fit_of_load {m : Machine} (h : load image o (.new o.toConfig) = .ok () m) :
    ¬ Unfit image o ∧ m = loaded image o := by
  have hfit : ¬ Unfit image o := by
    intro hunfit
    obtain ⟨fault, hmisfit⟩ := exists_firstMisfit hunfit
    obtain ⟨m', herror⟩ := load_of_misfit hsize hmisfit
    rw [h] at herror
    cases herror
  rw [load_of_fit hsize hfit] at h
  cases h
  exact ⟨hfit, rfl⟩

end Sizes

end Run
end ChipEight
