import ChipEight.Proofs.Lemmas.Effect
import ChipEight.Proofs.Lemmas.Memory
import ChipEight.Run

/-!
# Loading

Loading changes nothing but memory. The font, an image and single values are loaded if they fit.
-/

namespace ChipEight

open Effect

namespace Machine

variable {ε α : Type}

/-- A machine with its memory taken out. -/
def withoutMemory (m : Machine) : Machine := { m with board.memory := .zeroed 0 }

theorem onMemory_eq (act : EStateM ε Memory α) (m : Machine) :
    onBoard (Board.onMemory act) m = match act m.board.memory with
      | .ok a memory => .ok a { m with board.memory := memory }
      | .error e memory => .error e { m with board.memory := memory } := by
  simp only [onBoard, Board.onMemory]
  cases act m.board.memory <;> rfl

theorem keeps_onMemory (act : EStateM ε Memory α) :
    Keeps withoutMemory (onBoard (Board.onMemory act)) := by
  intro m
  rw [onMemory_eq]
  cases act m.board.memory <;> rfl

theorem keeps_load (image : List Byte) (offset : Int) : Keeps withoutMemory (load image offset) := by
  intro m
  rw [load, get_bind]
  split
  · rfl
  · exact keeps_onMemory _ m

theorem loadFont_of_size {m : Machine} (h : 160 ≤ m.board.memory.size) :
    loadFont m = .ok () { m with board.memory := m.board.memory.putAll Font.start Font.bytes } := by
  have hc : m.board.memory.Covers Font.start Font.bytes.length :=
    ⟨by decide, by show (80 : Int) + (80 : Nat) ≤ _; omega⟩
  rw [loadFont, onMemory_eq, Memory.writeRange, if_pos hc]

theorem load_of_fits {m : Machine} {image : List Byte} {offset : Int} (ho : 0 ≤ offset)
    (h : offset + image.length ≤ m.board.memory.size) :
    load image offset m = .ok () { m with board.memory := m.board.memory.putAll offset image } := by
  have hc : m.board.memory.Covers offset image.length := ⟨ho, h⟩
  rw [load, get_bind, if_neg (by omega)]
  show onBoard (Board.onMemory (Memory.writeRange offset image)) m = _
  rw [onMemory_eq, Memory.writeRange, if_pos hc]

theorem loadFont_of_small {m : Machine} (h : m.board.memory.size < 160) :
    loadFont m = .error (.outsideMemory Font.start 80) m := by
  have hc : ¬ m.board.memory.Covers Font.start Font.bytes.length := by
    rintro ⟨-, hsize⟩
    change (80 : Int) + (80 : Nat) ≤ _ at hsize
    omega
  rw [loadFont, onMemory_eq, Memory.writeRange, if_neg hc]
  rfl

theorem load_of_negative {m : Machine} {image : List Byte} {offset : Int} (ho : offset < 0)
    (h : offset + image.length ≤ m.board.memory.size) :
    load image offset m = .error (.outsideMemory offset image.length) m := by
  have hc : ¬ m.board.memory.Covers offset image.length := fun hc => absurd hc.1 (Int.not_le.mpr ho)
  rw [load, get_bind, if_neg (by omega)]
  show onBoard (Board.onMemory (Memory.writeRange offset image)) m = _
  rw [onMemory_eq, Memory.writeRange, if_neg hc]

theorem load_of_too_large {m : Machine} {image : List Byte} {offset : Int}
    (h : m.board.memory.size < offset + image.length) :
    load image offset m = .error (.imageTooLarge image.length offset m.board.memory.size) m := by
  rw [load, get_bind, if_pos h]
  rfl

/-- A machine with the font in its memory, if it is wanted. -/
def withFont (font : Bool) (m : Machine) : Machine :=
  if font then { m with board.memory := m.board.memory.putAll Font.start Font.bytes } else m

theorem size_withFont (font : Bool) (m : Machine) :
    (m.withFont font).board.memory.size = m.board.memory.size := by
  cases font with
  | false => rfl
  | true => exact Memory.size_putAll _ _ _

theorem loadFont_of_wanted {font : Bool} {m : Machine} (h : font = true → 160 ≤ m.board.memory.size) :
    (if font then loadFont else pure ()) m = .ok () (m.withFont font) := by
  cases font with
  | false => rfl
  | true => rw [if_pos rfl, loadFont_of_size (h rfl)]; rfl

/-- A new machine of the default sizes, with the font if it is wanted. -/
def prepared (font : Bool) : Machine :=
  if font then
    { new {} with board.memory := (new {}).board.memory.putAll Font.start Font.bytes }
  else
    new {}

theorem prepared_false : prepared false = new {} := if_neg Bool.false_ne_true

theorem size_new : (new {}).board.memory.size = 4096 := Memory.size_zeroed 4096

theorem size_prepared (font : Bool) : (prepared font).board.memory.size = 4096 := by
  cases font with
  | false => exact size_new
  | true => exact (Memory.size_putAll _ _ _).trans size_new

/-- An image lies in memory of the default size if it is loaded at the offset. -/
def Fits (image : List Byte) (offset : Int) : Prop :=
  0 ≤ offset ∧ offset + image.length ≤ Memory.defaultSize

instance (image : List Byte) (offset : Int) : Decidable (Fits image offset) :=
  inferInstanceAs (Decidable (_ ∧ _))

/-- Why an image that does not fit is refused. -/
def misfit (image : List Byte) (offset : Int) : Fault :=
  if Memory.defaultSize < offset + image.length then
    .imageTooLarge image.length offset Memory.defaultSize
  else
    .outsideMemory offset image.length

/-- A machine that has been prepared, with an image in its memory. -/
def loaded (font : Bool) (image : List Byte) (offset : Int) : Machine :=
  { prepared font with board.memory := (prepared font).board.memory.putAll offset image }

theorem cycles_loaded (font : Bool) (image : List Byte) (offset : Int) : (loaded font image offset).cycles = 0 := by
  cases font <;> rfl

theorem load_prepared_of_fit {image : List Byte} {offset : Int} (h : Fits image offset) (font : Bool) :
    load image offset (prepared font) = .ok () (loaded font image offset) :=
  load_of_fits h.1 (by rw [size_prepared]; exact h.2)

theorem load_prepared_of_misfit {image : List Byte} {offset : Int} (h : ¬ Fits image offset) (font : Bool) :
    load image offset (prepared font) = .error (misfit image offset) (prepared font) := by
  have hsize : ((prepared font).board.memory.size : Int) = Memory.defaultSize := by rw [size_prepared]; rfl
  by_cases hlarge : Memory.defaultSize < offset + image.length
  · have hl := load_of_too_large (m := prepared font) (by rw [hsize]; exact hlarge)
    rw [misfit, if_pos hlarge, hl, hsize]
  · have hfit := Int.not_lt.mp hlarge
    have hneg : offset < 0 := Int.not_le.mp fun hpos => h ⟨hpos, hfit⟩
    rw [misfit, if_neg hlarge, load_of_negative hneg (by rw [hsize]; exact hfit)]

theorem load_prepared_of_fits {image : List Byte}
    (h : Processor.programStart + image.length ≤ Memory.defaultSize) (font : Bool) :
    ∃ m, load image Processor.programStart (prepared font) = .ok () m :=
  ⟨_, load_prepared_of_fit ⟨by decide, h⟩ font⟩

theorem load_prepared_of_too_large {image : List Byte}
    (h : Memory.defaultSize < Processor.programStart + image.length) (font : Bool) :
    load image Processor.programStart (prepared font) =
      .error (.imageTooLarge image.length Processor.programStart Memory.defaultSize) (prepared font) := by
  rw [load_prepared_of_misfit (fun hfit => absurd hfit.2 (Int.not_le.mpr h)), misfit, if_pos h]

theorem loadFont_new : loadFont (new {}) = .ok () (prepared true) :=
  loadFont_of_size (by rw [size_new]; omega)

end Machine

namespace Run

theorem load_eq (image : List Byte) (o : Options) :
    load image o =
      (if o.loadFont then Machine.loadFont else pure ()) >>= fun _ =>
      Machine.load image o.start >>= fun _ =>
      o.initialMemory.entries.forM fun entry =>
        Machine.onBoard (Board.onMemory (Memory.write entry.1 (UInt8.ofInt entry.2))) := by
  unfold load
  cases o.loadFont <;> rfl

theorem load_keeps (image : List Byte) (o : Options) : Keeps Machine.withoutMemory (load image o) := by
  rw [load_eq]
  refine Keeps.bind ?_ fun _ => Keeps.bind (Machine.keeps_load image o.start) fun _ => ?_
  · split
    · exact Machine.keeps_onMemory _
    · exact Keeps.pure _
  · exact Keeps.forM (fun _ => Machine.keeps_onMemory _) _

/-! ## Single values -/

/-- Writes a value at its address. -/
def writeEntry (entry : Int × Int) : EStateM Fault Machine Unit :=
  Machine.onBoard (Board.onMemory (Memory.write entry.1 (UInt8.ofInt entry.2)))

variable {m : Machine} {entry : Int × Int}

theorem writeEntry_of_inside (h : m.board.memory.Covers entry.1 1) :
    writeEntry entry m =
      .ok () { m with board.memory := m.board.memory.put entry.1 (UInt8.ofInt entry.2) } := by
  rw [writeEntry, Machine.onMemory_eq, Memory.write, if_pos h]

theorem writeEntry_of_outside (h : ¬ m.board.memory.Covers entry.1 1) :
    writeEntry entry m = .error (.outsideMemory entry.1 1) m := by
  rw [writeEntry, Machine.onMemory_eq, Memory.write, if_neg h]

theorem covers_of_put {addr a : Int} {value : Byte} {memory : Memory} (h : memory.Covers addr 1) :
    (memory.put a value).Covers addr 1 := ⟨h.1, by rw [Memory.size_put]; exact h.2⟩

theorem writeEntry_of_all_inside {values : Table Int Int}
    (h : ∀ entry ∈ values.entries, m.board.memory.Covers entry.1 1) :
    values.entries.forM writeEntry m =
      .ok () { m with board.memory := m.board.memory.preset values } := by
  obtain ⟨entries, nodup⟩ := values
  induction entries generalizing m with
  | nil => rfl
  | cons entry rest ih =>
      have hfirst := h entry List.mem_cons_self
      show (writeEntry entry >>= fun _ => rest.forM writeEntry) m = _
      rw [bind_of_ok (writeEntry_of_inside hfirst), Memory.preset_cons, if_pos hfirst]
      refine ih (List.nodup_cons.mp nodup).2 fun later hl => covers_of_put ?_
      exact h later (List.mem_cons_of_mem _ hl)

theorem writeEntry_of_first_outside {before after : List (Int × Int)}
    (hbefore : ∀ entry ∈ before, m.board.memory.Covers entry.1 1)
    (h : ¬ m.board.memory.Covers entry.1 1) :
    ∃ m', (before ++ entry :: after).forM writeEntry m = .error (.outsideMemory entry.1 1) m' := by
  induction before generalizing m with
  | nil =>
      refine ⟨m, ?_⟩
      show (writeEntry entry >>= fun _ => after.forM writeEntry) m = _
      rw [bind_of_error (writeEntry_of_outside h)]
  | cons first rest ih =>
      have hfirst := hbefore first List.mem_cons_self
      show ∃ m', (writeEntry first >>= fun _ => (rest ++ entry :: after).forM writeEntry) m = _
      rw [bind_of_ok (writeEntry_of_inside hfirst)]
      refine ih (fun later hl => covers_of_put (hbefore later (List.mem_cons_of_mem _ hl))) ?_
      intro hc
      exact h ⟨hc.1, by simpa using hc.2⟩

theorem writeEntry_keeps_size (entry : Int × Int) : Keeps (fun m => m.board.memory.size) (writeEntry entry) := by
  intro m
  by_cases hc : m.board.memory.Covers entry.1 1
  · rw [writeEntry_of_inside hc]
    exact Memory.size_put _ _ _
  · rw [writeEntry_of_outside hc]
    rfl

theorem writeEntry_obeys_cell {addr : Int} {c : Byte} (h : 0 ≤ addr) (hne : entry.1 ≠ addr) :
    Obeys (fun m => m.board.memory.cell addr = c) (fun _ => True) (writeEntry entry) := by
  intro m hm
  by_cases hc : m.board.memory.Covers entry.1 1
  · rw [writeEntry_of_inside hc]
    simpa [Memory.cell_put hc _ h, Ne.symm hne] using hm
  · rw [writeEntry_of_outside hc]
    exact ⟨hm, trivial⟩

/-- A byte that no value is for stays as it is, also if a value is refused. -/
theorem cell_of_unnamed {entries : List (Int × Int)} {addr : Int} (h : 0 ≤ addr)
    (hnone : addr ∉ entries.map Prod.fst) (m : Machine) :
    (stateOf (entries.forM writeEntry m)).board.memory.cell addr = m.board.memory.cell addr := by
  have hkept : Obeys (fun m' => m'.board.memory.cell addr = m.board.memory.cell addr) (fun _ => True)
      (entries.forM writeEntry) := by
    refine Obeys.forM entries fun entry hentry => writeEntry_obeys_cell h ?_
    rintro rfl
    exact hnone (List.mem_map_of_mem hentry)
  exact hkept.preserves m rfl

/-- A value stays at its address once it is written, also if a later one is refused. -/
theorem cell_of_reached {values : Table Int Int} {first rest : List (Int × Int)} {addr value : Int}
    (he : values.entries = first ++ rest) (hfirst : ∀ entry ∈ first, m.board.memory.Covers entry.1 1)
    (haddr : addr ∈ first.map Prod.fst) (hvalue : values.get? addr = some value) :
    (stateOf (values.entries.forM writeEntry m)).board.memory.cell addr = UInt8.ofInt value := by
  obtain ⟨entries, nodup⟩ := values
  obtain rfl : entries = first ++ rest := he
  have hparts := nodup
  rw [List.map_append, List.nodup_append] at hparts
  obtain ⟨hnodup, -, hdisjoint⟩ := hparts
  rw [Table.get?_append nodup hnodup haddr] at hvalue
  have hcovers : m.board.memory.Covers addr 1 := by
    obtain ⟨entry, hentry, rfl⟩ := List.mem_map.mp haddr
    exact hfirst entry hentry
  have hsplit : (first ++ rest).forM writeEntry = first.forM writeEntry >>= fun _ => rest.forM writeEntry :=
    List.forM_append
  have hok := @writeEntry_of_all_inside m ⟨first, hnodup⟩ hfirst
  have hlater : addr ∉ rest.map Prod.fst := fun hrest => hdisjoint addr haddr addr hrest rfl
  rw [hsplit, bind_of_ok hok, cell_of_unnamed hcovers.1 hlater, Memory.cell_preset _ hcovers, hvalue]
  rfl

/-- With these options alone, a run loads into a machine that is prepared as a console prepares one. -/
theorem load_plain (image : List Byte) (maxSteps : Int) (font stopOnSelfJump : Bool) :
    load image { maxSteps, loadFont := font, stopOnSelfJump } (.new {}) =
      Machine.load image Processor.programStart (.prepared font) := by
  have hf : (if font then Machine.loadFont else pure ()) (Machine.new {}) = .ok () (.prepared font) := by
    cases font with
    | false => rw [if_neg Bool.false_ne_true, Machine.prepared_false]; rfl
    | true => rw [if_pos rfl, Machine.loadFont_new]
  rw [load_eq, bind_of_ok hf]
  show (Machine.load image Processor.programStart >>= fun _ => pure ()) (.prepared font) = _
  cases hl : Machine.load image Processor.programStart (.prepared font) with
  | ok _ m => rw [bind_of_ok hl]; rfl
  | error fault m => rw [bind_of_error hl]

end Run
end ChipEight
