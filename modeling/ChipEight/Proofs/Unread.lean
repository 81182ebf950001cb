import ChipEight.Proofs.Lemmas.Block
import ChipEight.Proofs.Lemmas.Loaded
import ChipEight.Proofs.Lemmas.Parallel
import ChipEight.Proofs.Lemmas.Sizes
import ChipEight.Proofs.Lemmas.Sprite

/-!
# Memory that is not read

A cycle reads the two bytes that it fetches, and those that its instruction draws or loads into registers
(`Board.reads`). A byte that no cycle of a run reads makes no difference to the run, also if it is written to.
-/

namespace ChipEight

open Effect

/-! ## Memories that differ in one byte -/

/-- Memories of one size that are equal but for the byte at `a`. -/
structure Memory.SameBut (a : Int) (m m' : Memory) : Prop where
  size : m'.size = m.size
  cell : ∀ addr, 0 ≤ addr → addr ≠ a → m'.cell addr = m.cell addr

namespace Memory.SameBut

variable {m m' : Memory} {a addr : Int}

/-- Both memories take the same byte, or the byte at `a` is put and anything may be put there. -/
theorem put (h : m.SameBut a m') (hc : m.Covers addr 1) {value value' : Byte} (hv : addr ≠ a → value' = value) :
    (m.put addr value).SameBut a (m'.put addr value') where
  size := by rw [size_put, size_put, h.size]
  cell x hx hne := by
    rw [cell_put ((covers_congr h.size addr 1).mpr hc) value' hx, cell_put hc value hx, h.cell x hx hne]
    split
    · rename_i heq
      exact hv (heq ▸ hne)
    · rfl

theorem putAll {data : List Byte} (h : m.SameBut a m') (hc : m.Covers addr data.length) :
    (m.putAll addr data).SameBut a (m'.putAll addr data) where
  size := by rw [size_putAll, size_putAll, h.size]
  cell x hx hne := by rw [cell_putAll ((covers_congr h.size _ _).mpr hc) hx, cell_putAll hc hx, h.cell x hx hne]

theorem fetch (h : m.SameBut a m') (hhigh : a ≠ addr) (hlow : a ≠ addr + 1) : m'.fetch addr = m.fetch addr := by
  by_cases hc : m.Covers addr 2
  · have haddr := hc.1
    rw [fetch_of_covers hc, fetch_of_covers ((covers_congr h.size addr 2).mpr hc), h.cell addr haddr hhigh.symm,
      h.cell (addr + 1) (by omega) hlow.symm]
  · rw [fetch_of_not_covers hc, fetch_of_not_covers (mt (covers_congr h.size addr 2).mp hc)]

end Memory.SameBut

/-! ## What instructions read -/

namespace Board

/-- Boards that are equal but for the byte at `a`. -/
structure SameBut (a : Int) (b b' : Board) : Prop where
  processor : b'.processor = b.processor
  memory : b.memory.SameBut a b'.memory
  display : b'.display = b.display

theorem parallel_sameBut (a : Int) : Parallel (SameBut a) where
  processor h := h.processor
  size h := h.memory.size
  compute _ h := ⟨rfl, h.memory, h.display⟩
  write _ _ h hc := ⟨h.processor, h.memory.put hc fun _ => rfl, h.display⟩
  clear h := ⟨h.processor, h.memory, congrArg Display.clear h.display⟩

/-- The addresses that an instruction reads before it ends, in their order. An address is looked at also if it is
outside memory. -/
def reads (i : Instruction) (b : Board) : List Int :=
  match i.operation with
  | .draw vx vy rows =>
    (starts (drawRow (b.processor.v.get vx).toNat (b.processor.v.get vy).toNat) (List.range rows) b.lowered).map
      fun start => start.2.processor.i + start.1
  | .loadRegisters x =>
    (starts loadRegister (registersTo x) b).map fun start => start.2.processor.i
  | _ => []

variable {a addr : Int} {b b' : Board} {i : Instruction}

theorem SameBut.lowered (h : b.SameBut a b') : b.lowered.SameBut a b'.lowered :=
  ⟨congrArg (Processor.setV Processor.flagRegister 0) h.processor, h.memory, h.display⟩

theorem readByte_alike (h : b.SameBut a b') (hne : addr ≠ a) :
    Alike (SameBut a) (readByte addr b) (readByte addr b') := by
  have hcovers := Memory.covers_congr h.memory.size addr 1
  by_cases hc : b.memory.Covers addr 1
  · simp only [readByte, ask, Memory.read, hc, hcovers.mpr hc, if_true, h.memory.cell addr hc.1 hne]
    exact .ok _ h
  · simp only [readByte, ask, Memory.read, hc, mt hcovers.mp hc, if_false]
    exact .error _ h

theorem getPixel_agree (x y : Int) : Agree (SameBut a) (getPixel x y) (getPixel x y) := by
  intro b b' h
  simp only [getPixel, ask, h.display]
  cases b.display.get x y with
  | ok on => exact .ok on h
  | error fault => exact .error fault h

theorem setPixel_agree (x y : Int) (on : Bool) : Agree (SameBut a) (setPixel x y on) (setPixel x y on) := by
  intro b b' h
  simp only [setPixel, onDisplay, h.display]
  cases Display.set x y on b.display with
  | ok _ display => exact .ok _ ⟨h.processor, h.memory, rfl⟩
  | error fault display => exact .error fault ⟨h.processor, h.memory, rfl⟩

theorem drawByte_agree (x y : Int) (sprite : Byte) :
    Agree (SameBut a) (drawByte x y sprite) (drawByte x y sprite) := by
  refine Agree.forM _ fun column _ => ?_
  split
  · refine (getPixel_agree _ y).bind fun wasOn => ?_
    cases wasOn with
    | true => exact (setV_agree (parallel_sameBut a) _ _).bind fun _ => setPixel_agree _ y _
    | false => exact (Agree.pure _).bind fun _ => setPixel_agree _ y _
  · exact Agree.pure _

theorem drawRow_alike (h : b.SameBut a b') (x y : Int) (row : Nat) (hne : b.processor.i + row ≠ a) :
    Alike (SameBut a) (drawRow x y row b) (drawRow x y row b') := by
  refine (getI_agree (parallel_sameBut a) b b' h).bind fun index _ _ hi hR => ?_
  cases hi
  exact (readByte_alike hR hne).bind fun sprite _ _ _ hR' => drawByte_agree x (y + row) sprite _ _ hR'

theorem loadRegister_alike (h : b.SameBut a b') (r : Register) (hne : b.processor.i ≠ a) :
    Alike (SameBut a) (loadRegister r b) (loadRegister r b') := by
  have hparallel := parallel_sameBut a
  refine (getI_agree hparallel b b' h).bind fun index _ _ hi hR => ?_
  cases hi
  refine (readByte_alike hR hne).bind fun value s t _ hR' => ?_
  refine ((setV_agree hparallel r value).bind fun _ => ?_) s t hR'
  exact (getI_agree hparallel).bind fun _ => setI_agree hparallel _

/-- An instruction that does not read the byte ends alike whatever the byte is. -/
theorem execute_alike_of_unread (h : b.SameBut a b') (hunread : a ∉ reads i b) :
    Alike (SameBut a) (execute i b) (execute i b') := by
  refine execute_alike (parallel_sameBut a) h (fun vx vy rows ho => ?_) fun x ho => ?_
  · rw [reads, ho] at hunread
    rw [draw_eq, draw_eq, h.processor]
    refine Alike.forM h.lowered fun start hmem t hR => ?_
    exact drawRow_alike hR _ _ _ fun heq => hunread (List.mem_map.mpr ⟨start, hmem, heq⟩)
  · rw [reads, ho] at hunread
    rw [loadRegisters_eq]
    refine Alike.forM h fun start hmem t hR => ?_
    exact loadRegister_alike hR _ fun heq => hunread (List.mem_map.mpr ⟨start, hmem, heq⟩)

end Board

/-! ## Cycles -/

namespace Machine

/-- The next cycle reads the byte at `a`: it fetches it, or its instruction reads it. -/
def LooksAt (a : Int) (m : Machine) : Prop :=
  a = m.pc ∨ a = m.pc + 1 ∨ ∃ i, m.board.memory.fetch m.pc = .ok i ∧ a ∈ Board.reads i m.board

instance (a : Int) (m : Machine) : Decidable (m.LooksAt a) := inferInstanceAs (Decidable (_ ∨ _ ∨ ∃ _, _ ∧ _))

theorem cycle_alike_of_unread {a : Int} {m m' : Machine} (h : ¬ m.LooksAt a)
    (hm : OnBoards (Board.SameBut a) m m') : Alike (OnBoards (Board.SameBut a)) (cycle m) (cycle m') := by
  rw [LooksAt, not_or, not_or] at h
  obtain ⟨hhigh, hlow, hreads⟩ := h
  refine cycle_alike (Board.parallel_sameBut a) hm (hm.boards.memory.fetch hhigh hlow) fun i hf => ?_
  exact Board.execute_alike_of_unread hm.boards fun hmem => hreads ⟨i, hf, hmem⟩

end Machine

/-! ## Loading -/

namespace Run

open Machine (OnBoards)

variable {a : Int} {o : Options}

theorem onMemory_agree {act act' : EStateM Fault Memory Unit} (h : Agree (Memory.SameBut a) act act') :
    Agree (OnBoards (Board.SameBut a)) (Machine.onBoard (Board.onMemory act))
      (Machine.onBoard (Board.onMemory act')) := by
  intro m m' hm
  have halike := h _ _ hm.boards.memory
  rw [Machine.onMemory_eq, Machine.onMemory_eq]
  generalize act m.board.memory = r at halike
  generalize act' m'.board.memory = r' at halike
  have hrest : ∀ memory, { m' with board.memory := memory } =
      { m with board := { m'.board with memory := memory } } := fun memory => by rw [hm.rest]
  cases halike with
  | ok _ hR => exact .ok _ ⟨⟨hm.boards.processor, hR, hm.boards.display⟩, hrest _⟩
  | error fault hR => exact .error fault ⟨⟨hm.boards.processor, hR, hm.boards.display⟩, hrest _⟩

/-- An access to a range of memory, which is refused outside it. -/
theorem access_agree {addr length : Int} {f f' : Memory → Memory}
    (hf : ∀ m m', m.SameBut a m' → m.Covers addr length → (f m).SameBut a (f' m')) :
    Agree (Memory.SameBut a)
      (fun m => if m.Covers addr length then .ok () (f m) else .error (Fault.outsideMemory addr length) m)
      (fun m => if m.Covers addr length then .ok () (f' m) else .error (Fault.outsideMemory addr length) m) := by
  intro m m' h
  have hcovers := Memory.covers_congr h.size addr length
  by_cases hc : m.Covers addr length
  · simp only [if_pos hc, if_pos (hcovers.mpr hc)]
    exact .ok () (hf m m' h hc)
  · simp only [if_neg hc, if_neg (mt hcovers.mp hc)]
    exact .error _ h

theorem write_agree {addr : Int} {value value' : Byte} (hv : addr ≠ a → value' = value) :
    Agree (Memory.SameBut a) (Memory.write addr value) (Memory.write addr value') :=
  access_agree fun _ _ h hc => h.put hc hv

theorem writeRange_agree (addr : Int) (data : List Byte) :
    Agree (Memory.SameBut a) (Memory.writeRange addr data) (Memory.writeRange addr data) :=
  access_agree fun _ _ h hc => h.putAll hc

theorem loadImage_agree (image : List Byte) (offset : Int) :
    Agree (OnBoards (Board.SameBut a)) (Machine.load image offset) (Machine.load image offset) := by
  intro m m' hm
  rw [Machine.load, get_bind, get_bind, hm.boards.memory.size]
  split
  · exact .error _ hm
  · exact onMemory_agree (writeRange_agree offset image) m m' hm

/-- Two tables that differ in the value at `a` only. -/
theorem writeEntries_agree (value value' : Int) (entries : List (Int × Int)) :
    Agree (OnBoards (Board.SameBut a)) ((Table.putEntry a value entries).forM writeEntry)
      ((Table.putEntry a value' entries).forM writeEntry) := by
  have hfirst : Agree (OnBoards (Board.SameBut a)) (writeEntry (a, value)) (writeEntry (a, value')) :=
    onMemory_agree (write_agree fun hne => absurd rfl hne)
  have hother : ∀ entry, Agree (OnBoards (Board.SameBut a)) (writeEntry entry) (writeEntry entry) :=
    fun _ => onMemory_agree (write_agree fun _ => rfl)
  induction entries with
  | nil => exact hfirst.bind fun _ => Agree.pure _
  | cons entry rest ih =>
      rw [Table.putEntry, Table.putEntry]
      split
      · exact hfirst.bind fun _ => Agree.forM rest fun entry _ => hother entry
      · exact (hother entry).bind fun _ => ih

/-- The options with a single value, in place of the one that they may have for its address. -/
def Options.withValue (o : Options) (addr value : Int) : Options :=
  { o with initialMemory := o.initialMemory.put addr value }

theorem load_agree (image : List Byte) (o : Options) (value value' : Int) :
    Agree (OnBoards (Board.SameBut a)) (load image (o.withValue a value)) (load image (o.withValue a value')) := by
  rw [load_eq, load_eq]
  refine Agree.bind ?font fun _ => (loadImage_agree image o.start).bind fun _ => ?values
  case font =>
    change Agree _ (if o.loadFont then _ else _) (if o.loadFont then _ else _)
    split
    · exact onMemory_agree (writeRange_agree Font.start Font.bytes)
    · exact Agree.pure _
  case values => exact writeEntries_agree value value' o.initialMemory.entries

/-! ## Runs -/

theorem Result.eq_of_onBoards {r r' : Result} (h : r.OnBoards (Board.SameBut a) r') :
    r' = { r with final.board.memory := r'.final.board.memory } := by
  have hboard : r'.final.board = { r.final.board with memory := r'.final.board.memory } := by
    show r'.final.board = ⟨r.final.board.processor, r'.final.board.memory, r.final.board.display⟩
    rw [← h.final.boards.processor, ← h.final.boards.display]
  have hfinal := h.final.rest
  rw [hboard] at hfinal
  rw [h.rest, hfinal]

/-- A byte of memory that no cycle reads has no influence on a run, though it may be written to: with another
value there the run comes to the same, but for the memory that it leaves. -/
theorem run_ignores_unread {image : List Byte} {value value' : Int} {room : Room} {r : Result}
    (hr : run image (o.withValue a value) room = .ok r)
    (hunread : ∀ m, load image (o.withValue a value) (.new o.toConfig) = .ok () m →
      ∀ k < r.steps, ¬ (m.advance k).LooksAt a) :
    ∃ r', run image (o.withValue a value') room = .ok r' ∧
      r' = { r with final.board.memory := r'.final.board.memory } := by
  obtain ⟨⟨hcheck, htold⟩, rfl⟩ := run_eq_ok.mp hr
  suffices h : (result image (o.withValue a value)).OnBoards (Board.SameBut a) (result image (o.withValue a value')) by
    have hfault : (result image (o.withValue a value')).fault = (result image (o.withValue a value)).fault := by
      rw [h.rest]
    exact ⟨_, run_eq_ok.mpr ⟨⟨hcheck, hfault.trans_ne htold⟩, rfl⟩, Result.eq_of_onBoards h⟩
  have hnew : OnBoards (Board.SameBut a) (Machine.new o.toConfig) (.new o.toConfig) :=
    ⟨⟨rfl, ⟨rfl, fun _ _ _ => rfl⟩, rfl⟩, rfl⟩
  have halike := load_agree image o value value' _ _ hnew
  generalize hl : load image (o.withValue a value) (.new o.toConfig) = l at halike
  generalize hl' : load image (o.withValue a value') (.new o.toConfig) = l' at halike
  cases halike with
  | error fault hm =>
      rw [result_of_refused hl, result_of_refused hl']
      exact ⟨hm, rfl⟩
  | @ok _ m m' hm =>
      have hnone := hunread m hl
      rw [result_of_loaded hl, Options.withValue, loop_initialMemory (o.initialMemory.put a value)] at hnone ⊢
      rw [result_of_loaded hl', Options.withValue, loop_initialMemory (o.initialMemory.put a value')]
      refine loop_onBoards (Board.parallel_sameBut a) (fun _ _ => Machine.cycle_alike_of_unread) hm fun k hk => ?_
      rw [cycles_of_loaded hl, Nat.zero_add] at hk
      exact hnone k hk

/-- A byte that is stored over, next to one that is loaded. -/
theorem run_ignores_stored_byte :
    ∃ (o : Options) (r r' : Result),
      run [0xA0, 0x0A, 0xF0, 0x55, 0xF0, 0x65, 0x10, 0x06] (o.withValue 10 1) = .ok r ∧
      r.steps = 4 ∧ r.halted = true ∧
      run [0xA0, 0x0A, 0xF0, 0x55, 0xF0, 0x65, 0x10, 0x06] (o.withValue 10 2) = .ok r' ∧
      r' = { r with final.board.memory := r'.final.board.memory } := by
  let image : List Byte := [0xA0, 0x0A, 0xF0, 0x55, 0xF0, 0x65, 0x10, 0x06]
  let o : Options := { memorySize := 12, start := 0, loadFont := false }
  let o₁ : Options := o.withValue 10 1
  have hr : run image o₁ = .ok (result image o₁) :=
    run_eq_ok.mpr ⟨⟨Machine.Config.check_of_usual_display (by decide) rfl rfl, by decide +kernel⟩, rfl⟩
  have hsteps : (result image o₁).steps = 4 := by decide +kernel
  have hquiet : ∀ k < 4, ¬ ((loaded image o₁).advance k).LooksAt 10 := by decide +kernel
  have hunread : ∀ m, load image o₁ (.new o.toConfig) = .ok () m →
      ∀ k < (result image o₁).steps, ¬ (m.advance k).LooksAt 10 := by
    intro m hl
    obtain ⟨-, rfl⟩ := fit_of_load (by decide) hl
    rw [hsteps]
    exact hquiet
  obtain ⟨r', hr', heq⟩ := run_ignores_unread hr hunread
  exact ⟨o, _, r', hr, hsteps, by decide +kernel, hr', heq⟩

end Run
end ChipEight
