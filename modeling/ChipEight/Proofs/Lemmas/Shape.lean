import ChipEight.Proofs.Lemmas.Step

/-!
# Sizes

Whatever steps do, memory keeps its size and the display its width and height, and a machine goes on to start
at the same address.
-/

namespace ChipEight

open Effect

/-! ## Memory -/

namespace Memory

theorem write_keeps_size (addr : Int) (value : Byte) : Keeps size (write addr value) := by
  intro m
  unfold write
  split
  · exact size_put addr value m
  · rfl

theorem writeRange_keeps_size (addr : Int) (data : List Byte) : Keeps size (writeRange addr data) := by
  intro m
  unfold writeRange
  split
  · exact size_putAll data addr m
  · rfl

theorem Step.perform_keeps_size (step : Step) : Keeps Memory.size step.perform := by
  cases step with
  | readByte | readWord | readBytes => exact fun m => by rw [perform, stateOf_ask]
  | writeByte addr value => exact (write_keeps_size addr _).bind fun _ => Keeps.pure _
  | writeBytes addr values => exact (writeRange_keeps_size addr _).bind fun _ => Keeps.pure _
  | erase => exact fun m => size_zeroed m.size
  | snapshot | size => exact fun _ => rfl

end Memory

/-! ## The display -/

namespace Display

def extent (d : Display) : Int × Int := (d.width, d.height)

theorem set_keeps_extent (x y : Int) (on : Bool) : Keeps extent (set x y on) := by
  intro d
  unfold set
  split <;> rfl

mutual
theorem Step.perform_keeps_extent : (step : Step) → Keeps extent step.perform
  | .clear => fun _ => rfl
  | .getPixel x y => fun d => by rw [perform, stateOf_ask]
  | .setPixel x y on => (set_keeps_extent x y on).bind fun _ => Keeps.pure _
  | .lit => fun _ => rfl
  | .render on off => fun _ => rfl
  | .snapshot => fun _ => rfl
  | .batch steps => by
      rw [perform]
      exact (Step.performAll_keeps_extent steps).bind fun _ => Keeps.pure _

theorem Step.performAll_keeps_extent : (steps : List Step) → Keeps extent (performAll steps)
  | [] => Keeps.pure _
  | step :: steps => by
      rw [performAll]
      exact (Step.perform_keeps_extent step).bind fun _ =>
        (Step.performAll_keeps_extent steps).bind fun _ => Keeps.pure _
end

end Display

/-! ## Boards and machines -/

def Board.shape (b : Board) : Nat × Int × Int := (b.memory.size, b.display.extent)

theorem Board.execute_keeps_shape (i : Instruction) : Keeps shape (execute i) := by
  refine keeps_iff.mpr fun c => execute_preserves i fun part _ => ?_
  cases part with
  | register | index | stack => exact fun _ _ hb => hb
  | memory =>
      intro b addr value hb
      rwa [shape, Memory.size_put]
  | display => exact ⟨fun _ hb => hb, fun _ _ _ _ _ hb => hb⟩

namespace Machine

/-- The sizes of memory and display, and the address where the machine starts. -/
def shape (m : Machine) : (Nat × Int × Int) × Int := (m.board.shape, m.start)

theorem shape_next (m : Machine) : m.next.shape = m.shape := by
  have hboard : m.next.board.shape = m.board.shape :=
    board_next (fun i => keeps_iff.mp (Board.execute_keeps_shape i) _) (fun _ _ hb => hb) rfl
  exact congrArg₂ Prod.mk hboard (start_next m)

theorem shape_advance (n : Nat) (m : Machine) : (m.advance n).shape = m.shape := by
  induction n with
  | zero => rfl
  | succ n ih => rw [advance_succ', shape_next, ih]

theorem shape_of_size {m : Machine} {memory : Memory} (h : memory.size = m.board.memory.size) :
    shape { m with board.memory := memory } = m.shape :=
  congrArg (fun size => ((size, m.board.display.extent), m.start)) h

theorem Step.perform_keeps_shape (step : Step) : Keeps shape step.perform := by
  intro m
  generalize hs : stateOf (step.perform m) = m'
  cases hs ▸ stepped step m with
  | memory step => exact shape_of_size (Memory.Step.perform_keeps_size step _)
  | display step =>
      have hextent := Display.Step.perform_keeps_extent step m.board.display
      exact congrArg (fun extent => ((m.board.memory.size, extent), m.start)) hextent
  | loadFont => exact shape_of_size (Memory.writeRange_keeps_size Font.start Font.bytes _)
  | load image offset => exact shape_of_size (Memory.writeRange_keeps_size offset image _)
  | cycle => exact shape_next m
  | execute word =>
      exact congrArg (fun shape => (shape, m.start)) (Board.execute_keeps_shape (.ofInt word) m.board)
  | processor | reset | last | diagnostics => rfl

end Machine
end ChipEight
