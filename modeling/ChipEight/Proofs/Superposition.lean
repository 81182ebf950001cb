import ChipEight.Proofs.Lemmas.Sprite

/-!
# Draws on top of one another

The pixels that a draw flips, and the fault that it ends with, depend on memory and on the size of the display, but not
on what is on the display. So the order of draws makes no difference, and what is drawn twice is gone.
-/

namespace ChipEight

open Effect

/-- A sprite and its place: the coordinates, the index of its bytes and the number of its rows. -/
structure Placement where
  x : Byte
  y : Byte
  index : Int
  rows : Fin 16

namespace Placement

variable {d : Placement} {b b' : Board}

/-- Draws at registers 0 and 1. -/
def instruction (d : Placement) : Instruction := .ofInt (0xD010 + d.rows)

/-- Sets the registers that the instruction names to the coordinates, sets the index, and draws. -/
def perform (d : Placement) : EStateM Fault Board (Option Int) := do
  Board.setV d.instruction.x d.x
  Board.setV d.instruction.y d.y
  Board.setI d.index
  Board.execute d.instruction

/-- The board that is about to draw. -/
def placed (d : Placement) (b : Board) : Board :=
  { b with processor := ((b.processor.setV d.instruction.x d.x).setV d.instruction.y d.y).setI d.index }

theorem perform_eq (d : Placement) (b : Board) : d.perform b = Board.execute d.instruction (d.placed b) := rfl

theorem operands (d : Placement) : d.instruction.family = 0xD ∧ d.instruction.x = 0 ∧ d.instruction.y = 1 := by
  have hall : ∀ rows : Fin 16, (Instruction.ofInt (0xD010 + rows)).family = 0xD ∧
      (Instruction.ofInt (0xD010 + rows)).x = 0 ∧ (Instruction.ofInt (0xD010 + rows)).y = 1 := by decide
  exact hall d.rows

/-! ## One draw -/

/-- The points at which a draw flips pixels, up to its fault if it has one. -/
def footprint (d : Placement) (b : Board) : List Point := Board.reached d.instruction (d.placed b)

theorem display_perform (d : Placement) (b : Board) :
    (stateOf (d.perform b)).display = b.display.flipAll (d.footprint b) := by
  rw [perform_eq, Board.stateOf_draw d.operands.1, Board.display_flipAll]
  rfl

theorem memory_perform (d : Placement) (b : Board) : (stateOf (d.perform b)).memory = b.memory := by
  rw [perform_eq, Board.stateOf_draw d.operands.1, Board.memory_flipAll]
  rfl

theorem coordinates_placed (d : Placement) (b : Board) :
    (d.placed b).processor.v.get d.instruction.x = d.x ∧ (d.placed b).processor.v.get d.instruction.y = d.y := by
  have hne : d.instruction.y ≠ d.instruction.x := by
    obtain ⟨-, hx, hy⟩ := d.operands
    rw [hx, hy]
    decide
  let p := b.processor.setV d.instruction.x d.x
  constructor
  · show (p.setV d.instruction.y d.y).v.get d.instruction.x = d.x
    rw [Processor.get_setV, if_neg hne, Processor.get_setV, if_pos rfl]
  · show (p.setV d.instruction.y d.y).v.get d.instruction.y = d.y
    rw [Processor.get_setV, if_pos rfl]

theorem scan_placed (hmemory : b'.memory = b.memory) :
    Board.scan d.instruction (d.placed b') = Board.scan d.instruction (d.placed b) := by
  obtain ⟨hx, hy⟩ := d.coordinates_placed b
  obtain ⟨hx', hy'⟩ := d.coordinates_placed b'
  exact Board.scan_congr rfl hmemory rfl (hx'.trans hx.symm) (hy'.trans hy.symm)

theorem fault?_placed (hmemory : b'.memory = b.memory) (hextent : b'.display.extent = b.display.extent) :
    Board.Access.fault? (d.placed b') = Board.Access.fault? (d.placed b) :=
  funext (Board.Access.fault?_congr hmemory hextent)

theorem footprint_congr (hmemory : b'.memory = b.memory) (hextent : b'.display.extent = b.display.extent) :
    d.footprint b' = d.footprint b := by
  exact Board.reached_congr (scan_placed hmemory) hmemory hextent

theorem outcome_congr (hmemory : b'.memory = b.memory) (hextent : b'.display.extent = b.display.extent) :
    outcomeOf (d.perform b') = outcomeOf (d.perform b) := by
  rw [perform_eq, perform_eq, Board.outcomeOf_draw d.operands.1, Board.outcomeOf_draw d.operands.1,
    scan_placed hmemory, fault?_placed hmemory hextent]

/-! ## Many draws -/

theorem attempts_perform (ds : List Placement) (hmemory : b'.memory = b.memory)
    (hextent : b'.display.extent = b.display.extent) :
    (attempts perform ds b').1 = ds.map (fun d => outcomeOf (d.perform b)) ∧
      (attempts perform ds b').2.display = b'.display.flipAll (ds.flatMap fun d => d.footprint b) := by
  induction ds generalizing b' with
  | nil => exact ⟨rfl, rfl⟩
  | cons d ds ih =>
      have hdisplay := display_perform d b'
      have hmemory' : (stateOf (d.perform b')).memory = b.memory := (memory_perform d b').trans hmemory
      have hextent' : (stateOf (d.perform b')).display.extent = b.display.extent := by
        rw [hdisplay, Display.extent_flipAll, hextent]
      -- the draw before has changed pixels only, so those after it flip what they would have flipped at first
      have hrest := ih hmemory' hextent'
      constructor
      · show outcomeOf (d.perform b') :: _ = _
        rw [outcome_congr hmemory hextent, hrest.1]
        rfl
      · show (attempts perform ds (stateOf (d.perform b'))).2.display = _
        rw [hrest.2, hdisplay, footprint_congr hmemory hextent, List.flatMap_cons, Display.flipAll_append]

/-- Draws leave the same display in every order. How each of them ends depends neither on those before it nor on what
is on the display. When all of them were made twice, in any order, the display is as it was. -/
theorem draws_commute_and_cancel (ds : List Placement) (b : Board) :
    (∀ ds', ds'.Perm ds → (attempts perform ds' b).2.display = (attempts perform ds b).2.display) ∧
    (∀ b', b'.memory = b.memory → b'.display.extent = b.display.extent →
      (attempts perform ds b).1 = ds.map fun d => outcomeOf (d.perform b')) ∧
    ∀ ds', ds'.Perm (ds ++ ds) → (attempts perform ds' b).2.display = b.display := by
  have hdisplay : ∀ ds, (attempts perform ds b).2.display = b.display.flipAll (ds.flatMap fun d => d.footprint b) :=
    fun ds => (attempts_perform ds rfl rfl).2
  refine ⟨fun ds' hperm => ?_, fun b' hmemory hextent => ?_, fun ds' hperm => ?_⟩
  · rw [hdisplay, hdisplay, Display.flipAll_perm (hperm.flatMap_right _)]
  · exact (attempts_perform ds hmemory.symm hextent.symm).1
  · rw [hdisplay, Display.flipAll_perm (hperm.flatMap_right _), List.flatMap_append, Display.flipAll_twice]

/-- A draw that succeeds, one that fails at the right edge and one that fails at the end of memory. -/
theorem draws_cancel_backwards :
    ∃ (ds : List Placement) (b : Board),
      (attempts perform ds b).1 = [.ok none, .error (.outsideDisplay 8 0 8 2), .error (.outsideMemory 3 1)] ∧
      (attempts perform ds b).2.display.lit = 12 ∧
      (attempts perform ds.reverse b).2.display = (attempts perform ds b).2.display ∧
      (attempts perform ds b).1 = ds.map (fun d => outcomeOf (d.perform { b with display := b.display.clear })) ∧
      (attempts perform (ds ++ ds.reverse) b).2.display = b.display := by
  let ds : List Placement := [⟨0, 0, 0, 2⟩, ⟨5, 0, 0, 3⟩, ⟨0, 0, 1, 3⟩]
  let b : Board :=
    { processor := Processor.fresh 0x200 none
      memory := ⟨#[0xF0, 0x90, 0xFF]⟩
      display := (Display.blank 8 2).flip (0, 0) }
  have houtcomes : (attempts perform ds b).1 =
      [.ok none, .error (.outsideDisplay 8 0 8 2), .error (.outsideMemory 3 1)] := by decide +kernel
  obtain ⟨hcommute, hends, hcancel⟩ := draws_commute_and_cancel ds b
  exact ⟨ds, b, houtcomes, by decide +kernel, hcommute _ (List.reverse_perm ds), hends _ rfl rfl,
    hcancel _ ((List.reverse_perm ds).append_left ds)⟩

end Placement
end ChipEight
