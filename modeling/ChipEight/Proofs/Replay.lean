import ChipEight.Proofs.Lemmas.Shape
import ChipEight.Proofs.Lemmas.Stack
import ChipEight.Proofs.Lemmas.Stores

/-!
# Runs again after a reset

A reset keeps memory and display. What a machine did since one, a reset and a cleared display undo, unless something
was stored: the same cycles go the same way again.
-/

namespace ChipEight

open Effect

/-! ## Dark displays -/

theorem Display.pixel_of_lit_eq_zero {d : Display} (h : d.lit = 0) {y x : Nat} (hy : y < d.height.toNat)
    (hx : x < d.width.toNat) : d.pixels[y][x] = false := by
  have hrow : d.pixels[y].toList ∈ d.rows := List.mem_map_of_mem (by simp)
  have hdark : true ∉ d.rows.flatten := List.count_eq_zero.mp h
  have hpixel : d.pixels[y][x] ∈ d.rows.flatten :=
    List.mem_flatten.mpr ⟨_, hrow, by simp⟩
  cases hp : d.pixels[y][x] with
  | false => rfl
  | true => rw [hp] at hpixel; exact absurd hpixel hdark

theorem Display.clear_of_lit_eq_zero {d : Display} (h : d.lit = 0) : d.clear = d := by
  have hpixels : d.pixels = (blank d.width d.height).pixels := by
    refine Vector.ext fun y hy => Vector.ext fun x hx => ?_
    simp [pixel_of_lit_eq_zero h hy hx, blank]
  exact congrArg (Display.mk d.width d.height) hpixels.symm

theorem Display.clear_of_extent {d d' : Display} (h : d'.extent = d.extent) : d'.clear = d.clear :=
  congrArg (fun extent : Int × Int => blank extent.1 extent.2) h

/-! ## Rewinding -/

namespace Machine

/-- The machine after a reset, with its display cleared. -/
def rewound (m : Machine) : Machine := { m.reset with board.display := m.board.display.clear }

variable {m m' : Machine}

theorem rewound_of_dark (h : m.board.display.lit = 0) : m.rewound = m.reset := by
  rw [rewound, Display.clear_of_lit_eq_zero h]
  rfl

theorem rewound_reset (m : Machine) : m.reset.rewound = m.rewound := rfl

/-- No more is left of a machine than its memory, what it was built with and the limit to its depth. -/
theorem rewound_eq (hshape : m'.shape = m.shape) (hmemory : m'.board.memory = m.board.memory)
    (hdepth : m'.board.processor.maxDepth = m.board.processor.maxDepth) : m'.rewound = m.rewound := by
  simp only [shape, Board.shape, Prod.mk.injEq] at hshape
  obtain ⟨⟨-, hextent⟩, hstart⟩ := hshape
  have hdisplay : m'.board.display.clear = m.board.display.clear := Display.clear_of_extent hextent
  simp only [rewound, reset, Processor.reset, hmemory, hdepth, hstart, hdisplay]

theorem rewound_advance {n : Nat} (h : ∀ k < n, ¬ (m.advance k).Stores) : (m.advance n).rewound = m.rewound :=
  rewound_eq (shape_advance n m) (memory_advance h) (maxDepth_advance n m)

theorem after_rewind (n : Nat) (m : Machine) :
    m.after (List.replicate n .cycle ++ [.reset, .display .clear]) = (m.advance n).rewound := by
  rw [after_append, after_cycles]
  rfl

/-- A reset keeps every byte and every pixel. Cycles from a machine that was just reset, with its display dark and
anything in its memory, go the same way once more after another reset, if the display is cleared too and nothing was
stored: each gives the same again and leaves the same machine, whatever faults there are. -/
theorem reset_repeats_cycles (m : Machine) :
    (stateOf (Step.perform .reset m)).board.memory = m.board.memory ∧
    (stateOf (Step.perform .reset m)).board.display = m.board.display ∧
    ∀ n, m.board.display.lit = 0 → (∀ k < n, ¬ (m.reset.advance k).Stores) →
      history Step.perform (List.replicate n .cycle)
          (m.reset.after (List.replicate n .cycle ++ [.reset, .display .clear])) =
        history Step.perform (List.replicate n .cycle) m.reset := by
  refine ⟨rfl, rfl, fun n hdark hquiet => ?_⟩
  rw [after_rewind, rewound_advance hquiet, rewound_reset, rewound_of_dark hdark]

/-- Seven cycles that set the index, draw, call, are refused a second call, jump out of memory and fail there twice. -/
theorem reset_repeats_drawing :
    ∃ m : Machine, m.board.display.lit = 0 ∧ (∀ k < 7, ¬ (m.reset.advance k).Stores) ∧
      (m.reset.advance 7).board.display.lit = 2 ∧ (m.reset.advance 7).stack = [4] ∧
      (m.reset.advance 7).log.size = 1 ∧ (m.reset.advance 7).pc = 0x304 ∧
      history Step.perform (List.replicate 7 .cycle)
          (m.reset.after (List.replicate 7 .cycle ++ [.reset, .display .clear])) =
        history Step.perform (List.replicate 7 .cycle) m.reset := by
  let config : Config :=
    { memorySize := 10, displayWidth := 8, displayHeight := 1, start := 0, maxDepth := some 1 }
  let m : Machine :=
    (new config).after [.load [0xA0, 0x00, 0xD0, 0x01, 0x20, 0x06, 0x20, 0x00, 0x13, 0x00] 0]
  have hdark : m.board.display.lit = 0 := by decide +kernel
  have hquiet : ∀ k < 7, ¬ (m.reset.advance k).Stores := by decide +kernel
  exact ⟨m, hdark, hquiet, by decide +kernel, by decide +kernel, by decide +kernel, by decide +kernel,
    (reset_repeats_cycles m).2.2 7 hdark hquiet⟩

end Machine
end ChipEight
