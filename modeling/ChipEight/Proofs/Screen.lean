import ChipEight.Proofs.Lemmas.Parallel
import ChipEight.Proofs.Lemmas.Sprite

/-!
# What the screen has an influence on

Nothing that a cycle does depends on which pixels are on, but for the flag of a draw. A draw flips the same pixels on
any two displays, so these go on to differ where they did before.
-/

namespace ChipEight

open Effect

namespace Display

variable {d d' : Display}

/-- The points at which one of two displays is on and the other is not. -/
def difference (d d' : Display) : Set Point := {p | d'.isOn p ≠ d.isOn p}

theorem difference_flipAll (hextent : d'.extent = d.extent) (points : List Point) :
    difference (d.flipAll points) (d'.flipAll points) = difference d d' := by
  refine Set.ext fun p => not_congr ?_
  by_cases hp : d.Contains p.1 p.2
  · rw [isOn_flipAll hp, isOn_flipAll ((contains_congr hextent p.1 p.2).mpr hp)]
    exact Bool.xor_left_inj
  · have hoff : ∀ {e : Display}, e.extent = d.extent → e.isOn p = false := fun he =>
      isOn_of_not_contains (mt (contains_congr he p.1 p.2).mp hp)
    rw [hoff (extent_flipAll points d), hoff ((extent_flipAll points d').trans hextent), hoff rfl, hoff hextent]

end Display

namespace Board

/-- Boards that are equal but for the pixels that are on. -/
structure SameButPixels (b b' : Board) : Prop where
  processor : b'.processor = b.processor
  memory : b'.memory = b.memory
  extent : b'.display.extent = b.display.extent

/-- How boards are related that were equal but for the pixels in `before`, once both have executed an instruction with
the tag, or none. -/
structure Shown (tag : Option Tag) (before : Set Point) (b b' : Board) : Prop where
  register : ∀ x, x ≠ Processor.flagRegister → b'.processor.v.get x = b.processor.v.get x
  flag : tag ≠ some .drw → b'.processor.flag = b.processor.flag
  index : b'.processor.i = b.processor.i
  pc : b'.processor.pc = b.processor.pc
  stack : b'.processor.stack = b.processor.stack
  maxDepth : b'.processor.maxDepth = b.processor.maxDepth
  memory : b'.memory = b.memory
  extent : b'.display.extent = b.display.extent
  pixels : tag ≠ some .cls → Display.difference b.display b'.display = before
  dark : tag = some .cls → ∀ p, b.display.isOn p = false ∧ b'.display.isOn p = false

variable {i : Instruction} {b b' : Board} {tag : Option Tag} {before : Set Point}

theorem SameButPixels.shown (h : SameButPixels b b')
    (hpixels : tag ≠ some .cls → Display.difference b.display b'.display = before)
    (hdark : tag = some .cls → ∀ p, b.display.isOn p = false ∧ b'.display.isOn p = false) :
    Shown tag before b b' := by
  obtain ⟨hprocessor, hmemory, hextent⟩ := h
  refine { register := ?_, flag := ?_, index := ?_, pc := ?_, stack := ?_, maxDepth := ?_, memory := hmemory,
           extent := hextent, pixels := hpixels, dark := hdark }
  all_goals simp [hprocessor]

/-! ## Instructions that look at no pixel -/

theorem parallel_sameButPixels : Parallel SameButPixels where
  processor h := h.processor
  size h := congrArg Memory.size h.memory
  compute _ h := ⟨rfl, h.memory, h.extent⟩
  write addr value h _ := ⟨h.processor, congrArg (Memory.put addr value) h.memory, h.extent⟩
  clear h := ⟨h.processor, h.memory, h.extent⟩

theorem SameButPixels.readByte (addr : Int) :
    Agree SameButPixels (Board.readByte addr) (Board.readByte addr) := by
  intro b b' h
  rw [readByte_eq, readByte_eq, h.memory]
  split
  · exact .ok _ h
  · exact .error _ h

theorem SameButPixels.loadRegisters (x : Register) :
    Agree SameButPixels (Board.loadRegisters x) (Board.loadRegisters x) := by
  have hpar := parallel_sameButPixels
  apply Agree.forM
  intro r _
  apply (getI_agree hpar).bind
  intro addr
  apply (SameButPixels.readByte addr).bind
  intro value
  apply (setV_agree hpar r value).bind
  intro _
  exact (getI_agree hpar).bind fun _ => setI_agree hpar _

theorem execute_sameButPixels (h : SameButPixels b b') (ht : i.tag ≠ .drw) :
    Alike SameButPixels (execute i b) (execute i b') := by
  apply execute_alike parallel_sameButPixels h
  · intro x y rows ho
    have htag : i.tag = .drw := by rw [Instruction.tag, ho]; rfl
    exact absurd htag ht
  · intro x _
    exact SameButPixels.loadRegisters x b b' h

theorem display_of_cls (ht : i.tag = .cls) (b : Board) : (stateOf (execute i b)).display = b.display.clear := by
  unfold execute
  rw [Instruction.operation_of_tag ht]
  rfl

theorem display_of_tag (hcls : i.tag ≠ .cls) (hdrw : i.tag ≠ .drw) (b : Board) :
    (stateOf (execute i b)).display = b.display := by
  show Part.display.Unchanged b (stateOf (execute i b))
  apply execute_unchanged
  rw [Instruction.tag] at hcls hdrw
  cases ho : i.operation with
  | clear => rw [ho] at hcls; exact absurd rfl hcls
  | draw x y rows => rw [ho] at hdrw; exact absurd rfl hdrw
  | _ => simp [Operation.writes]

/-! ## All instructions -/

theorem execute_shows_of_drw (h : SameButPixels b b') (ht : i.tag = .drw) :
    Alike (Shown (some i.tag) (Display.difference b.display b'.display)) (execute i b) (execute i b') := by
  obtain ⟨hprocessor, hmemory, hextent⟩ := h
  have hd : i.family = 0xD := Instruction.form_of_tag ht
  have hscan : scan i b' = scan i b :=
    scan_congr rfl hmemory (by rw [hprocessor]) (by rw [hprocessor]) (by rw [hprocessor])
  apply alike_of_outcome
  · rw [outcomeOf_draw hd, outcomeOf_draw hd, hscan, funext (Access.fault?_congr hmemory hextent)]
  · have hreached := reached_congr hscan hmemory hextent
    rw [stateOf_draw_eq hd, stateOf_draw_eq hd, hreached, hprocessor]
    refine { register := fun x hx => ?register, flag := by simp [ht], index := rfl, pc := rfl, stack := rfl,
             maxDepth := rfl, memory := hmemory, extent := by simp [hextent],
             pixels := fun _ => Display.difference_flipAll hextent _, dark := by simp [ht] }
    rw [Processor.get_setV, Processor.get_setV, if_neg hx.symm, if_neg hx.symm]

theorem execute_shows (h : SameButPixels b b') (i : Instruction) :
    Alike (Shown (some i.tag) (Display.difference b.display b'.display)) (execute i b) (execute i b') := by
  by_cases hdrw : i.tag = .drw
  · exact execute_shows_of_drw h hdrw
  · have halike := execute_sameButPixels h hdrw
    refine alike_of_outcome halike.outcome (halike.state.shown (fun hcls => ?pixels) fun hcls p => ?dark)
    case pixels =>
      have htag : i.tag ≠ .cls := fun heq => hcls (congrArg some heq)
      rw [display_of_tag htag hdrw, display_of_tag htag hdrw]
    case dark =>
      have htag := Option.some.inj hcls
      rw [display_of_cls htag, display_of_cls htag]
      exact ⟨Display.isOn_clear _ p, Display.isOn_clear _ p⟩

end Board

/-! ## Cycles -/

namespace Machine

/-- The tag of the instruction that the next cycle executes, if it fetches one. -/
def tag? (m : Machine) : Option Tag := (m.board.memory.fetch m.pc).toOption.map Instruction.tag

variable {m m' : Machine}

/-- Cycles of two machines that are equal but for their pixels end alike, with the same answer or the same incident,
and leave machines that are equal but for their pixels again, and for the flag if they have drawn. -/
theorem cycle_shows_pixels_in_flag_only (h : OnBoards Board.SameButPixels m m') :
    Alike (OnBoards (Board.Shown m.tag? (Display.difference m.board.display m'.board.display)))
      (cycle m) (cycle m') := by
  obtain ⟨hboards, hrest⟩ := h
  have hpc : m'.pc = m.pc := by rw [pc, hboards.processor]
  refine cycle_alike_of_execute hrest hpc (by rw [hboards.memory]) (fun fault hf => ?unfetched)
    (fun i hf => ?fetched) ?commit
  case unfetched =>
    have htag : m.tag? = none := by simp [tag?, hf, Except.toOption]
    rw [htag]
    exact hboards.shown (fun _ => rfl) (by simp)
  case fetched =>
    have htag : m.tag? = some i.tag := by simp [tag?, hf, Except.toOption]
    rw [htag]
    exact Board.execute_shows hboards i
  case commit =>
    intro b b' next hshown
    exact { hshown with pc := rfl }

/-- The first row of a sprite is drawn over a pixel that is on for one of the machines only. The second row is off both
displays. -/
theorem cycle_shows_pixel_in_flag :
    ∃ m m' : Machine, OnBoards Board.SameButPixels m m' ∧ m.tag? = some .drw ∧
      outcomeOf (cycle m) = .error (m.incident (.outsideDisplay 0 1 9 1) (some (.ofInt 0xD012))) ∧
      m.next.board.processor.flag = 0 ∧ m'.next.board.processor.flag = 1 ∧
      Alike (OnBoards (Board.Shown m.tag? (Display.difference m.board.display m'.board.display)))
        (cycle m) (cycle m') := by
  let machine (display : Display) : Machine :=
    { board := {
        processor := Processor.setI 2 (.fresh 0 none)
        memory := ⟨#[0xD0, 0x12, 0x81, 0x80]⟩
        display }
      start := 0, cycles := 0, log := .empty, last := none }
  let m := machine (.blank 9 1)
  let m' := machine ((Display.blank 9 1).flip (0, 0))
  have h : OnBoards Board.SameButPixels m m' := ⟨⟨rfl, rfl, rfl⟩, rfl⟩
  exact ⟨m, m', h, by decide +kernel, by decide +kernel, by decide +kernel, by decide +kernel,
    cycle_shows_pixels_in_flag_only h⟩

end Machine
end ChipEight
