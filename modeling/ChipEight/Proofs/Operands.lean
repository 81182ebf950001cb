import ChipEight.Proofs.Lemmas.Block
import ChipEight.Proofs.Lemmas.Parallel
import ChipEight.Proofs.Lemmas.Sprite

/-!
# Operands count by their values

An instruction that reads its registers before it writes to any of them does the same for other registers with the
same values. It makes no difference whether they are the same register, or the one that the flag goes to.
-/

namespace ChipEight

open Effect

/-- The tags of instructions that read registers and write to none before that. -/
def Tag.byValue : List Tag :=
  [.seByte, .sneByte, .seRegister, .ldByte, .addByte, .drw, .addIndex, .ldGlyph, .ldDigits]

namespace Board

/-- Boards that are equal but for their registers. -/
structure SameButRegisters (b b' : Board) : Prop where
  index : b'.processor.i = b.processor.i
  pc : b'.processor.pc = b.processor.pc
  stack : b'.processor.stack = b.processor.stack
  maxDepth : b'.processor.maxDepth = b.processor.maxDepth
  memory : b'.memory = b.memory
  display : b'.display = b.display

/-- Two words of one tag with the same immediate operand, on boards where the registers that they name hold the same
values. -/
structure SameOperands (i i' : Instruction) (b b' : Board) : Prop where
  boards : SameButRegisters b b'
  tag : i'.tag = i.tag
  byte : i.tag ∈ [.seByte, .sneByte, .ldByte, .addByte] → i'.nn = i.nn
  rows : i.tag = .drw → i'.n = i.n
  x : b'.processor.v.get i'.x = b.processor.v.get i.x
  y : i.tag = .seRegister ∨ i.tag = .drw → b'.processor.v.get i'.y = b.processor.v.get i.y

/-- The same answer or the same fault, and boards that are equal but for their registers. What was written to a
register, or to the flag, is the same. -/
structure SameEffect (i i' : Instruction) (r r' : EStateM.Result Fault Board (Option Int)) : Prop where
  alike : Alike SameButRegisters r r'
  register : i.tag = .ldByte ∨ i.tag = .addByte →
    (stateOf r').processor.v.get i'.x = (stateOf r).processor.v.get i.x
  flag : i.tag = .drw ∨ i.tag = .addIndex → (stateOf r').processor.flag = (stateOf r).processor.flag

variable {i i' : Instruction} {b b' : Board}

/-! ## Boards that are equal but for their registers -/

namespace SameButRegisters

theorem setV (h : SameButRegisters b b') (x x' : Register) (value value' : Byte) :
    SameButRegisters { b with processor := b.processor.setV x value }
      { b' with processor := b'.processor.setV x' value' } :=
  ⟨h.index, h.pc, h.stack, h.maxDepth, h.memory, h.display⟩

theorem setI (h : SameButRegisters b b') (value : Int) :
    SameButRegisters { b with processor := b.processor.setI value } { b' with processor := b'.processor.setI value } :=
  ⟨rfl, h.pc, h.stack, h.maxDepth, h.memory, h.display⟩

theorem skipIf (h : SameButRegisters b b') (condition : Bool) :
    Alike SameButRegisters (Board.skipIf condition b) (Board.skipIf condition b') := by
  simp only [Board.skipIf, get_bind, h.pc]
  exact .ok _ h

theorem storeDigit (value : Byte) (j : Nat) :
    Agree SameButRegisters (Board.storeDigit value j) (Board.storeDigit value j) := by
  intro s t h
  rw [storeDigit_eq, storeDigit_eq, h.memory, h.index]
  by_cases hc : s.memory.Covers (s.processor.i + j) 1
  · rw [if_pos hc, if_pos hc]
    exact .ok _ ⟨h.index, h.pc, h.stack, h.maxDepth, rfl, h.display⟩
  · rw [if_neg hc, if_neg hc]
    exact .error _ h

end SameButRegisters

/-! ## Two words -/

theorem SameEffect.of_alike {r r' : EStateM.Result Fault Board (Option Int)} (h : Alike SameButRegisters r r')
    (hnone : i.tag ∉ [.ldByte, .addByte, .drw, .addIndex]) : SameEffect i i' r r' where
  alike := h
  register ht := absurd ht (by simp_all)
  flag ht := absurd ht (by simp_all)

theorem SameEffect.of_setV (h : SameButRegisters b b') (value : Byte) (hnone : i.tag ∉ [.drw, .addIndex]) :
    SameEffect i i' (.ok none { b with processor := b.processor.setV i.x value })
      (.ok none { b' with processor := b'.processor.setV i'.x value }) where
  alike := .ok none (h.setV _ _ _ _)
  register _ := by simp [stateOf, Processor.get_setV]
  flag ht := absurd ht (by simp_all)

theorem sameEffect_of_draw (h : SameOperands i i' b b') (ht : i.tag = .drw) :
    SameEffect i i' (execute i b) (execute i' b') := by
  have hf : i.family = 0xD := Instruction.form_of_tag ht
  have hf' : i'.family = 0xD := Instruction.form_of_tag (h.tag.trans ht)
  have hscan := scan_congr (h.rows ht) h.boards.memory h.boards.index h.x (h.y (.inr ht))
  have hextent := congrArg Display.extent h.boards.display
  have hreached := reached_congr hscan h.boards.memory hextent
  refine { alike := alike_of_outcome ?outcome ?boards, register := by simp [ht], flag := fun _ => ?flag }
  case outcome =>
    have hfault := funext (Access.fault?_congr h.boards.memory hextent)
    rw [outcomeOf_draw hf, outcomeOf_draw hf', hscan, hfault]
  case boards =>
    rw [stateOf_draw_eq hf, stateOf_draw_eq hf', hreached, h.boards.display]
    exact ⟨h.boards.index, h.boards.pc, h.boards.stack, h.boards.maxDepth, h.boards.memory, rfl⟩
  case flag =>
    rw [stateOf_draw_eq hf, stateOf_draw_eq hf', hreached, h.boards.display, Processor.flag_setV, Processor.flag_setV]

/-- An instruction that reads its operands first does the same for other registers with the same values, on boards
that are equal but for their registers. -/
theorem operands_count_by_value (h : SameOperands i i' b b') (hi : i.tag ∈ Tag.byValue) :
    SameEffect i i' (execute i b) (execute i' b') := by
  have htag := h.tag
  cases ht : i.tag with
  | seByte =>
      refine .of_alike ?_ (by simp [ht])
      rw [execute_seByte ht, execute_seByte (htag.trans ht), h.x, h.byte (by simp [ht])]
      exact h.boards.skipIf _
  | sneByte =>
      refine .of_alike ?_ (by simp [ht])
      rw [execute_sneByte ht, execute_sneByte (htag.trans ht), h.x, h.byte (by simp [ht])]
      exact h.boards.skipIf _
  | seRegister =>
      refine .of_alike ?_ (by simp [ht])
      rw [execute_seRegister ht, execute_seRegister (htag.trans ht), h.x, h.y (.inl ht)]
      exact h.boards.skipIf _
  | ldByte =>
      rw [execute_ldByte ht, execute_ldByte (htag.trans ht), h.byte (by simp [ht])]
      exact .of_setV h.boards _ (by simp [ht])
  | addByte =>
      rw [execute_addByte ht, execute_addByte (htag.trans ht), h.x, h.byte (by simp [ht])]
      exact .of_setV h.boards _ (by simp [ht])
  | drw => exact sameEffect_of_draw h ht
  | addIndex =>
      rw [execute_addIndex ht, execute_addIndex (htag.trans ht), h.x, h.boards.index]
      refine { alike := .ok none ((h.boards.setV _ _ _ _).setI _), register := by simp [ht], flag := fun _ => ?_ }
      exact (Processor.flag_setV _ _).trans (Processor.flag_setV _ _).symm
  | ldGlyph =>
      refine .of_alike ?_ (by simp [ht])
      rw [execute_ldGlyph ht, execute_ldGlyph (htag.trans ht), h.x]
      exact .ok none (h.boards.setI _)
  | ldDigits =>
      obtain ⟨hf, hn⟩ := Instruction.form_of_tag ht
      obtain ⟨hf', hn'⟩ := Instruction.form_of_tag (htag.trans ht)
      refine .of_alike ?_ (by simp [ht])
      rw [execute_storeDigits hf hn, execute_storeDigits hf' hn']
      refine proceed_alike ?_
      rw [storeDigits_eq, storeDigits_eq, h.x]
      exact Agree.forM _ (fun j _ => SameButRegisters.storeDigit _ j) _ _ h.boards
  | _ => simp [Tag.byValue, ht] at hi

/-- One draw has its row in the flag register and the other its column. Both flip a pixel that is on. -/
theorem operands_count_by_value_of_flag :
    ∃ (i i' : Instruction) (b b' : Board), SameOperands i i' b b' ∧ i.tag ∈ Tag.byValue ∧
      i.y = Processor.flagRegister ∧ i'.x = Processor.flagRegister ∧ SameEffect i i' (execute i b) (execute i' b') ∧
      (stateOf (execute i b)).processor.flag = 1 := by
  let i : Instruction := .ofInt 0xD0F2
  let i' : Instruction := .ofInt 0xDF32
  let board (p : Processor) : Board :=
    { processor := p, memory := ⟨#[0x81, 0xC0]⟩, display := (Display.blank 12 3).flip (4, 1) }
  let p : Processor := .fresh 0x200 none
  let b := board ((p.setV 0 4).setV 15 1)
  let b' := board ((p.setV 15 4).setV 3 1)
  have hoperands : SameOperands i i' b b' :=
    { boards := ⟨rfl, rfl, rfl, rfl, rfl, rfl⟩, tag := by decide, byte := by decide, rows := by decide,
      x := by decide, y := by decide }
  have htag : i.tag ∈ Tag.byValue := by decide
  exact ⟨i, i', b, b', hoperands, htag, by decide, by decide, operands_count_by_value hoperands htag,
    by decide +kernel⟩

end Board
end ChipEight
