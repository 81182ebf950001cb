import ChipEight.Machine
import ChipEight.Proofs.Lemmas.Texts

/-!
# Same text, same behaviour

The text of an instruction tells its operation, and its word too if the operation has no effect on this machine. So
instructions with the same text cannot be told apart by executing them.
-/

namespace ChipEight

namespace Instruction

variable {i i' : Instruction}

/-! ## Words by their fields -/

theorem toNat_word_eq_nnn (i : Instruction) : i.word.toNat = 4096 * i.family + i.nnn.val := by
  simp only [family, nnn]
  omega

theorem toNat_word_eq_nn (i : Instruction) : i.word.toNat = 4096 * i.family + 256 * i.x.val + i.nn.toNat := by
  simp only [family, x, nn, UInt8.toNat_ofNat']
  omega

theorem eq_of_word {i i' : Instruction} (h : i.word.toNat = i'.word.toNat) : i = i' :=
  congrArg Instruction.mk (UInt16.toNat_inj.mp h)

theorem eq_of_nnn (hf : i.family = i'.family) (hn : i.nnn = i'.nnn) : i = i' := by
  apply eq_of_word
  rw [toNat_word_eq_nnn, toNat_word_eq_nnn, hf, hn]

theorem eq_of_nn (hf : i.family = i'.family) (hx : i.x = i'.x) (hn : i.nn = i'.nn) : i = i' := by
  apply eq_of_word
  rw [toNat_word_eq_nn, toNat_word_eq_nn, hf, hx, hn]

/-- Only for operations that have an effect there are several words of one operation. -/
theorem eq_of_unsupported (h : i.operation = i'.operation) (hs : i.supported = false) : i = i' := by
  have htag : i.tag = i'.tag := congrArg Operation.tag h
  rw [supported] at hs
  cases ht : i.tag with
  | sys =>
      have ht' := htag.symm.trans ht
      rw [operation_of_tag ht, operation_of_tag ht'] at h
      have hf : i.family = 0x0 := form_of_tag ht
      have hf' : i'.family = 0x0 := form_of_tag ht'
      exact eq_of_nnn (hf.trans hf'.symm) (Operation.native.inj h)
  | unknown =>
      have ht' := htag.symm.trans ht
      rw [operation_of_tag ht, operation_of_tag ht'] at h
      exact congrArg Instruction.mk (Operation.unknown.inj h)
  | ldFromDelay | ldFromKey | ldDelay | ldSound =>
      have ht' := htag.symm.trans ht
      rw [operation_of_tag ht, operation_of_tag ht'] at h
      obtain ⟨hf, hn⟩ := form_of_tag ht
      obtain ⟨hf', hn'⟩ := form_of_tag ht'
      have hx : i.x = i'.x := by simpa [Tag.operation] using h
      exact eq_of_nn (hf.trans hf'.symm) hx (hn.trans hn'.symm)
  | _ => simp [ht, Tag.supported] at hs

end Instruction

namespace Board

variable {i i' : Instruction}

/-- An instruction that has an effect is executed as its operation says, whatever its word is. -/
theorem execute_of_operation (h : i.operation = i'.operation) (hs : i.supported = true) : execute i = execute i' := by
  rw [Instruction.supported, Instruction.tag, h] at hs
  unfold execute
  rw [h]
  cases ho : i'.operation with
  | native | readDelay | waitKey | setDelay | setSound | unknown => simp [ho, Operation.tag, Tag.supported] at hs
  | _ => rfl

theorem execute_of_text (h : i.text = i'.text) : execute i = execute i' := by
  have hop := Instruction.operation_of_text h
  cases hs : i.supported with
  | true => exact execute_of_operation hop hs
  | false => rw [Instruction.eq_of_unsupported hop hs]

end Board

namespace Machine

/-- Instructions with the same text have the same tag, and executing them does the same to every machine. -/
theorem same_text_same_behaviour {i i' : Instruction} (h : i.text = i'.text) :
    i.tag = i'.tag ∧ i.supported = i'.supported ∧ ∀ m, execute i m = execute i' m := by
  have htag := Instruction.tag_of_text h
  refine ⟨htag, congrArg Tag.supported htag, fun m => ?_⟩
  rw [execute, execute, Board.execute_of_text h]

/-- The last digit of a word that skips if two registers are the same does not show. -/
theorem same_text_of_two_skips :
    ∃ i i' : Instruction, i ≠ i' ∧ i.text = i'.text ∧ i.text = "SE V1, V2" ∧
      i.tag = i'.tag ∧ i.supported = i'.supported ∧ ∀ m, execute i m = execute i' m := by
  let i : Instruction := .ofInt 0x5120
  let i' : Instruction := .ofInt 0x512F
  have h : i.text = i'.text := by decide +kernel
  exact ⟨i, i', by decide, h, by decide +kernel, same_text_same_behaviour h⟩

end Machine
end ChipEight
