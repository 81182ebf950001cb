import Mathlib.Data.Nat.Digits.Defs
import ChipEight.Instruction.Text
import ChipEight.Proofs.Lemmas.Decode

/-!
# Reading texts of instructions

Numbers can be read back from their digits, and the tag of an instruction from the mnemonic in its text and from how
the operands begin. So the text tells all that the operation is made of.
-/

namespace ChipEight

/-! ## Digits -/

namespace Hex

/-- The number that hexadecimal digits write. -/
def number (digits : List Char) : Nat := digits.foldl (fun n c => 16 * n + (digit? c).getD 0) 0

theorem digit?_digitChar : ∀ d < 16, digit? (Nat.digitChar d) = some d := by decide

theorem number_concat (digits : List Char) (d : Nat) (hd : d < 16) :
    number (digits ++ [Nat.digitChar d]) = 16 * number digits + d := by
  simp [number, digit?_digitChar d hd]

theorem number_toDigits (n : Nat) : number (Nat.toDigits 16 n) = n := by
  induction n using Nat.strongRecOn with
  | ind n ih =>
      rw [Nat.toDigits_eq_if (by decide)]
      split
      · rename_i hn
        exact (number_concat [] n hn).trans (by simp [number])
      · rw [number_concat _ _ (Nat.mod_lt n (by decide)), ih (n / 16) (by omega)]
        omega

theorem number_zeros (k : Nat) (digits : List Char) : number (List.replicate k '0' ++ digits) = number digits := by
  induction k with
  | zero => rfl
  | succ k ih => exact ih

theorem toList_marked (width n : Nat) :
    ∃ k, (marked width n).toList = '0' :: 'x' :: (List.replicate k '0' ++ Nat.toDigits 16 n) := by
  refine ⟨width - (2 + (Nat.toDigits 16 n).length), ?_⟩
  have hsign : ¬ (n : Int) < 0 := by omega
  simp [marked, hsign]

@[simp] theorem marked_inj {width m n : Nat} : marked width m = marked width n ↔ m = n := by
  refine ⟨fun h => ?_, fun h => by rw [h]⟩
  obtain ⟨j, hm⟩ := toList_marked width m
  obtain ⟨k, hn⟩ := toList_marked width n
  rw [← String.toList_inj, hm, hn, List.cons.injEq, List.cons.injEq] at h
  have hnumber := congrArg number h.2.2
  rwa [number_zeros, number_zeros, number_toDigits, number_toDigits] at hnumber

end Hex

/-! ## Operands -/

@[simp] theorem toList_registerText (x : Register) : (registerText x).toList = ['V', Hex.upperDigit x] := by
  simp [registerText]

@[simp] theorem upperDigit_inj : ∀ {x y : Fin 16}, Hex.upperDigit x = Hex.upperDigit y ↔ x = y := by decide

@[simp] theorem toList_byteText_inj {b b' : Byte} : (byteText b).toList = (byteText b').toList ↔ b = b' := by
  simp [byteText, String.toList_inj, UInt8.toNat_inj]

@[simp] theorem toList_addressText_inj {a a' : Address} :
    (addressText a).toList = (addressText a').toList ↔ a = a' := by
  simp [addressText, String.toList_inj, Fin.ext_iff]

@[simp] theorem toList_wordText_inj {w w' : Word} : (wordText w).toList = (wordText w').toList ↔ w = w' := by
  simp [wordText, String.toList_inj, UInt16.toNat_inj]

@[simp] theorem decimal_inj {m n : Nat} : Nat.toDigits 10 m = Nat.toDigits 10 n ↔ m = n := by
  refine ⟨fun h => ?_, fun h => by rw [h]⟩
  have hnumber := congrArg (Nat.ofDigitChars 10 · 0) h
  simpa only [Nat.ofDigitChars_ten_toDigits] using hnumber

/-! ## Tags -/

/-- The tag of a load, told by how its operands begin. -/
def Tag.ofLoad : List Char → Tag
  | 'V' :: _ :: _ :: _ :: '0' :: _ => .ldByte
  | 'V' :: _ :: _ :: _ :: 'D' :: _ => .ldFromDelay
  | 'V' :: _ :: _ :: _ :: 'K' :: _ => .ldFromKey
  | 'V' :: _ => .ldRegisters
  | 'I' :: _ => .ldIndex
  | 'F' :: _ => .ldGlyph
  | 'B' :: _ => .ldDigits
  | '[' :: _ => .ldMemory
  | 'D' :: _ => .ldDelay
  | _ => .ldSound

/-- The tag of a text, told by its mnemonic and by how its operands begin. -/
def Tag.ofText : List Char → Tag
  | 'N' :: _ => .nop
  | 'C' :: 'L' :: _ => .cls
  | 'C' :: _ => .call
  | 'R' :: _ => .ret
  | 'J' :: _ => .jp
  | 'S' :: 'Y' :: _ => .sys
  | 'S' :: 'N' :: _ => .sneByte
  | 'S' :: _ :: _ :: _ :: _ :: _ :: _ :: '0' :: _ => .seByte
  | 'S' :: _ => .seRegister
  | 'A' :: _ :: _ :: _ :: 'V' :: _ => .addByte
  | 'A' :: _ => .addIndex
  | 'D' :: _ => .drw
  | 'L' :: _ :: _ :: operands => .ofLoad operands
  | _ => .unknown

theorem ofText_text (o : Operation) : Tag.ofText o.text.toList = o.tag := by
  cases o with
  | skipIfByte x value | loadByte x value | addByte x value =>
      obtain ⟨k, hvalue⟩ := Hex.toList_marked 4 value.toNat
      simp [Operation.text, byteText, hvalue, Tag.ofText, Tag.ofLoad, Operation.tag]
  | _ => simp [Operation.text, Tag.ofText, Tag.ofLoad, Operation.tag]

namespace Instruction

variable {i i' : Instruction}

theorem tag_of_text (h : i.text = i'.text) : i.tag = i'.tag := by
  rw [tag, tag, ← ofText_text, ← ofText_text]
  exact congrArg (fun text => Tag.ofText text.toList) h

/-- Instructions with the same text ask for the same. -/
theorem operation_of_text (h : i.text = i'.text) : i.operation = i'.operation := by
  have htag := tag_of_text h
  rw [text, text, operation_of_tag htag, operation_of_tag rfl] at h
  rw [operation_of_tag htag, operation_of_tag rfl]
  replace h := congrArg String.toList h
  cases ht : i'.tag with
  | nop | cls | ret => rfl
  | _ => simpa [Tag.operation, Operation.text, ht, Fin.val_inj] using h

end Instruction
end ChipEight
