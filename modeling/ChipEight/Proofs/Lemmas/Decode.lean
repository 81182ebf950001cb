import ChipEight.Instruction.Tag

/-!
# Words and their operations

A word is of the form that its tag stands for, and its operation is made of its operand fields (`operation_of_tag`). The
form tells the operation too (`operation_of_form`), so it is known which words call, which return and which jump.
-/

namespace ChipEight

namespace Tag

/-- The words that a tag stands for, apart from those that have a tag of their own. -/
def Form (i : Instruction) : Tag → Prop
  | nop => i.word = 0x0000
  | cls => i.word = 0x00E0
  | ret => i.word = 0x00EE
  | sys => i.family = 0x0
  | jp => i.family = 0x1
  | call => i.family = 0x2
  | seByte => i.family = 0x3
  | sneByte => i.family = 0x4
  | seRegister => i.family = 0x5
  | ldByte => i.family = 0x6
  | addByte => i.family = 0x7
  | ldIndex => i.family = 0xA
  | drw => i.family = 0xD
  | ldFromDelay => i.family = 0xF ∧ i.nn = 0x07
  | ldFromKey => i.family = 0xF ∧ i.nn = 0x0A
  | ldDelay => i.family = 0xF ∧ i.nn = 0x15
  | ldSound => i.family = 0xF ∧ i.nn = 0x18
  | addIndex => i.family = 0xF ∧ i.nn = 0x1E
  | ldGlyph => i.family = 0xF ∧ i.nn = 0x29
  | ldDigits => i.family = 0xF ∧ i.nn = 0x33
  | ldMemory => i.family = 0xF ∧ i.nn = 0x55
  | ldRegisters => i.family = 0xF ∧ i.nn = 0x65
  | unknown => True

/-- The operation of a word with a tag. -/
def operation (i : Instruction) : Tag → Operation
  | nop => .nop
  | cls => .clear
  | ret => .ret
  | sys => .native i.nnn
  | jp => .jump i.nnn
  | call => .call i.nnn
  | seByte => .skipIfByte i.x i.nn
  | sneByte => .skipUnlessByte i.x i.nn
  | seRegister => .skipIfSame i.x i.y
  | ldByte => .loadByte i.x i.nn
  | addByte => .addByte i.x i.nn
  | ldIndex => .setIndex i.nnn
  | drw => .draw i.x i.y i.n
  | ldFromDelay => .readDelay i.x
  | ldFromKey => .waitKey i.x
  | ldDelay => .setDelay i.x
  | ldSound => .setSound i.x
  | addIndex => .addIndex i.x
  | ldGlyph => .pointGlyph i.x
  | ldDigits => .storeDigits i.x
  | ldMemory => .storeRegisters i.x
  | ldRegisters => .loadRegisters i.x
  | unknown => .unknown i.word

end Tag

namespace Instruction

variable {i : Instruction}

theorem ofInt_word (i : Instruction) : ofInt i.word.toNat = i := by
  have hw := i.word.toNat_lt
  have hn : ((i.word.toNat : Int) % 65536).toNat = i.word.toNat := by omega
  show (⟨UInt16.ofNat ((i.word.toNat : Int) % 65536).toNat⟩ : Instruction) = i
  rw [hn, UInt16.ofNat_toNat]

/-! ## Tags -/

theorem decoded_systemOperation (hf : i.family = 0x0) :
    i.systemOperation.tag.Form i ∧ i.systemOperation = i.systemOperation.tag.operation i := by
  fun_cases systemOperation i with
  | case1 hw => exact ⟨UInt16.toNat_inj.mp hw, rfl⟩
  | case2 hw => exact ⟨UInt16.toNat_inj.mp hw, rfl⟩
  | case3 hw => exact ⟨UInt16.toNat_inj.mp hw, rfl⟩
  | case4 => exact ⟨hf, rfl⟩

theorem decoded_registerOperation (hf : i.family = 0xF) :
    i.registerOperation.tag.Form i ∧ i.registerOperation = i.registerOperation.tag.operation i := by
  fun_cases registerOperation i with
  | case10 => exact ⟨trivial, rfl⟩
  | _ hn => exact ⟨⟨hf, UInt8.toNat_inj.mp hn⟩, rfl⟩

theorem decoded (i : Instruction) : i.tag.Form i ∧ i.operation = i.tag.operation i := by
  rw [tag]
  fun_cases operation i with
  | case1 hf => exact decoded_systemOperation hf
  | case11 hf => exact decoded_registerOperation hf
  | case12 => exact ⟨trivial, rfl⟩
  | _ hf => exact ⟨hf, rfl⟩

theorem form_of_tag {t : Tag} (h : i.tag = t) : t.Form i := h ▸ i.decoded.1

/-- What an instruction asks for can be told from its tag and its operand fields. -/
theorem operation_of_tag {t : Tag} (h : i.tag = t) : i.operation = t.operation i := h ▸ i.decoded.2

/-- The form of a word tells its operation, unless it is the form of what has no other tag. -/
theorem operation_of_form {t : Tag} (h : t.Form i) (hsys : t ≠ .sys) (hunknown : t ≠ .unknown) :
    i.operation = t.operation i := by
  cases t with
  | sys => exact absurd rfl hsys
  | unknown => exact absurd rfl hunknown
  | nop | cls | ret =>
      have hword : i.word = _ := h
      have hf : i.family = 0 := by rw [family, hword]; rfl
      simp [operation, hf, systemOperation, hword, Tag.operation]
  | jp | call | seByte | sneByte | seRegister | ldByte | addByte | ldIndex | drw =>
      unfold operation
      rw [h]
      rfl
  | ldFromDelay | ldFromKey | ldDelay | ldSound | addIndex | ldGlyph | ldDigits | ldMemory | ldRegisters =>
      obtain ⟨hf, hn⟩ := h
      unfold operation registerOperation
      rw [hf, hn]
      rfl

theorem tag_of_form {t : Tag} (h : t.Form i) (hsys : t ≠ .sys) (hunknown : t ≠ .unknown) : i.tag = t := by
  rw [tag, operation_of_form h hsys hunknown]
  cases t <;> rfl

theorem form_of_operation {op : Operation} (h : i.operation = op) : op.tag.Form i ∧ op = op.tag.operation i :=
  h ▸ i.decoded

/-! ## Calls, returns and jumps -/

theorem operation_eq_ret_iff : i.operation = .ret ↔ i.word = 0x00EE := by
  constructor
  · intro h
    exact (form_of_operation h).1
  · intro h
    exact operation_of_form (t := .ret) h nofun nofun

theorem operation_eq_call_iff {target : Address} :
    i.operation = .call target ↔ i.family = 2 ∧ i.nnn = target := by
  constructor
  · intro h
    obtain ⟨hf, hop⟩ := form_of_operation h
    cases hop
    exact ⟨hf, rfl⟩
  · rintro ⟨hf, rfl⟩
    exact operation_of_form (t := .call) hf nofun nofun

theorem operation_eq_jump_iff {target : Address} :
    i.operation = .jump target ↔ i.family = 1 ∧ i.nnn = target := by
  constructor
  · intro h
    obtain ⟨hf, hop⟩ := form_of_operation h
    cases hop
    exact ⟨hf, rfl⟩
  · rintro ⟨hf, rfl⟩
    exact operation_of_form (t := .jp) hf nofun nofun

theorem jump_of_tag (h : i.tag = .jp) : ∃ target, i.operation = .jump target := ⟨i.nnn, operation_of_tag h⟩

theorem operation_of_jumpsTo {addr : Int} (h : i.jumpsTo addr = true) :
    ∃ target : Address, i.operation = .jump target ∧ (target.val : Int) = addr := by
  unfold jumpsTo at h
  split at h
  · rename_i target ht
    exact ⟨target, ht, eq_of_beq h⟩
  · cases h

theorem jumpsTo_iff {addr : Int} :
    i.jumpsTo addr = true ↔ i.tag = .jp ∧ (i.nnn.val : Int) = addr := by
  constructor
  · intro h
    obtain ⟨target, ho, ht⟩ := operation_of_jumpsTo h
    rw [(operation_eq_jump_iff.mp ho).2, tag, ho]
    exact ⟨rfl, ht⟩
  · rintro ⟨htag, haddr⟩
    obtain ⟨target, ho⟩ := jump_of_tag htag
    rw [(operation_eq_jump_iff.mp ho).2] at haddr
    simp [jumpsTo, ho, haddr]

end Instruction
end ChipEight
