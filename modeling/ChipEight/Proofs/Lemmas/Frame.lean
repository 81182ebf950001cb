import ChipEight.Board.Execute
import ChipEight.Instruction.Tag
import ChipEight.Proofs.Lemmas.Effect

/-!
# What instructions write

Each operation writes to some parts of the board only (`writes`). What is closed under writing to these
parts goes on to hold while the operation is carried out, and the only faults on the way are those of
accesses to memory and, if it draws, to the display (`execute_obeys`). Calls, returns and instructions
without an effect, which may be refused before they have done anything, are left to `Execute`.
-/

namespace ChipEight

open Effect

/-- The fault of an access to bytes of memory. -/
def Fault.OfMemory (f : Fault) : Prop := ∃ addr length, f = .outsideMemory addr length

/-- The fault of an access to memory or to the display. -/
def Fault.OfAccess (f : Fault) : Prop := f.OfMemory ∨ ∃ d x y, f = Display.refusal d x y

theorem Fault.OfAccess.kind {f : Fault} (h : f.OfAccess) : f.kind = .memoryAccess ∨ f.kind = .displayAccess := by
  rcases h with ⟨addr, length, rfl⟩ | ⟨d, x, y, rfl⟩
  · exact Or.inl rfl
  · exact Or.inr rfl

/-- The parts of a board that instructions write to. The program counter is none of them. -/
inductive Part
  | register (x : Register)
  | index
  | stack
  | memory
  | display

/-- Whatever is written to the part, `I` goes on to hold. -/
def Part.Closed (I : Board → Prop) : Part → Prop
  | register x => ∀ b value, I b → I { b with processor := b.processor.setV x value }
  | index => ∀ b value, I b → I { b with processor := b.processor.setI value }
  | stack => ∀ b stack, I b → I { b with processor.stack := stack }
  | memory => ∀ b addr value, I b → I { b with memory := b.memory.put addr value }
  | display =>
    (∀ b, I b → I { b with display := b.display.clear }) ∧
      ∀ b x y on h, I b → I { b with display := b.display.put x y on h }

theorem Part.closed_true (part : Part) : part.Closed fun _ => True := by
  cases part <;> simp [Closed]

def Operation.writes : Operation → List Part
  | .clear => [.display]
  | .ret | .call _ => [.stack]
  | .loadByte x _ | .addByte x _ => [.register x]
  | .setIndex _ | .pointGlyph _ => [.index]
  | .draw _ _ _ => [.register Processor.flagRegister, .display]
  | .addIndex _ => [.register Processor.flagRegister, .index]
  | .storeDigits _ => [.memory]
  | .storeRegisters _ => [.memory, .index]
  | .loadRegisters x => .index :: (Board.registersTo x).map .register
  | _ => []

/-- The faults that an operation can meet once it is under way. -/
def Operation.Raises : Operation → Fault → Prop
  | .draw _ _ _ => Fault.OfAccess
  | _ => Fault.OfMemory

theorem Operation.Raises.access {operation : Operation} {f : Fault} (h : operation.Raises f) : f.OfAccess := by
  cases operation with
  | draw => exact h
  | _ => exact Or.inl h

namespace Board

variable {I : Board → Prop} {P : Fault → Prop}

/-! ## The single operations -/

theorem getV_obeys (x : Register) : Obeys I P (getV x) := fun _ hb => hb

theorem getI_obeys : Obeys I P getI := fun _ hb => hb

theorem setV_obeys {x : Register} (h : (Part.register x).Closed I) (value : Byte) :
    Obeys I P (setV x value) := fun b hb => h b value hb

theorem setI_obeys (h : Part.index.Closed I) (value : Int) : Obeys I P (setI value) :=
  fun b hb => h b value hb

theorem readByte_obeys (addr : Int) : Obeys I Fault.OfMemory (readByte addr) := by
  intro b hb
  by_cases hc : b.memory.Covers addr 1
  · simpa [readByte, ask, Memory.read, hc] using hb
  · simp only [readByte, ask, Memory.read, hc, if_false]
    exact ⟨hb, addr, 1, rfl⟩

theorem writeByte_obeys (h : Part.memory.Closed I) (addr : Int) (value : Byte) :
    Obeys I Fault.OfMemory (writeByte addr value) := by
  intro b hb
  by_cases hc : b.memory.Covers addr 1
  · simpa [writeByte, onMemory, Memory.write, hc] using h b addr value hb
  · simp only [writeByte, onMemory, Memory.write, hc, if_false]
    exact ⟨hb, addr, 1, rfl⟩

theorem getPixel_obeys (x y : Int) : Obeys I Fault.OfAccess (getPixel x y) := by
  intro b hb
  by_cases hc : b.display.Contains x y
  · simpa [getPixel, ask, Display.get, hc] using hb
  · simp only [getPixel, ask, Display.get, hc, dite_false]
    exact ⟨hb, Or.inr ⟨_, x, y, rfl⟩⟩

theorem setPixel_obeys (h : Part.display.Closed I) (x y : Int) (on : Bool) :
    Obeys I Fault.OfAccess (setPixel x y on) := by
  intro b hb
  by_cases hc : b.display.Contains x y
  · simpa [setPixel, onDisplay, Display.set, hc] using h.2 b x y on hc hb
  · simp only [setPixel, onDisplay, Display.set, hc, dite_false]
    exact ⟨hb, Or.inr ⟨_, x, y, rfl⟩⟩

/-! ## Drawing and blocks of memory -/

theorem flip_obeys (hf : (Part.register Processor.flagRegister).Closed I)
    (hd : Part.display.Closed I) (x y : Int) : Obeys I Fault.OfAccess (flip x y) := by
  refine (getPixel_obeys x y).bind fun wasOn => ?_
  cases wasOn with
  | true => exact (setV_obeys hf _).bind fun _ => setPixel_obeys hd x y _
  | false => exact (Obeys.pure _).bind fun _ => setPixel_obeys hd x y _

theorem drawByte_obeys (hf : (Part.register Processor.flagRegister).Closed I)
    (hd : Part.display.Closed I) (x y : Int) (sprite : Byte) :
    Obeys I Fault.OfAccess (drawByte x y sprite) := by
  refine Obeys.forM _ fun column _ => ?_
  split
  · exact flip_obeys hf hd _ _
  · exact Obeys.pure _

theorem draw_obeys (hf : (Part.register Processor.flagRegister).Closed I)
    (hd : Part.display.Closed I) (x y : Register) (rows : Fin 16) :
    Obeys I Fault.OfAccess (draw x y rows) := by
  refine (getV_obeys x).bind fun _ => (getV_obeys y).bind fun _ => ?_
  refine (setV_obeys hf _).bind fun _ => Obeys.forM _ fun row _ => ?_
  refine getI_obeys.bind fun _ => ((readByte_obeys _).mono fun _ => Or.inl).bind fun sprite => ?_
  exact drawByte_obeys hf hd _ _ sprite

theorem addIndex_obeys (hf : (Part.register Processor.flagRegister).Closed I)
    (hi : Part.index.Closed I) (x : Register) : Obeys I P (addIndex x) := by
  refine getI_obeys.bind fun _ => (getV_obeys x).bind fun _ => ?_
  exact (setV_obeys hf _).bind fun _ => setI_obeys hi _

theorem storeDigits_obeys (h : Part.memory.Closed I) (x : Register) :
    Obeys I Fault.OfMemory (storeDigits x) := by
  refine (getV_obeys x).bind fun value => ?_
  refine getI_obeys.bind fun _ => (writeByte_obeys h _ _).bind fun _ => ?_
  refine getI_obeys.bind fun _ => (writeByte_obeys h _ _).bind fun _ => ?_
  exact getI_obeys.bind fun _ => writeByte_obeys h _ _

theorem storeRegisters_obeys (hm : Part.memory.Closed I) (hi : Part.index.Closed I) (x : Register) :
    Obeys I Fault.OfMemory (storeRegisters x) := by
  refine Obeys.forM _ fun r _ => getI_obeys.bind fun _ => (getV_obeys r).bind fun _ => ?_
  refine (writeByte_obeys hm _ _).bind fun _ => ?_
  exact getI_obeys.bind fun _ => setI_obeys hi _

theorem loadRegisters_obeys (x : Register) (hr : ∀ r ∈ registersTo x, (Part.register r).Closed I)
    (hi : Part.index.Closed I) : Obeys I Fault.OfMemory (loadRegisters x) := by
  refine Obeys.forM _ fun r hmem => getI_obeys.bind fun _ => (readByte_obeys _).bind fun _ => ?_
  refine (setV_obeys (hr r hmem) _).bind fun _ => ?_
  exact getI_obeys.bind fun _ => setI_obeys hi _

/-! ## Instructions -/

theorem proceed_obeys {act : EStateM Fault Board Unit} (h : Obeys I P act) : Obeys I P (proceed act) :=
  h.bind fun _ => Obeys.pure _

theorem skipIf_obeys (condition : Bool) : Obeys I P (skipIf condition) := fun _ hb => hb

/-- An instruction that is never refused keeps what is closed under its writes, and raises faults of
its accesses only. -/
theorem execute_obeys {i : Instruction} (h : ∀ part ∈ i.operation.writes, part.Closed I)
    (hi : i.supported = true) (hr : i.operation ≠ .ret) (hc : ∀ target, i.operation ≠ .call target) :
    Obeys I i.operation.Raises (execute i) := by
  rw [Instruction.supported, Instruction.tag] at hi
  unfold execute
  generalize i.operation = operation at h hi hr hc ⊢
  cases operation with
  | nop | jump _ => exact Obeys.pure _
  | clear => exact proceed_obeys (h .display List.mem_cons_self).1
  | ret => exact absurd rfl hr
  | call target => exact absurd rfl (hc target)
  | skipIfByte x value => exact (getV_obeys x).bind fun _ => skipIf_obeys _
  | skipUnlessByte x value => exact (getV_obeys x).bind fun _ => skipIf_obeys _
  | skipIfSame x y => exact (getV_obeys x).bind fun _ => (getV_obeys y).bind fun _ => skipIf_obeys _
  | loadByte x value => exact proceed_obeys (setV_obeys (h (.register x) List.mem_cons_self) value)
  | addByte x value =>
      have hx := h (.register x) List.mem_cons_self
      exact proceed_obeys ((getV_obeys x).bind fun _ => setV_obeys hx _)
  | setIndex target => exact proceed_obeys (setI_obeys (h .index List.mem_cons_self) _)
  | draw x y rows =>
      have hf := h (.register Processor.flagRegister) List.mem_cons_self
      have hd := h .display (List.mem_cons_of_mem _ List.mem_cons_self)
      exact proceed_obeys (draw_obeys hf hd x y rows)
  | addIndex x =>
      have hf := h (.register Processor.flagRegister) List.mem_cons_self
      have hi := h .index (List.mem_cons_of_mem _ List.mem_cons_self)
      exact proceed_obeys (addIndex_obeys hf hi x)
  | pointGlyph x =>
      have hi := h .index List.mem_cons_self
      exact proceed_obeys ((getV_obeys x).bind fun _ => setI_obeys hi _)
  | storeDigits x => exact proceed_obeys (storeDigits_obeys (h .memory List.mem_cons_self) x)
  | storeRegisters x =>
      have hm := h .memory List.mem_cons_self
      have hi := h .index (List.mem_cons_of_mem _ List.mem_cons_self)
      exact proceed_obeys (storeRegisters_obeys hm hi x)
  | loadRegisters x =>
      have hi := h .index List.mem_cons_self
      refine proceed_obeys (loadRegisters_obeys x (fun r hr => ?_) hi)
      exact h (.register r) (List.mem_cons_of_mem _ (List.mem_map_of_mem hr))
  | native _ | readDelay _ | waitKey _ | setDelay _ | setSound _ | unknown _ => cases hi

end Board
end ChipEight
