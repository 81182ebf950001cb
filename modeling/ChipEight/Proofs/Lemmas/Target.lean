import ChipEight.Proofs.Lemmas.Execute

/-!
# Where instructions go on

An instruction that completes asks for no address, for its own target, for the address two words on, or for
the one after the call that was made last (`Goes`).
-/

namespace ChipEight.Board

open Effect

/-- The address that an instruction may ask to go on at. -/
inductive Goes (i : Instruction) (b : Board) : Option Int → Prop
  | nowhere : Goes i b none
  | target (ht : i.tag = .jp ∨ i.tag = .call) : Goes i b (some i.nnn.val)
  | skip : Goes i b (some (b.processor.pc + 4))
  | back {caller : Int} {rest : List Int} (hs : b.processor.stack = caller :: rest) :
      Goes i b (some (caller + 2))

variable {i : Instruction} {b b' : Board} {next : Option Int}

theorem next_of_proceed {act : EStateM Fault Board Unit} (h : proceed act b = .ok next b') :
    next = none := by
  cases ha : act b with
  | ok _ b₁ => rw [proceed, bind_of_ok ha] at h; cases h; rfl
  | error fault b₁ => rw [proceed, bind_of_error ha] at h; cases h

theorem goes_of_skipIf {condition : Bool} (h : skipIf condition b = .ok next b') : Goes i b next := by
  cases condition with
  | true => cases h; exact .skip
  | false => cases h; exact .nowhere

theorem goes_of_ret (h : ret b = .ok next b') : Goes i b next := by
  rw [ret_eq] at h
  cases hs : b.processor.stack with
  | nil => rw [hs] at h; cases h
  | cons caller rest => rw [hs] at h; cases h; exact .back hs

theorem goes_of_call {target : Address} (ho : i.operation = .call target)
    (h : call target b = .ok next b') : Goes i b next := by
  rw [call_eq] at h
  cases hl : b.processor.limitReached? with
  | some limit => rw [hl] at h; cases h
  | none =>
      rw [hl] at h
      cases h
      rw [← (Instruction.operation_eq_call_iff.mp ho).2]
      exact .target (Or.inr (by rw [Instruction.tag, ho]; rfl))

theorem goes_of_execute (h : execute i b = .ok next b') : Goes i b next := by
  unfold execute at h
  cases ho : i.operation with
  | nop => rw [ho] at h; cases h; exact .nowhere
  | ret => rw [ho] at h; exact goes_of_ret h
  | jump addr =>
      rw [ho] at h
      cases h
      rw [← (Instruction.operation_eq_jump_iff.mp ho).2]
      exact .target (Or.inl (by rw [Instruction.tag, ho]; rfl))
  | call addr => rw [ho] at h; exact goes_of_call ho h
  | skipIfByte | skipUnlessByte | skipIfSame => rw [ho] at h; exact goes_of_skipIf h
  | native | readDelay | waitKey | setDelay | setSound | unknown => rw [ho] at h; cases h
  | _ => rw [ho] at h; rw [next_of_proceed h]; exact .nowhere

end ChipEight.Board
