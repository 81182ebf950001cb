import ChipEight.Proofs.Lemmas.Decode
import ChipEight.Proofs.Lemmas.Frame

/-!
# How an instruction ends

An instruction is refused before it has done anything (`Refuses`), or it is carried out, and then it
raises faults of accesses only (`execute_ends`).
-/

namespace ChipEight

/-! ## What is told of a fault -/

namespace Fault

variable {f : Fault}

theorem OfAccess.not_recoverable (h : f.OfAccess) : f.recoverable = false := by
  rcases h.kind with h | h <;> rw [recoverable, h] <;> rfl

theorem OfMemory.tellable (h : f.OfMemory) : f.Tellable := by
  obtain ⟨addr, length, rfl⟩ := h
  nofun

theorem failure_of_tellable (h : f.Tellable) : f.failure = .reported f.report := if_pos h

theorem failure_of_not_tellable (h : ¬ f.Tellable) : f.failure = .unwritable := if_neg h

end Fault

namespace Incident

variable {i : Incident}

theorem failure_of_tellable (h : i.fault.Tellable) : i.failure = .reported i.report := if_pos h

theorem failure_of_not_tellable (h : ¬ i.fault.Tellable) : i.failure = .unwritable := if_neg h

theorem failure_eq_reported {report : Report} (h : i.failure = .reported report) : report = i.report := by
  unfold failure at h
  split at h
  · exact (Failure.reported.inj h).symm
  · cases h

theorem note?_of_noted (hr : i.fault.recoverable = true) (ht : i.fault.Tellable) : i.note? = some i.report :=
  if_pos ⟨hr, ht⟩

theorem note?_of_not_noted (h : i.fault.recoverable = true → ¬ i.fault.Tellable) : i.note? = none :=
  if_neg fun hboth => h hboth.1 hboth.2

end Incident

namespace Processor

variable {p : Processor}

theorem setV_setV (x : Register) (value value' : Byte) (p : Processor) :
    (p.setV x value).setV x value' = p.setV x value' := by
  simp [setV]

theorem get_setV (x y : Register) (value : Byte) (p : Processor) :
    (p.setV x value).v.get y = if x = y then value else p.v.get y := by
  have hget : ∀ v : Vector Byte 16, v.get y = v[y.val] := fun _ => rfl
  simp only [setV, hget, Vector.getElem_set, Fin.ext_iff]

@[simp] theorem flag_setV (value : Byte) (p : Processor) : (p.setV flagRegister value).flag = value := by
  simp [setV, flag]

theorem limitReached?_eq_some_iff {limit : Int} :
    p.limitReached? = some limit ↔ p.maxDepth = some limit ∧ limit ≤ p.stack.length := by
  simp [limitReached?, Option.filter_eq_some_iff]

theorem limitReached?_eq_none_iff :
    p.limitReached? = none ↔ ∀ limit, p.maxDepth = some limit → p.stack.length < limit := by
  simp [limitReached?, Option.filter_eq_none_iff]

end Processor

/-- A part of the board is as it was. -/
def Part.Unchanged (b b' : Board) : Part → Prop
  | register x => b'.processor.v.get x = b.processor.v.get x
  | index => b'.processor.i = b.processor.i
  | stack => b'.processor.stack = b.processor.stack
  | memory => b'.memory = b.memory
  | display => b'.display = b.display

theorem Part.unchanged_self (part : Part) (b : Board) : part.Unchanged b b := by
  cases part <;> rfl

/-- What is written to one part leaves the others as they were. -/
theorem Part.closed_unchanged {part other : Part} (hne : other ≠ part) (b : Board) :
    other.Closed (part.Unchanged b) := by
  cases other with
  | register y =>
      intro b' value hb
      cases part with
      | register x =>
          have hyx : y ≠ x := fun heq => hne (congrArg register heq)
          rw [Unchanged, Processor.get_setV, if_neg hyx]
          exact hb
      | _ => exact hb
  | index =>
      intro b' value hb
      cases part with
      | index => exact absurd rfl hne
      | _ => exact hb
  | stack =>
      intro b' stack hb
      cases part with
      | stack => exact absurd rfl hne
      | _ => exact hb
  | memory =>
      intro b' addr value hb
      cases part with
      | memory => exact absurd rfl hne
      | _ => exact hb
  | display =>
      cases part with
      | display => exact absurd rfl hne
      | _ => exact ⟨fun _ hb => hb, fun _ _ _ _ _ hb => hb⟩

namespace Board

open Effect

variable {I : Board → Prop} {i : Instruction} {fault : Fault} {b b' : Board}

/-! ## Accesses to memory -/

theorem readByte_eq (addr : Int) (b : Board) :
    readByte addr b =
      if b.memory.Covers addr 1 then .ok (b.memory.cell addr) b else .error (.outsideMemory addr 1) b := by
  by_cases hc : b.memory.Covers addr 1 <;> simp [readByte, ask, Memory.read, hc]

theorem writeByte_eq (addr : Int) (value : Byte) (b : Board) :
    writeByte addr value b =
      if b.memory.Covers addr 1 then .ok () { b with memory := b.memory.put addr value }
      else .error (.outsideMemory addr 1) b := by
  by_cases hc : b.memory.Covers addr 1 <;> simp [writeByte, onMemory, Memory.write, hc]

/-! ## Calls and returns -/

theorem call_eq (target : Address) (b : Board) :
    call target b = match b.processor.limitReached? with
      | some limit => .error (.fullStack limit) b
      | none => .ok (some target.val) { b with processor := b.processor.push b.processor.pc } := by
  rw [call, get_bind]
  cases b.processor.limitReached? <;> rfl

theorem ret_eq (b : Board) :
    ret b = match b.processor.stack with
      | [] => .error .emptyStack b
      | caller :: rest =>
        .ok (some (caller + 2)) { b with processor := { b.processor with stack := rest } } := by
  rw [ret, get_bind]
  cases b.processor.stack <;> rfl

theorem execute_ret (ho : i.operation = .ret) : execute i = ret := by
  unfold execute
  rw [ho]

theorem execute_call {target : Address} (ho : i.operation = .call target) :
    execute i = call target := by
  unfold execute
  rw [ho]

/-! ## Instructions by their tags -/

theorem execute_seByte (ht : i.tag = .seByte) (b : Board) :
    execute i b = skipIf (b.processor.v.get i.x == i.nn) b := by
  unfold execute
  rw [Instruction.operation_of_tag ht]
  rfl

theorem execute_sneByte (ht : i.tag = .sneByte) (b : Board) :
    execute i b = skipIf (b.processor.v.get i.x != i.nn) b := by
  unfold execute
  rw [Instruction.operation_of_tag ht]
  rfl

theorem execute_seRegister (ht : i.tag = .seRegister) (b : Board) :
    execute i b = skipIf (b.processor.v.get i.x == b.processor.v.get i.y) b := by
  unfold execute
  rw [Instruction.operation_of_tag ht]
  rfl

theorem execute_ldByte (ht : i.tag = .ldByte) (b : Board) :
    execute i b = .ok none { b with processor := b.processor.setV i.x i.nn } := by
  unfold execute
  rw [Instruction.operation_of_tag ht]
  rfl

theorem execute_addByte (ht : i.tag = .addByte) (b : Board) :
    execute i b = .ok none { b with processor := b.processor.setV i.x (b.processor.v.get i.x + i.nn) } := by
  unfold execute
  rw [Instruction.operation_of_tag ht]
  rfl

/-- The sum with the index is made before the flag is written. -/
theorem execute_addIndex (ht : i.tag = .addIndex) (b : Board) :
    execute i b =
      let total := b.processor.i + (b.processor.v.get i.x).toNat
      let raised : Bool := total ≥ indexCeiling
      .ok none { b with
        processor := (b.processor.setV Processor.flagRegister (if raised then 1 else 0)).setI total } := by
  unfold execute
  rw [Instruction.operation_of_tag ht]
  rfl

theorem execute_ldGlyph (ht : i.tag = .ldGlyph) (b : Board) :
    execute i b =
      .ok none { b with processor := b.processor.setI (Font.glyphAddress (b.processor.v.get i.x).toNat) } := by
  unfold execute
  rw [Instruction.operation_of_tag ht]
  rfl

/-! ## Refusals -/

/-- The instructions that a board refuses: those that have no effect on this machine, a return that has
no call to go back to, and a call that goes deeper than it may. -/
inductive Refuses (b : Board) (i : Instruction) : Fault → Prop
  | unsupported (hi : i.supported = false) : Refuses b i (.unsupported i)
  | emptyStack (hi : i.word = 0x00EE) (hs : b.processor.stack = []) : Refuses b i .emptyStack
  | fullStack {limit : Int} (hi : i.family = 2) (hd : b.processor.maxDepth = some limit)
      (hl : limit ≤ b.processor.stack.length) : Refuses b i (.fullStack limit)

theorem Refuses.recoverable (h : b.Refuses i fault) : fault.recoverable = true := by
  cases h <;> rfl

/-- A refused instruction changes nothing. -/
theorem execute_of_refuses (h : b.Refuses i fault) : execute i b = .error fault b := by
  cases h with
  | unsupported hi =>
      rw [Instruction.supported, Instruction.tag] at hi
      unfold execute
      cases ho : i.operation with
      | native _ | readDelay _ | waitKey _ | setDelay _ | setSound _ | unknown _ => rfl
      | _ => rw [ho] at hi; cases hi
  | emptyStack hi hs =>
      rw [execute_ret (Instruction.operation_eq_ret_iff.mpr hi), ret_eq, hs]
  | fullStack hi hd hl =>
      rw [execute_call (Instruction.operation_eq_call_iff.mpr ⟨hi, rfl⟩), call_eq,
        Processor.limitReached?_eq_some_iff.mpr ⟨hd, hl⟩]

/-! ## All instructions -/

/-- What is closed under the writes of an instruction holds when the instruction ends. If it failed, it was
refused, or it went outside memory or the display. -/
theorem execute_ends (h : ∀ part ∈ i.operation.writes, part.Closed I) (hb : I b) :
    Ends I (fun fault => b.Refuses i fault ∨ i.operation.Raises fault) (execute i b) := by
  cases hi : i.supported with
  | false =>
      have href : b.Refuses i (.unsupported i) := .unsupported hi
      rw [execute_of_refuses href]
      exact ⟨hb, Or.inl href⟩
  | true =>
      cases ho : i.operation with
      | ret =>
          rw [execute_ret ho, ret_eq]
          rw [ho] at h
          cases hs : b.processor.stack with
          | nil => exact ⟨hb, Or.inl (.emptyStack (Instruction.operation_eq_ret_iff.mp ho) hs)⟩
          | cons caller rest => exact h .stack List.mem_cons_self b rest hb
      | call target =>
          rw [execute_call ho, call_eq]
          rw [ho] at h
          cases hl : b.processor.limitReached? with
          | some limit =>
              obtain ⟨hd, hl⟩ := Processor.limitReached?_eq_some_iff.mp hl
              exact ⟨hb, Or.inl (.fullStack (Instruction.operation_eq_call_iff.mp ho).1 hd hl)⟩
          | none => exact h .stack List.mem_cons_self b _ hb
      | _ =>
          have hobeys := execute_obeys h hi (by rw [ho]; nofun) (by rw [ho]; nofun)
          rw [ho] at hobeys
          exact (hobeys b hb).mono fun _ => Or.inr

/-- An instruction preserves what is closed under writing to the parts that its operation writes to. -/
theorem execute_preserves (i : Instruction) (h : ∀ part ∈ i.operation.writes, part.Closed I) :
    Preserves I (execute i) :=
  fun _ hb => (execute_ends h hb).stateOf

/-- What no write to the board changes stays as it was: the program counter and the depth limit. -/
theorem execute_keeps (i : Instruction) :
    Keeps (fun b => (b.processor.pc, b.processor.maxDepth)) (execute i) := by
  refine keeps_iff.mpr fun c => execute_preserves i fun part _ => ?_
  cases part with
  | register | index | stack => exact fun _ _ hb => hb
  | memory => exact fun _ _ _ hb => hb
  | display => exact ⟨fun _ hb => hb, fun _ _ _ _ _ hb => hb⟩

/-- A part that the operation does not write to stays as it was. -/
theorem execute_unchanged {part : Part} (h : part ∉ i.operation.writes) (b : Board) :
    part.Unchanged b (stateOf (execute i b)) := by
  refine execute_preserves i (fun other hother => Part.closed_unchanged ?_ b) b (part.unchanged_self b)
  rintro rfl
  exact h hother

theorem refuses_of_execute (h : execute i b = .error fault b') :
    b.Refuses i fault ∨ i.operation.Raises fault := by
  have hends := execute_ends (I := fun _ => True) (fun part _ => part.closed_true) (i := i) (b := b) trivial
  rw [h] at hends
  exact hends.2

/-- A fault that a cycle does not recover from is one of an access. -/
theorem access_of_execute (h : execute i b = .error fault b') (hr : fault.recoverable = false) :
    fault.OfAccess := by
  rcases refuses_of_execute h with href | hacc
  · rw [href.recoverable] at hr
    cases hr
  · exact hacc.access

/-- A fault that a cycle recovers from is a refusal. -/
theorem refuses_of_recoverable (h : execute i b = .error fault b') (hr : fault.recoverable = true) :
    b.Refuses i fault := by
  rcases refuses_of_execute h with href | hacc
  · exact href
  · rw [hacc.access.not_recoverable] at hr
    cases hr

end Board
end ChipEight
