import ChipEight.Proofs.Lemmas.Stack
import ChipEight.Proofs.Lemmas.Telling

/-!
# The depth of the call stack

The call stack is what its history says: the addresses of the calls that were carried out, less those that
returns have taken off again. A limit to its depth is never exceeded. Calls that were not carried out were
refused, and unless the limit is too long to be written, they are told as such.
-/

namespace ChipEight

open Effect
open Numeral (Writable)

/-! ## Calls that are told as too many -/

/-- The instruction is a call, and executing it is not told as one call too many. -/
def Board.calls (i : Instruction) (b : Board) : Bool :=
  i.tag == .call &&
    match told (execute i) b with
    | .ok _ _ => true
    | .error failure _ => failure.report?.all fun report => report.kind != .stackOverflow

/-- A call that is refused is told so, if the limit can be written. -/
theorem Board.calls_eq_carriesOut {b : Board} (hlimit : ∀ limit, b.processor.maxDepth = some limit → Writable limit)
    (i : Instruction) : calls i b = carriesOut .call .stackOverflow i b := by
  by_cases ht : i.tag = .call
  · obtain ⟨target, ho⟩ := Instruction.call_of_tag ht
    simp only [calls, carriesOut, told, EStateM.adaptExcept, execute_call ho, call_eq]
    cases hl : b.processor.limitReached? with
    | none => rfl
    | some limit =>
        have hwritable := hlimit limit (Processor.limitReached?_eq_some_iff.mp hl).1
        have htellable : (Fault.fullStack limit).Tellable := List.forall_mem_singleton.mpr hwritable
        simp [Fault.failure_of_tellable htellable, Failure.report?, Fault.report]
  · have hother : (i.tag == Tag.call) = false := beq_eq_false_iff_ne.mpr ht
    rw [calls, carriesOut, hother]
    rfl

namespace Machine

/-! ## What a step executes -/

/-- The instruction that a step executes, if it comes to one. -/
def Step.instruction? : Step → Machine → Option Instruction
  | cycle, m => (m.board.memory.fetch m.pc).toOption
  | execute word, _ => some (.ofInt word)
  | _, _ => none

/-- The step executes an instruction of the kind `tag`, and the instruction does not raise `refusal`. -/
def Step.carriesOut (tag : Tag) (refusal : FaultKind) (m : Machine) (step : Step) : Bool :=
  (step.instruction? m).any fun i => Board.carriesOut tag refusal i m.board

/-- The step executes a call, and the call is taken. -/
abbrev Step.takes (m : Machine) (step : Step) : Bool := step.carriesOut .call .stackOverflow m

abbrev Step.returns (m : Machine) (step : Step) : Bool := step.carriesOut .ret .stackUnderflow m

/-- The step executes a call that is not told as one too many. -/
abbrev Step.calls (m : Machine) (step : Step) : Bool :=
  (step.instruction? m).any fun i => Board.calls i m.board

def Step.onProcessor : Step → Bool
  | processor _ => true
  | _ => false

variable {m : Machine} {step : Step}

theorem stack_next_of_fetched {i : Instruction} (hf : m.board.memory.fetch m.pc = .ok i) :
    m.next.stack = (stateOf (Board.execute i m.board)).processor.stack := by
  rw [next]
  generalize hc : cycle m = r
  cases Cycled.of_eq hc with
  | unfetched hm => rw [Memory.fetch_of_not_covers hm] at hf; cases hf
  | done hf' he | recovered hf' he | struck hf' he => cases hf.symm.trans hf'; rw [he]; rfl

theorem stack_next_of_unfetched {fault : Fault} (hf : m.board.memory.fetch m.pc = .error fault) :
    m.next.stack = m.stack := by
  rw [next]
  generalize hc : cycle m = r
  cases Cycled.of_eq hc with
  | unfetched => rfl
  | done hf' | recovered hf' | struck hf' => rw [hf] at hf'; cases hf'

/-- Only calls and returns that are carried out, and resets, move the stack. -/
theorem stack_perform (hp : step.onProcessor = false) (hr : step ≠ .reset) :
    (stateOf (step.perform m)).stack =
      if step.takes m then m.pc :: m.stack else if step.returns m then m.stack.tail else m.stack := by
  generalize hs : stateOf (step.perform m) = m'
  cases hs ▸ stepped step m with
  | cycle =>
      cases hf : m.board.memory.fetch m.pc with
      | ok i =>
          rw [stack_next_of_fetched hf, Board.stack_execute]
          simp [Step.takes, Step.returns, Step.carriesOut, Step.instruction?, hf, Except.toOption]
      | error fault =>
          rw [stack_next_of_unfetched hf]
          simp [Step.takes, Step.returns, Step.carriesOut, Step.instruction?, hf, Except.toOption]
  | execute word => exact Board.stack_execute (.ofInt word) m.board
  | processor => cases hp
  | reset => exact absurd rfl hr
  | memory | display | loadFont | load | last | diagnostics => rfl

theorem maxDepth_perform (hp : step.onProcessor = false) :
    (stateOf (step.perform m)).board.processor.maxDepth = m.board.processor.maxDepth := by
  generalize hs : stateOf (step.perform m) = m'
  cases hs ▸ stepped step m with
  | cycle => exact maxDepth_next m
  | execute word => exact congrArg Prod.snd (Board.execute_keeps (.ofInt word) m.board)
  | processor => cases hp
  | memory | display | loadFont | load | reset | last | diagnostics => rfl

theorem limitReached?_of_takes (h : step.takes m = true) :
    m.board.processor.limitReached? = none := by
  obtain ⟨i, -, hi⟩ := (Option.any_eq_true _ _).mp h
  exact (Board.carriesOut_call_iff.mp hi).2

theorem stack_of_returns (h : step.returns m = true) : m.stack ≠ [] := by
  obtain ⟨i, -, hi⟩ := (Option.any_eq_true _ _).mp h
  exact (Board.carriesOut_ret_iff.mp hi).2

theorem not_returns_of_takes (h : step.takes m = true) : ¬ step.returns m = true := by
  intro hreturns
  obtain ⟨i, hi, hcall⟩ := (Option.any_eq_true _ _).mp h
  obtain ⟨i', hi', hret⟩ := (Option.any_eq_true _ _).mp hreturns
  cases hi.symm.trans hi'
  have htag := (Board.carriesOut_call_iff.mp hcall).1
  rw [(Board.carriesOut_ret_iff.mp hret).1] at htag
  cases htag

theorem calls_eq_takes (hlimit : ∀ limit, m.board.processor.maxDepth = some limit → Writable limit) :
    step.calls m = step.takes m := by
  have hcalls : (fun i => Board.calls i m.board) = fun i => Board.carriesOut .call .stackOverflow i m.board :=
    funext fun i => Board.calls_eq_carriesOut hlimit i
  rw [Step.calls, Step.takes, Step.carriesOut, hcalls]

/-! ## The history of a stack -/

/-- What was done since the last reset: where calls were taken, newest first, and how many calls there were that were
not told as one too many, and how many returns. -/
structure Ledger where
  callers : List Int
  calls : Nat
  returns : Nat
  deriving DecidableEq

namespace Ledger

def opening : Ledger := ⟨[], 0, 0⟩

/-- The ledger with a step that the machine is about to take. -/
def note (m : Machine) (ledger : Ledger) : Step → Ledger
  | .reset => opening
  | step =>
    { callers := if step.takes m then m.pc :: ledger.callers else ledger.callers
      calls := if step.calls m then ledger.calls + 1 else ledger.calls
      returns := if step.returns m then ledger.returns + 1 else ledger.returns }

/-- The ledger of the steps that a machine takes. -/
def since (m : Machine) (steps : List Step) : Ledger := noteAll note steps m opening

theorem note_of_ne_reset {m : Machine} {step : Step} (h : step ≠ .reset) (ledger : Ledger) :
    ledger.note m step =
      { callers := if step.takes m then m.pc :: ledger.callers else ledger.callers
        calls := if step.calls m then ledger.calls + 1 else ledger.calls
        returns := if step.returns m then ledger.returns + 1 else ledger.returns } := by
  cases step with
  | reset => exact absurd rfl h
  | _ => rfl

end Ledger

/-- The ledger accounts for the stack of a machine with a limit to its depth. If the limit can be written, the calls
that are not told as too many are those that were taken. -/
structure Accounts (limit : Option Int) (ledger : Ledger) (m : Machine) : Prop where
  height : (∀ depth, limit = some depth → Writable depth) → (m.stack.length : Int) = ledger.calls - ledger.returns
  taken : (m.stack.length : Int) = ledger.callers.length - ledger.returns
  callers : m.stack.Sublist ledger.callers
  maxDepth : m.board.processor.maxDepth = limit
  bound : ∀ depth, limit = some depth → (m.stack.length : Int) ≤ max depth 0

namespace Accounts

variable {limit : Option Int} {ledger : Ledger} {m' : Machine}

theorem opening (hs : m.stack = []) (hd : m.board.processor.maxDepth = limit) :
    Accounts limit .opening m where
  height _ := by rw [hs]; rfl
  taken := by rw [hs]; rfl
  callers := by rw [hs]; exact List.nil_sublist _
  maxDepth := hd
  bound depth _ := by rw [hs]; exact Int.le_max_right depth 0

theorem called (h : Accounts limit ledger m) (hl : m.board.processor.limitReached? = none)
    (hs : m'.stack = m.pc :: m.stack) (hd : m'.board.processor.maxDepth = limit) (calls : Nat)
    (hcalls : (∀ depth, limit = some depth → Writable depth) → calls = ledger.calls + 1) :
    Accounts limit { callers := m.pc :: ledger.callers, calls, returns := ledger.returns } m' where
  height hlimit := by
    have hheight := h.height hlimit
    simp only [hcalls hlimit, hs, List.length_cons]
    omega
  taken := by
    have htaken := h.taken
    simp only [hs, List.length_cons]
    omega
  callers := by rw [hs]; exact h.callers.cons_cons m.pc
  maxDepth := hd
  bound depth hdepth := by
    have hroom : (m.stack.length : Int) < depth :=
      Processor.limitReached?_eq_none_iff.mp hl depth (h.maxDepth.trans hdepth)
    rw [hs, List.length_cons]
    omega

theorem returned (h : Accounts limit ledger m) (hne : m.stack ≠ []) (hs : m'.stack = m.stack.tail)
    (hd : m'.board.processor.maxDepth = limit) (calls : Nat)
    (hcalls : (∀ depth, limit = some depth → Writable depth) → calls = ledger.calls) :
    Accounts limit { callers := ledger.callers, calls, returns := ledger.returns + 1 } m' where
  height hlimit := by
    have hheight := h.height hlimit
    have hpos := List.length_pos_iff.mpr hne
    simp only [hcalls hlimit, hs, List.length_tail]
    omega
  taken := by
    have htaken := h.taken
    have hpos := List.length_pos_iff.mpr hne
    simp only [hs, List.length_tail]
    omega
  callers := by rw [hs]; exact (List.tail_sublist _).trans h.callers
  maxDepth := hd
  bound depth hdepth := by
    have hbound := h.bound depth hdepth
    rw [hs, List.length_tail]
    omega

theorem kept (h : Accounts limit ledger m) (hs : m'.stack = m.stack)
    (hd : m'.board.processor.maxDepth = limit) (calls : Nat)
    (hcalls : (∀ depth, limit = some depth → Writable depth) → calls = ledger.calls) :
    Accounts limit { callers := ledger.callers, calls, returns := ledger.returns } m' where
  height hlimit := by rw [hcalls hlimit, hs]; exact h.height hlimit
  taken := by rw [hs]; exact h.taken
  callers := by rw [hs]; exact h.callers
  maxDepth := hd
  bound depth hdepth := by rw [hs]; exact h.bound depth hdepth

theorem perform (h : Accounts limit ledger m) (hp : step.onProcessor = false) :
    Accounts limit (ledger.note m step) (stateOf (step.perform m)) := by
  have hd := (maxDepth_perform hp).trans h.maxDepth
  by_cases hr : step = .reset
  · subst hr
    exact opening rfl hd
  have hs := stack_perform (m := m) hp hr
  have hcalls : (∀ depth, limit = some depth → Writable depth) →
      (if step.calls m then ledger.calls + 1 else ledger.calls) =
        if step.takes m then ledger.calls + 1 else ledger.calls := by
    intro hlimit
    rw [calls_eq_takes (h.maxDepth ▸ hlimit)]
  rw [Ledger.note_of_ne_reset hr]
  by_cases htakes : step.takes m = true
  · rw [if_pos htakes] at hs hcalls
    rw [if_pos htakes, if_neg (not_returns_of_takes htakes)]
    exact h.called (limitReached?_of_takes htakes) hs hd _ hcalls
  rw [if_neg htakes] at hs hcalls ⊢
  by_cases hreturns : step.returns m = true
  · rw [if_pos hreturns] at hs ⊢
    exact h.returned (stack_of_returns hreturns) hs hd _ hcalls
  · rw [if_neg hreturns] at hs ⊢
    exact h.kept hs hd _ hcalls

theorem next (h : Accounts limit ledger m) : Accounts limit (ledger.note m .cycle) m.next := by
  rw [← stateOf_perform_cycle]
  exact h.perform rfl

end Accounts

/-! ## All histories -/

/-- Two stacks of which the one is the other with at most one entry more on top. -/
structure OneEntryApart (s s' : List Int) : Prop where
  older : s <:+ s' ∨ s' <:+ s
  pushed : s'.length ≤ s.length + 1
  popped : s.length ≤ s'.length + 1

theorem oneEntryApart_perform (hp : step.onProcessor = false) (hr : step ≠ .reset) :
    OneEntryApart m.stack (stateOf (step.perform m)).stack := by
  rw [stack_perform hp hr]
  split
  · exact { older := Or.inl (List.suffix_cons _ _), pushed := by simp, popped := by simp; omega }
  split
  · exact { older := Or.inr (List.tail_suffix _), pushed := by simp; omega, popped := by simp; omega }
  · exact { older := Or.inl List.suffix_rfl, pushed := by omega, popped := by omega }

/-- The stack is accounted for. Whatever is executed on a new machine, with cycles or without them and with
any resets in between, the stack holds addresses of calls that were taken since the last reset, as many as
there were more of them than of returns, and not more than the machine has a limit for. The calls that were
not taken are told as too many, unless the limit is too long to be written. No execution changes more than
the newest entry. -/
theorem stack_accounts_for_calls (config : Config) (steps : List Step)
    (hp : ∀ step ∈ steps, step.onProcessor = false) :
    Accounts config.maxDepth (.since (new config) steps) ((new config).after steps) ∧
      ∀ step : Step, step.onProcessor = false → step ≠ .reset →
        OneEntryApart ((new config).after steps).stack
          (stateOf (step.perform ((new config).after steps))).stack := by
  have hnew : Accounts config.maxDepth .opening (new config) := .opening rfl rfl
  exact ⟨noteAll_invariant (fun step hs _ _ h => h.perform (hp step hs)) hnew,
    fun step => oneEntryApart_perform⟩

/-- Only one call may be open: a return too early and a second call are refused, and a third call is carried
out once the first has been returned from. -/
theorem stack_accounts_for_refusals :
    ∃ config steps, (∀ step ∈ steps, step.onProcessor = false) ∧
      Ledger.since (new config) steps = ⟨[0x204, 0x200], 2, 1⟩ ∧
      Accounts (some 1) ⟨[0x204, 0x200], 2, 1⟩ ((new config).after steps) ∧
      OneEntryApart ((new config).after steps).stack
        (stateOf (Step.cycle.perform ((new config).after steps))).stack := by
  let config : Config := { memorySize := 0x208, maxDepth := some 1 }
  let steps : List Step :=
    [.load [0x22, 0x02, 0x22, 0x06] 0x200, .reset, .execute 0x00EE, .cycle, .cycle, .execute 0x00EE,
      .execute 0x2300]
  have hp : ∀ step ∈ steps, step.onProcessor = false := by decide
  have hledger : Ledger.since (new config) steps = ⟨[0x204, 0x200], 2, 1⟩ := by decide +kernel
  obtain ⟨haccounts, hone⟩ := stack_accounts_for_calls config steps hp
  rw [hledger] at haccounts
  exact ⟨config, steps, hp, hledger, haccounts, hone .cycle rfl (by nofun)⟩

/-- A call is refused where the limit of the stack is below zero and too long to be written. It is not told as one too
many, yet nothing is pushed. -/
theorem untold_call_is_not_pushed :
    ∃ config : Config, config.maxDepth = some Numeral.unwritable ∧
      Ledger.since (new config) [.execute 0x2200] = ⟨[], 1, 0⟩ ∧ ((new config).after [.execute 0x2200]).stack = [] :=
  ⟨{ maxDepth := some Numeral.unwritable }, rfl, by decide +kernel, by decide +kernel⟩

end Machine
end ChipEight
