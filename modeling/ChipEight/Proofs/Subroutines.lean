import ChipEight.Proofs.Lemmas.Stack

/-!
# Subroutines

From a call that is taken, cycles keep the stack that the call left, until they return from that call. What
runs in between may be anything.
-/

namespace ChipEight.Machine

variable {m : Machine} {caller : Int} {below : List Int}

/-- The next cycle is a return to `caller`, which leaves the stack `below`. -/
structure Returns (m : Machine) (caller : Int) (below : List Int) : Prop where
  ret : ∃ i, i.tag = .ret ∧ cycle m = .ok i m.next
  stack : m.next.stack = below
  pc : m.next.pc = (caller + 2) % 65536

/-- A cycle keeps what is below the newest entries, unless it returns to the caller on top of it. -/
theorem keeps_below_or_returns {newer : List Int} (h : m.stack = newer ++ caller :: below) :
    (∃ newer', m.next.stack = newer' ++ caller :: below) ∨ m.Returns caller below := by
  cases stackMove m with
  | kept hs => exact Or.inl ⟨newer, hs.trans h⟩
  | called hs => exact Or.inl ⟨m.pc :: newer, by rw [hs, h]; rfl⟩
  | returned ht hc hs hp =>
      rw [hs] at h
      cases newer with
      | nil =>
          -- nothing was pushed since, so the return is to the caller itself
          obtain ⟨rfl, hbelow⟩ := List.cons.inj h
          exact Or.inr { ret := ⟨_, ht, hc⟩, stack := hbelow, pc := hp }
      | cons _ newer => exact Or.inl ⟨newer, (List.cons.inj h).2⟩

/-- Until the stack is as high as before a call, the call's own address stands on what was there. -/
theorem stack_in_subroutine (hcall : m.TakesCall) (n : Nat)
    (hopen : ∀ k ≤ n, (m.advance (k + 1)).stack.length ≠ m.stack.length) :
    ∃ newer, (m.advance (n + 1)).stack = newer ++ m.pc :: m.stack := by
  induction n with
  | zero => exact ⟨[], stack_next_of_takesCall hcall⟩
  | succ n ih =>
      obtain ⟨newer, hnewer⟩ := ih fun k hk => hopen k (by omega)
      rw [advance_succ']
      rcases keeps_below_or_returns hnewer with hkeeps | hreturns
      · exact hkeeps
      · -- a return would have brought the stack back to its height
        have hn := hopen (n + 1) (Nat.le_refl _)
        rw [advance_succ', hreturns.stack] at hn
        exact absurd rfl hn

/-- A subroutine is left as it was entered. From a call that is taken, until the stack is as high as it was
before the call, the stack is what it was with the address of the call on top, and then what was pushed
since. The first cycle that brings the stack back to that height is a return behind the call, with the
stack as it was. -/
theorem first_return_matches_call (hcall : m.TakesCall) (n : Nat)
    (hopen : ∀ k ≤ n, (m.advance (k + 1)).stack.length ≠ m.stack.length) :
    (∃ newer, (m.advance (n + 1)).stack = newer ++ m.pc :: m.stack) ∧
      ((m.advance (n + 2)).stack.length ≤ m.stack.length →
        (m.advance (n + 1)).Returns m.pc m.stack) := by
  obtain ⟨newer, hnewer⟩ := stack_in_subroutine hcall n hopen
  refine ⟨⟨newer, hnewer⟩, fun hback => ?_⟩
  rcases keeps_below_or_returns hnewer with ⟨newer', hkeeps⟩ | hreturns
  · rw [advance_succ', hkeeps, List.length_append, List.length_cons] at hback
    omega
  · exact hreturns

/-- A subroutine that calls another one before it returns. -/
theorem first_return_of_nested_calls :
    ∃ m : Machine, m.TakesCall ∧ (∀ k ≤ 2, (m.advance (k + 1)).stack.length ≠ m.stack.length) ∧
      (m.advance 4).stack.length ≤ m.stack.length ∧ (m.advance 3).Returns 0x200 [] := by
  let m := (new { memorySize := 0x20A }).after
    [.load [0x22, 0x04, 0x12, 0x02, 0x22, 0x08, 0x00, 0xEE, 0x00, 0xEE] 0x200]
  have hf : m.board.memory.fetch m.pc = .ok (.ofBytes 0x22 0x04) :=
    Memory.fetch_of_cells (by decide +kernel) (by decide +kernel) (by decide +kernel)
  have hd : m.board.processor.maxDepth = none := by decide +kernel
  have hcall : m.TakesCall := ⟨_, hf, by decide, by rw [hd]; nofun⟩
  have hopen : ∀ k ≤ 2, (m.advance (k + 1)).stack.length ≠ m.stack.length := by decide +kernel
  have hback : (m.advance 4).stack.length ≤ m.stack.length := by decide +kernel
  have hpc : m.pc = 0x200 := by decide +kernel
  have hstack : m.stack = [] := by decide +kernel
  clear_value m
  have hreturns := (first_return_matches_call hcall 2 hopen).2 hback
  rw [hpc, hstack] at hreturns
  exact ⟨m, hcall, hopen, hback, hreturns⟩

end ChipEight.Machine
