import Mathlib.Data.List.TakeWhile
import ChipEight.Proofs.Lemmas.Agree

/-!
# Loops that halt at a fault

A loop whose operations are checked before they do anything does those before the first that has a fault, and
nothing after it.
-/

namespace ChipEight.Effect

variable {ε σ α β ι κ : Type}

/-! ## Loops in other forms -/

theorem forM_filter (p : ι → Bool) (f : ι → EStateM ε σ PUnit) (is : List ι) :
    (is.filter p).forM f = is.forM fun i => if p i then f i else pure ⟨⟩ := by
  induction is with
  | nil => rfl
  | cons i is ih =>
      cases hp : p i <;> simp_all [List.forM_eq_forM]

theorem forM_flatMap (g : κ → List ι) (f : ι → EStateM ε σ PUnit) (ks : List κ) :
    (ks.flatMap g).forM f = ks.forM fun k => (g k).forM f := by
  induction ks with
  | nil => rfl
  | cons k ks ih => simp_all [List.forM_eq_forM]

/-- Two loops whose operations do the same in every state that they come to. -/
theorem forM_congr {I : σ → Prop} {P : ε → Prop} {f g : ι → EStateM ε σ PUnit} {is : List ι} {s : σ}
    (hg : ∀ i ∈ is, Obeys I P (g i)) (heq : ∀ i ∈ is, ∀ s, I s → f i s = g i s) (hs : I s) :
    is.forM f s = is.forM g s := by
  refine Alike.eq (I := I) (Agree.forM is (fun i hi s t hst => ?_) s s ⟨rfl, hs⟩)
  rw [heq i hi s hst.2]
  exact (hg i hi).agree s t hst

/-! ## The first fault -/

/-- Of `n` operations those before the first that has a fault were done. `Done k` holds of the state once the first
`k` of them were done. -/
inductive Halts (fault? : Nat → Option ε) (Done : Nat → σ → Prop) (n : Nat) (a : α) : EStateM.Result ε σ α → Prop
  | whole {s : σ} (hnone : ∀ k < n, fault? k = none) (hdone : Done n s) : Halts fault? Done n a (.ok a s)
  | part {k : Nat} {e : ε} {s : σ} (hk : k < n) (hbefore : ∀ j < k, fault? j = none) (hfault : fault? k = some e)
      (hdone : Done k s) : Halts fault? Done n a (.error e s)

variable {fault? : Nat → Option ε} {Done : Nat → σ → Prop} {n : Nat} {a : α}

theorem Halts.ok_iff {r : EStateM.Result ε σ α} (h : Halts fault? Done n a r) :
    (∃ s, r = .ok a s) ↔ ∀ k < n, fault? k = none := by
  cases h with
  | whole hnone => simpa using hnone
  | part hk _ hfault =>
      refine ⟨by simp, fun hnone => ?_⟩
      simp [hnone _ hk] at hfault

theorem Halts.of_ok {r : EStateM.Result ε σ α} {a' : α} {s : σ} (h : Halts fault? Done n a r) (hr : r = .ok a' s) :
    a' = a ∧ (∀ k < n, fault? k = none) ∧ Done n s := by
  cases h with
  | whole hnone hdone =>
      cases hr
      exact ⟨rfl, hnone, hdone⟩
  | part => cases hr

theorem Halts.completes {r : EStateM.Result ε σ α} (h : Halts fault? Done n a r) (hnone : ∀ k < n, fault? k = none) :
    ∃ s, r = .ok a s ∧ Done n s := by
  obtain ⟨s, hs⟩ := h.ok_iff.mpr hnone
  exact ⟨s, hs, (h.of_ok hs).2.2⟩

/-- However it ended, some of the operations were done, and no others. -/
theorem Halts.left {r : EStateM.Result ε σ α} (h : Halts fault? Done n a r) : ∃ k ≤ n, Done k (stateOf r) := by
  cases h with
  | whole _ hdone => exact ⟨n, Nat.le_refl n, hdone⟩
  | @part k _ _ hk _ _ hdone => exact ⟨k, Nat.le_of_lt hk, hdone⟩

theorem Halts.bind_pure {x : EStateM ε σ α} {s : σ} (h : Halts fault? Done n a (x s)) (b : β) :
    Halts fault? Done n b ((x >>= fun _ => pure b) s) := by
  generalize hr : x s = r at h
  cases h with
  | whole hnone hdone => rw [bind_of_ok hr]; exact .whole hnone hdone
  | part hk hbefore hfault hdone => rw [bind_of_error hr]; exact .part hk hbefore hfault hdone

/-- One more operation. -/
theorem Halts.next {x act : EStateM ε σ PUnit} {s : σ} (h : Halts fault? Done n ⟨⟩ (x s))
    (hok : ∀ s, Done n s → fault? n = none → ∃ s', act s = .ok ⟨⟩ s' ∧ Done (n + 1) s')
    (herror : ∀ s e, Done n s → fault? n = some e → act s = .error e s) :
    Halts fault? Done (n + 1) ⟨⟩ ((x >>= fun _ => act) s) := by
  generalize hr : x s = r at h
  cases h with
  | part hk hbefore hfault hdone =>
      rw [bind_of_error hr]
      exact .part (Nat.lt_succ_of_lt hk) hbefore hfault hdone
  | @whole s hnone hdone =>
      rw [bind_of_ok hr]
      cases hf : fault? n with
      | some e =>
          rw [herror s e hdone hf]
          exact .part (Nat.lt_succ_self n) hnone hf hdone
      | none =>
          obtain ⟨s', hs', hdone'⟩ := hok s hdone hf
          rw [hs']
          refine .whole (fun k hk => ?_) hdone'
          rcases Nat.lt_succ_iff_lt_or_eq.mp hk with hlt | rfl
          · exact hnone k hlt
          · exact hf

theorem halts_forM {f : ι → EStateM ε σ PUnit} {items : List ι} {s : σ} (hs : Done 0 s)
    (hok : ∀ k (hk : k < items.length) s, Done k s → fault? k = none → ∃ s', f items[k] s = .ok ⟨⟩ s' ∧ Done (k + 1) s')
    (herror : ∀ k (hk : k < items.length) s e, Done k s → fault? k = some e → f items[k] s = .error e s) :
    Halts fault? Done items.length ⟨⟩ (items.forM f s) := by
  -- the loop is built up from its front, since `Done` counts the operations that were done
  have hprefix : ∀ n ≤ items.length, Halts fault? Done n ⟨⟩ ((items.take n).forM f s) := by
    intro n hn
    induction n with
    | zero => exact .whole (by simp) hs
    | succ n ih =>
        have happend : (items.take (n + 1)).forM f = (items.take n).forM f >>= fun _ => f items[n] := by
          rw [List.forM_eq_forM, List.take_succ_eq_append_getElem hn, List.forM_append]
          simp only [List.forM_cons, List.forM_nil, bind_pure_unit]
        rw [happend]
        exact (ih (Nat.le_of_succ_le hn)).next (hok n hn) (herror n hn)
  simpa using hprefix items.length (Nat.le_refl _)

/-! ## Loops over accesses that are checked beforehand -/

section Checks

variable {check : ι → Option ε} {items : List ι}

theorem forall_bind_eq_none_iff : (∀ k < items.length, items[k]?.bind check = none) ↔ ∀ i ∈ items, check i = none := by
  constructor
  · intro h i hi
    obtain ⟨k, hk, rfl⟩ := List.getElem_of_mem hi
    simpa [hk] using h k hk
  · intro h k hk
    simpa [hk] using h _ (List.getElem_mem hk)

/-- A loop that failed did so at the first item that has a fault. -/
theorem Halts.split {e : ε} {s : σ} (h : Halts (fun k => items[k]?.bind check) Done items.length a (.error e s)) :
    ∃ before i after, items = before ++ i :: after ∧ (∀ j ∈ before, check j = none) ∧ check i = some e ∧
      Done before.length s := by
  cases h with
  | @part k _ _ hk hbefore hfault hdone =>
      have hlength : (items.take k).length = k := List.length_take_of_le (Nat.le_of_lt hk)
      refine ⟨items.take k, items[k], items.drop (k + 1), ?_, forall_bind_eq_none_iff.mp fun j hj => ?_, ?_, ?_⟩
      · rw [List.getElem_cons_drop, List.take_append_drop]
      · rw [hlength] at hj
        rw [List.getElem?_take_of_lt hj]
        exact hbefore j hj
      · simpa [hk] using hfault
      · rwa [hlength]

/-- How a loop ends, and how far it comes, can be told from the faults of its items. -/
theorem Halts.told {r : EStateM.Result ε σ α} (h : Halts (fun k => items[k]?.bind check) Done items.length a r) :
    outcomeOf r = (items.findSome? check).elim (.ok a) .error ∧
    Done (items.takeWhile fun i => (check i).isNone).length (stateOf r) := by
  cases r with
  | ok a' s =>
      cases h with
      | whole hnone hdone =>
          have hall := forall_bind_eq_none_iff.mp hnone
          have hwhile : (items.takeWhile fun i => (check i).isNone) = items :=
            List.takeWhile_eq_self_iff.mpr (by simpa using hall)
          rw [List.findSome?_eq_none_iff.mpr hall, hwhile]
          exact ⟨rfl, hdone⟩
  | error e s =>
      obtain ⟨before, i, after, rfl, hbefore, hi, hdone⟩ := h.split
      have hfind : (before ++ i :: after).findSome? check = some e := by
        simp [List.findSome?_append, List.findSome?_eq_none_iff.mpr hbefore, hi]
      have hwhile : ((before ++ i :: after).takeWhile fun i => (check i).isNone) = before := by
        rw [List.takeWhile_append_of_pos (by simpa using hbefore)]
        simp [hi]
      rw [hfind, hwhile]
      exact ⟨rfl, hdone⟩

end Checks

end ChipEight.Effect
