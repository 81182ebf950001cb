import ChipEight.Table

/-!
# Lookups in tables

A key that is put has its new value and the others keep theirs. So a table of pairs has for each key the value of the
last pair with that key.
-/

namespace ChipEight.Table

variable {α β : Type} [DecidableEq α] {key k : α} {value : β}

theorem get?_cons {entry : α × β} {rest : List (α × β)} (h : ((entry :: rest).map Prod.fst).Nodup) :
    get? key ⟨entry :: rest, h⟩ =
      if entry.1 = key then some entry.2 else get? key ⟨rest, (List.nodup_cons.mp h).2⟩ := by
  by_cases heq : entry.1 = key <;> simp [get?, heq]

theorem get?_eq_none {entries : List (α × β)} (hk : key ∉ entries.map Prod.fst)
    (h : (entries.map Prod.fst).Nodup) : get? key ⟨entries, h⟩ = none := by
  have hne : ∀ entry ∈ entries, entry.1 ≠ key := fun entry he heq =>
    hk (heq ▸ List.mem_map_of_mem he)
  simpa [get?] using fun a b he => hne (a, b) he

/-- The first entries already have the value of each key that they hold. -/
theorem get?_append {first rest : List (α × β)} (h : ((first ++ rest).map Prod.fst).Nodup)
    (hfirst : (first.map Prod.fst).Nodup) (hk : key ∈ first.map Prod.fst) :
    get? key ⟨first ++ rest, h⟩ = get? key ⟨first, hfirst⟩ := by
  obtain ⟨entry, hentry, rfl⟩ := List.mem_map.mp hk
  have hfound : (first.find? (·.1 = entry.1)).isSome = true := by
    simp only [List.find?_isSome, decide_eq_true_eq]
    exact ⟨entry, hentry, rfl⟩
  simp [get?, List.find?_append, Option.or_of_isSome hfound]

theorem keys_putEntry (key : α) (value : β) (entries : List (α × β)) :
    (putEntry key value entries).map Prod.fst =
      if key ∈ entries.map Prod.fst then entries.map Prod.fst else entries.map Prod.fst ++ [key] := by
  induction entries with
  | nil => simp [putEntry]
  | cons entry rest ih =>
      by_cases heq : entry.1 = key
      · simp [putEntry, heq]
      · simp only [putEntry, heq, if_false, List.map_cons, ih, List.mem_cons, Ne.symm heq, false_or]
        split <;> rfl

theorem get?_put (key k : α) (value : β) (t : Table α β) :
    (t.put key value).get? k = if key = k then some value else t.get? k := by
  obtain ⟨entries, nodup⟩ := t
  simp only [get?, put]
  clear nodup
  induction entries with
  | nil => by_cases hk : key = k <;> simp [putEntry, hk]
  | cons entry rest ih =>
      by_cases heq : entry.1 = key
      · subst heq
        by_cases hk : entry.1 = k <;> simp [putEntry, hk]
      · by_cases hentry : entry.1 = k
        · subst hentry
          simp [putEntry, heq, Ne.symm heq]
        · simpa [putEntry, heq, hentry] using ih

/-! ## Tables of pairs -/

theorem mem_keys_foldl_put (pairs : List (α × β)) (t : Table α β) :
    k ∈ (pairs.foldl (fun t pair => t.put pair.1 pair.2) t).entries.map Prod.fst ↔
      k ∈ t.entries.map Prod.fst ∨ k ∈ pairs.map Prod.fst := by
  induction pairs generalizing t with
  | nil => simp
  | cons pair pairs ih =>
      rw [List.foldl_cons, ih, put, mem_keys_putEntry, List.map_cons, List.mem_cons, or_assoc, or_left_comm]

theorem mem_keys_ofList (pairs : List (α × β)) :
    k ∈ (ofList pairs).entries.map Prod.fst ↔ k ∈ pairs.map Prod.fst := by
  rw [ofList, mem_keys_foldl_put]
  simp [empty]

/-- Keys keep their places. -/
theorem keys_prefix_foldl_put (pairs : List (α × β)) (t : Table α β) :
    t.entries.map Prod.fst <+: (pairs.foldl (fun t pair => t.put pair.1 pair.2) t).entries.map Prod.fst := by
  induction pairs generalizing t with
  | nil => simp
  | cons pair pairs ih =>
      have hput : t.entries.map Prod.fst <+: (t.put pair.1 pair.2).entries.map Prod.fst := by
        rw [put, keys_putEntry]
        split <;> simp
      exact hput.trans (ih _)

theorem keys_prefix_ofList (before after : List (α × β)) :
    (ofList before).entries.map Prod.fst <+: (ofList (before ++ after)).entries.map Prod.fst := by
  rw [ofList, ofList, List.foldl_append]
  exact keys_prefix_foldl_put _ _

theorem get?_foldl_put {pairs : List (α × β)} (h : k ∉ pairs.map Prod.fst) (t : Table α β) :
    (pairs.foldl (fun t pair => t.put pair.1 pair.2) t).get? k = t.get? k := by
  induction pairs generalizing t with
  | nil => rfl
  | cons pair pairs ih =>
      simp only [List.map_cons, List.mem_cons, not_or] at h
      obtain ⟨hne, hrest⟩ := h
      simp [ih hrest, get?_put, Ne.symm hne]

/-- The last pair with a key counts. -/
theorem get?_ofList_append (before : List (α × β)) {after : List (α × β)} (h : k ∉ after.map Prod.fst) :
    (ofList (before ++ (k, value) :: after)).get? k = some value := by
  simp [ofList, List.foldl_append, get?_foldl_put h, get?_put]

end ChipEight.Table
