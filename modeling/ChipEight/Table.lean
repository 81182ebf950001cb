/-!
Tables in the order in which their keys first came: a key put again keeps its place and takes the
new value.
-/
namespace ChipEight

variable {α β : Type} [DecidableEq α]

structure Table (α β : Type) where
  entries : List (α × β)
  nodup : (entries.map Prod.fst).Nodup

namespace Table

/-- Entries with one more key at the end, or with a new value at the place of an old key. -/
def putEntry (key : α) (value : β) : List (α × β) → List (α × β)
  | [] => [(key, value)]
  | entry :: rest =>
    if entry.1 = key then (key, value) :: rest else entry :: putEntry key value rest

theorem mem_keys_putEntry {key k : α} {value : β} {entries : List (α × β)} :
    k ∈ (putEntry key value entries).map Prod.fst ↔ k = key ∨ k ∈ entries.map Prod.fst := by
  induction entries with
  | nil => simp [putEntry]
  | cons entry rest ih =>
    by_cases h : entry.1 = key
    · simp [putEntry, h]
    · simp only [putEntry, h, if_false, List.map_cons, List.mem_cons, ih]
      constructor
      · rintro (rfl | rfl | hk)
        · exact .inr (.inl rfl)
        · exact .inl rfl
        · exact .inr (.inr hk)
      · rintro (rfl | rfl | hk)
        · exact .inr (.inl rfl)
        · exact .inl rfl
        · exact .inr (.inr hk)

theorem nodup_putEntry {key : α} {value : β} {entries : List (α × β)}
    (h : (entries.map Prod.fst).Nodup) : ((putEntry key value entries).map Prod.fst).Nodup := by
  induction entries with
  | nil => simp [putEntry]
  | cons entry rest ih =>
    simp only [List.map_cons, List.nodup_cons] at h
    by_cases hk : entry.1 = key
    · rw [putEntry, if_pos hk, List.map_cons, List.nodup_cons]
      exact hk ▸ h
    · rw [putEntry, if_neg hk, List.map_cons, List.nodup_cons, mem_keys_putEntry, not_or]
      exact ⟨⟨hk, h.1⟩, ih h.2⟩

def empty : Table α β := ⟨[], by simp⟩

def put (key : α) (value : β) (t : Table α β) : Table α β :=
  ⟨putEntry key value t.entries, nodup_putEntry t.nodup⟩

/-- Puts pairs one after another, so that each key has the place of its first pair and the value of
its last. -/
def ofList (pairs : List (α × β)) : Table α β :=
  pairs.foldl (fun t pair => t.put pair.1 pair.2) empty

def get? (key : α) (t : Table α β) : Option β :=
  (t.entries.find? (·.1 = key)).map Prod.snd

end Table
end ChipEight
