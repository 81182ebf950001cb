import ChipEight.Proofs.Lemmas.Table
import ChipEight.Service

/-!
# Values by their addresses

If all keys of a request write addresses, its values come into a table at these addresses and no others. Of the values
for one address the last counts.
-/

namespace ChipEight.Service

variable {values before after : List (String × Int)} {addr value : Int} {key : String}

/-- The key of a value writes an address that the memory of a run does not have. -/
def Astray (request : RunRequest) : Prop :=
  ∃ entry ∈ request.chosen.memory, ∃ addr, Numeral.literal? entry.1 = some addr ∧ ¬ (0 ≤ addr ∧ addr ≤ 4095)

/-- A value with the address that its key writes. -/
def addressEntry (entry : String × Int) : Except Refusal (Int × Int) :=
  match Numeral.literal? entry.1 with
  | some addr => .ok (addr, entry.2)
  | none => .error (.notAddress entry.1)

theorem addressed_eq (values : List (String × Int)) :
    addressed values = values.mapM addressEntry >>= fun pairs => pure (.ofList pairs) := rfl

/-- The values whose keys write addresses, with these. -/
def written (values : List (String × Int)) : List (Int × Int) :=
  values.filterMap fun entry => (Numeral.literal? entry.1).map fun addr => (addr, entry.2)

theorem mem_keys_written :
    addr ∈ (written values).map Prod.fst ↔ ∃ entry ∈ values, Numeral.literal? entry.1 = some addr := by
  simp only [written, List.mem_map, List.mem_filterMap, Option.map_eq_some_iff]
  constructor
  · rintro ⟨pair, ⟨entry, hentry, k, hk, rfl⟩, rfl⟩
    exact ⟨entry, hentry, hk⟩
  · rintro ⟨entry, hentry, haddr⟩
    exact ⟨(addr, entry.2), ⟨entry, hentry, addr, haddr, rfl⟩, rfl⟩

theorem mapM_addressEntry (h : ∀ entry ∈ values, ∃ addr, Numeral.literal? entry.1 = some addr) :
    values.mapM addressEntry = .ok (written values) := by
  induction values with
  | nil => rfl
  | cons entry rest ih =>
      simp only [List.mem_cons, forall_eq_or_imp] at h
      obtain ⟨⟨addr, haddr⟩, hrest⟩ := h
      have hentry : addressEntry entry = .ok (addr, entry.2) := by rw [addressEntry, haddr]
      have hwritten : written (entry :: rest) = (addr, entry.2) :: written rest := by simp [written, haddr]
      rw [List.mapM_cons, hentry, ih hrest, hwritten]
      rfl

theorem addressed_eq_written (h : ∀ entry ∈ values, ∃ addr, Numeral.literal? entry.1 = some addr) :
    addressed values = .ok (.ofList (written values)) := by
  rw [addressed_eq, mapM_addressEntry h]
  rfl

theorem addressed_of_literals (h : ∀ entry ∈ values, ∃ addr, Numeral.literal? entry.1 = some addr) :
    ∃ table, addressed values = .ok table ∧
      ∀ addr, addr ∈ table.entries.map Prod.fst ↔ ∃ entry ∈ values, Numeral.literal? entry.1 = some addr :=
  ⟨_, addressed_eq_written h, fun addr => by rw [Table.mem_keys_ofList, mem_keys_written]⟩

/-- The first key that writes no address is the reason why values are refused. -/
theorem addressed_of_refused (hbefore : ∀ entry ∈ before, ∃ addr, Numeral.literal? entry.1 = some addr)
    (hkey : Numeral.literal? key = none) :
    addressed (before ++ (key, value) :: after) = .error (.notAddress key) := by
  have hentry : addressEntry (key, value) = .error (.notAddress key) := by rw [addressEntry, hkey]
  rw [addressed_eq, List.mapM_append, mapM_addressEntry hbefore, List.mapM_cons, hentry]
  rfl

/-- The last value for an address is the one that stands there. -/
theorem get?_written (hkey : Numeral.literal? key = some addr)
    (hlast : ∀ entry ∈ after, Numeral.literal? entry.1 ≠ some addr) :
    (Table.ofList (written (before ++ (key, value) :: after))).get? addr = some value := by
  have hnone : addr ∉ (written after).map Prod.fst := by
    rw [mem_keys_written]
    rintro ⟨entry, hentry, haddr⟩
    exact hlast entry hentry haddr
  have hparts : written (before ++ (key, value) :: after) = written before ++ (addr, value) :: written after := by
    simp [written, hkey]
  rw [hparts, Table.get?_ofList_append _ hnone]

end ChipEight.Service
