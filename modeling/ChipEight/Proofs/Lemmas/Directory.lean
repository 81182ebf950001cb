import ChipEight.Directory
import ChipEight.Proofs.Lemmas.Table

/-!
# Names of files

A name with a null character is refused as such, whatever the directory holds, and no other name is. A file
that was read has a last step to it.
-/

namespace ChipEight

namespace Directory

variable {d d' : Directory} {name : String} {image : List Byte} {fault : FileFault}

theorem walk_ne_null (d : Directory) (taken names : List String) :
    d.walk taken names ≠ .error .nullCharacter := by
  induction names generalizing taken with
  | nil => simp [walk]
  | cons step rest ih =>
      rw [walk]
      split
      · exact ih _
      · split
        · simp
        · split
          · simp
          · split <;> simp

theorem find_eq_null_iff : d.find name = .error .nullCharacter ↔ '\x00' ∈ name.toList := by
  unfold find
  by_cases hn : '\x00' ∈ name.toList
  · rw [if_pos (by simpa using hn)]
    exact iff_of_true rfl hn
  · rw [if_neg (by simpa using hn)]
    refine iff_of_false ?_ hn
    split
    · simp
    · exact walk_ne_null d [] _

theorem read_of_found {path : List String} (h : d.find name = .ok path) :
    d.read name = match d.files.get? path with
      | some image => .ok image
      | none => .error .absent := by
  unfold read
  rw [h]
  show (match d.files.get? path with | some image => pure image | none => throw FileFault.absent) = _
  cases d.files.get? path <;> rfl

theorem read_of_not_found (h : d.find name = .error fault) : d.read name = .error fault := by
  unfold read
  rw [h]
  rfl

theorem read_eq_null_iff : d.read name = .error .nullCharacter ↔ '\x00' ∈ name.toList := by
  rw [← find_eq_null_iff (d := d)]
  cases hf : d.find name with
  | error fault => rw [read_of_not_found hf, Except.error.injEq, Except.error.injEq]
  | ok path =>
      rw [read_of_found hf]
      refine iff_of_false ?_ (by simp)
      cases d.files.get? path <;> simp

/-- What cannot be written cannot be read, for the same reason. -/
theorem read_of_not_written (h : d.write name image = .error fault) : d.read name = .error fault := by
  unfold write at h
  cases hf : d.find name with
  | error found => rw [hf] at h; cases h; exact read_of_not_found hf
  | ok path => rw [hf] at h; cases h

theorem find_of_written (h : d.write name image = .ok d') : ∃ path, d.find name = .ok path := by
  unfold write at h
  cases hf : d.find name with
  | error fault => rw [hf] at h; cases h
  | ok path => exact ⟨path, rfl⟩

/-- No file stands on the way to a place where one can be, so that place does not depend on the files. -/
theorem walk_of_walk {taken names path : List String} (h : d.walk taken names = .ok path) (d' : Directory) :
    d'.walk taken names = .ok path := by
  induction names generalizing taken with
  | nil => cases h
  | cons step rest ih =>
      rw [walk] at h ⊢
      by_cases hup : step = up ∨ step = root
      · rw [if_pos hup] at h ⊢
        exact ih h
      · rw [if_neg hup] at h ⊢
        by_cases hlong : stepLimit < step.utf8ByteSize
        · rw [if_pos hlong] at h; cases h
        · rw [if_neg hlong] at h ⊢
          cases hrest : rest.isEmpty with
          | true => rw [hrest] at h; exact h
          | false => rw [hrest, if_neg Bool.false_ne_true] at h; split at h <;> cases h

theorem find_of_find {path : List String} (h : d.find name = .ok path) (hlimit : d'.pathLimit = d.pathLimit) :
    d'.find name = .ok path := by
  unfold find at h ⊢
  rw [hlimit]
  split
  · rename_i hnull; rw [if_pos hnull] at h; cases h
  · rename_i hnull
    rw [if_neg hnull] at h
    split
    · rename_i hlong; rw [if_pos hlong] at h; cases h
    · rename_i hlong; rw [if_neg hlong] at h; exact walk_of_walk h d'

theorem write_of_found {path : List String} (h : d.find name = .ok path) (image : List Byte) :
    d.write name image = .ok { d with files := d.files.put path image } := by
  unfold write
  rw [h]
  rfl

theorem read_of_put {path : List String} (h : d.find name = .ok path) (image : List Byte) :
    read { d with files := d.files.put path image } name = .ok image := by
  have hfind : find { d with files := d.files.put path image } name = .ok path := find_of_find h rfl
  rw [read_of_found hfind, Table.get?_put, if_pos rfl]

theorem lastStep_of_read (h : d.read name = .ok image) : ∃ step, lastStep name = some step := by
  unfold lastStep
  cases hs : steps name with
  | cons step rest => exact ⟨_, List.getLast?_eq_some_getLast (List.cons_ne_nil step rest)⟩
  | nil =>
      -- a name that takes no step leads to the directory itself
      have hfind : ∃ fault, d.find name = .error fault := by
        unfold find
        rw [hs]
        split
        · exact ⟨_, rfl⟩
        · exact ⟨_, rfl⟩
      obtain ⟨fault, hfind⟩ := hfind
      rw [read_of_not_found hfind] at h
      cases h

end Directory
end ChipEight
