import ChipEight.Machine

/-!
# Sizes that can be had

A machine can be built if its memory has a size that is not negative and that there is room for, and if there is room
for its rows, unless it has none. A machine of other sizes, but for a negative memory, fails by an overflow or for want
of room.
-/

namespace ChipEight

variable {room : Room}

theorem Memory.checkSize_eq_ok_iff {size : Int} :
    checkSize room size = .ok () ↔ 0 ≤ size ∧ Bounds.Fits size ∧ room.bytes size.toNat = true := by
  unfold checkSize
  by_cases hfits : Bounds.Fits size
  · by_cases hneg : size < 0
    · rw [if_neg (not_not_intro hfits), if_pos hneg]
      exact ⟨nofun, fun h => absurd h.1 (Int.not_le.mpr hneg)⟩
    · rw [if_neg (not_not_intro hfits), if_neg hneg]
      split
      · rename_i hroom
        exact ⟨fun _ => ⟨Int.not_lt.mp hneg, hfits, hroom⟩, fun _ => rfl⟩
      · rename_i hroom
        exact ⟨nofun, fun h => absurd h.2.2 hroom⟩
  · rw [if_pos hfits]
    exact ⟨nofun, fun h => absurd h.2.1 hfits⟩

theorem Memory.failure_of_checkSize {size : Int} {failure : Failure} (hsize : 0 ≤ size)
    (h : checkSize room size = .error failure) : failure = .overflow ∨ failure = .noRoom := by
  unfold checkSize at h
  rw [if_neg (Int.not_lt.mpr hsize)] at h
  split at h
  · cases h; exact Or.inl rfl
  · split at h
    · cases h
    · cases h; exact Or.inr rfl

theorem Display.checkSize_eq_ok_iff {width height : Int} :
    checkSize room width height = .ok () ↔
      (0 < height → Bounds.Fits width ∧ room.rows width.toNat height.toNat = true) := by
  unfold checkSize
  by_cases hrows : 0 < height
  · rw [if_neg (Int.not_le.mpr hrows)]
    by_cases hfits : Bounds.Fits width
    · rw [if_neg (not_not_intro hfits)]
      split
      · rename_i hroom
        exact ⟨fun _ _ => ⟨hfits, hroom⟩, fun _ => rfl⟩
      · rename_i hroom
        exact ⟨nofun, fun h => absurd (h hrows).2 hroom⟩
    · rw [if_pos hfits]
      exact ⟨nofun, fun h => absurd (h hrows).1 hfits⟩
  · rw [if_pos (Int.not_lt.mp hrows)]
    exact ⟨fun _ h => absurd h hrows, fun _ => rfl⟩

theorem Display.failure_of_checkSize {width height : Int} {failure : Failure}
    (h : checkSize room width height = .error failure) : failure = .overflow ∨ failure = .noRoom := by
  unfold checkSize at h
  split at h
  · cases h
  · split at h
    · cases h; exact Or.inl rfl
    · split at h
      · cases h
      · cases h; exact Or.inr rfl

namespace Machine

/-- Memory and rows of these sizes can be had. -/
structure Config.Buildable (room : Room) (config : Config) : Prop where
  memory : 0 ≤ config.memorySize ∧ Bounds.Fits config.memorySize ∧ room.bytes config.memorySize.toNat = true
  rows : 0 < config.displayHeight →
    Bounds.Fits config.displayWidth ∧ room.rows config.displayWidth.toNat config.displayHeight.toNat = true

variable {config : Config}

theorem Config.check_eq_ok_iff : config.check room = .ok () ↔ config.Buildable room := by
  show Except.bind (Memory.checkSize room config.memorySize) _ = _ ↔ _
  cases hc : Memory.checkSize room config.memorySize with
  | ok =>
      show Display.checkSize room config.displayWidth config.displayHeight = _ ↔ _
      rw [Display.checkSize_eq_ok_iff]
      exact ⟨fun h => ⟨Memory.checkSize_eq_ok_iff.mp hc, h⟩, fun h => h.rows⟩
  | error failure =>
      refine ⟨nofun, fun h => ?_⟩
      rw [Memory.checkSize_eq_ok_iff.mpr h.memory] at hc
      cases hc

/-- What cannot be built fails by an overflow or for want of room, if the size of its memory is not negative. -/
theorem Config.check_of_not_buildable (hsize : 0 ≤ config.memorySize) (h : ¬ config.Buildable room) :
    config.check room = .error .overflow ∨ config.check room = .error .noRoom := by
  have hfailure : ∀ {failure}, config.check room = .error failure → failure = .overflow ∨ failure = .noRoom := by
    intro failure hc
    change Except.bind (Memory.checkSize room config.memorySize) _ = _ at hc
    cases hm : Memory.checkSize room config.memorySize with
    | ok => rw [hm] at hc; exact Display.failure_of_checkSize hc
    | error failure' =>
        rw [hm] at hc
        cases hc
        exact Memory.failure_of_checkSize hsize hm
  cases hc : config.check room with
  | ok => exact absurd (Config.check_eq_ok_iff.mp hc) h
  | error failure => exact (hfailure hc).imp (congrArg _) (congrArg _)

theorem Config.check_of_usual_display (hsize : 0 ≤ config.memorySize ∧ config.memorySize ≤ 65536)
    (hroom : room.bytes config.memorySize.toNat = true)
    (hdisplay : (config.displayWidth, config.displayHeight) = (64, 32)) : config.check room = .ok () := by
  obtain ⟨hwidth, hheight⟩ := Prod.mk.inj hdisplay
  have hlow : -Int.pow 2 63 ≤ 0 := by decide +kernel
  have hhigh : (65536 : Int) < Int.pow 2 63 := by decide +kernel
  have hfits : Bounds.Fits config.memorySize :=
    ⟨Int.le_trans hlow hsize.1, Int.lt_of_le_of_lt hsize.2 hhigh⟩
  refine Config.check_eq_ok_iff.mpr ⟨⟨hsize.1, hfits, hroom⟩, fun _ => ?_⟩
  rw [hwidth, hheight]
  exact ⟨by decide +kernel, room.rows_default⟩

/-- The default sizes can always be had. -/
theorem Config.check_default (room : Room) (start : Int) (maxDepth : Option Int) :
    Config.check room { start, maxDepth } = .ok () := by
  refine Config.check_of_usual_display ?_ room.bytes_default rfl
  show (0 : Int) ≤ 4096 ∧ (4096 : Int) ≤ 65536
  decide

end Machine
end ChipEight
