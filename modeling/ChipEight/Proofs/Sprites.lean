import ChipEight.Proofs.Lemmas.Telling

/-!
# What a draw does to the display

A draw is an exclusive or of its sprite with what is on the display. A draw that fails has done so for the points
that come before its first access that is refused. The refusal is told if the size of the display can be written.
-/

namespace ChipEight.Board

open Effect

variable {i : Instruction} {b b' : Board}

/-- The pixels at some points were flipped and no others. The flag tells whether one of them was on, and nothing
else has changed. -/
structure Drawn (points : Set Point) (b b' : Board) : Prop where
  pixel : ∀ p, b.display.Contains p.1 p.2 → (b'.display.isOn p ≠ b.display.isOn p ↔ p ∈ points)
  extent : b'.display.extent = b.display.extent
  raised : (∃ p ∈ points, b.display.isOn p = true) → b'.processor.flag = 1
  lowered : (¬ ∃ p ∈ points, b.display.isOn p = true) → b'.processor.flag = 0
  rest : b' = { b with
    processor := b.processor.setV Processor.flagRegister b'.processor.flag
    display := b'.display }

theorem drawn_flipAll {accesses : List Access} (hnodup : (Access.points accesses).Nodup) (b : Board) :
    Drawn {p | .flip p ∈ accesses} b (b.lowered.flipAll (Access.points accesses)) := by
  have hpoint : ∀ p, p ∈ {p | Access.flip p ∈ accesses} ↔ p ∈ Access.points accesses :=
    fun p => Access.mem_points.symm
  rw [flipAll_lowered hnodup]
  refine { pixel := fun p hp => ?pixel, extent := Display.extent_flipAll _ _, raised := fun h => ?raised,
           lowered := fun h => ?lowered, rest := ?rest }
  case pixel =>
    rw [hpoint, Display.isOn_flipAll_of_nodup hnodup hp]
    cases b.display.isOn p <;> simp
  case raised =>
    have hany : (Access.points accesses).any b.display.isOn = true := by simpa [hpoint] using h
    simp [hany]
  case lowered =>
    have hany : (Access.points accesses).any b.display.isOn = false := by simpa [hpoint] using h
    simp [hany]
  case rest => rw [Processor.flag_setV]

theorem drawn_take (i : Instruction) (b : Board) (k : Nat) :
    Drawn {p | .flip p ∈ (scan i b).take k} b (b.lowered.flipAll (Access.points ((scan i b).take k))) :=
  drawn_flipAll ((nodup_points_scan i b).sublist ((List.take_sublist k _).filterMap _)) b

theorem points_of_scan (i : Instruction) (b : Board) : {p | .flip p ∈ scan i b} = sprite i b :=
  Set.ext fun _ => flip_mem_scan

/-- A draw succeeds if and only if its bytes are in memory and its points are on the display. Then it flips the pixels
at its points and no others. -/
theorem draw_flips_its_sprite (hi : 0 ≤ b.processor.i) (hd : i.family = 0xD) :
    ((∃ b', execute i b = .ok none b') ↔
      (i.n = 0 ∨ b.processor.i + i.n ≤ b.memory.size) ∧ ∀ p ∈ sprite i b, b.display.Contains p.1 p.2) ∧
    ∀ next b', execute i b = .ok next b' → next = none ∧ Drawn (sprite i b) b b' := by
  have hhalts := execute_draw_halts hd (b := b)
  refine ⟨hhalts.ok_iff.trans (forall_bind_eq_none_iff.trans (allowed_scan_iff hi)), fun next b' h => ?_⟩
  rw [h] at hhalts
  cases hhalts with
  | whole _ hdone =>
      have hdrawn := drawn_take i b (scan i b).length
      rw [← hdone, List.take_length, points_of_scan] at hdrawn
      exact ⟨rfl, hdrawn⟩

/-- Two rows up to the right and the lower edge. The flag register holds the row to begin with, and one of the points
is on. -/
theorem draw_places_sprite_by_flag :
    ∃ (i : Instruction) (b b' : Board), 0 ≤ b.processor.i ∧ i.family = 0xD ∧ i.y = Processor.flagRegister ∧
      execute i b = .ok none b' ∧ Drawn (sprite i b) b b' ∧ b'.processor.flag = 1 ∧
      b'.display.isOn (4, 1) = false ∧ b'.display.isOn (11, 1) = true := by
  let i : Instruction := .ofInt 0xD0F2
  let b : Board :=
    { processor := ((Processor.fresh 0x200 none).setV 0 4).setV 15 1
      memory := ⟨#[0x81, 0xC0]⟩
      display := (Display.blank 12 3).flip (4, 1) }
  have hnone : outcomeOf (execute i b) = .ok none := by decide +kernel
  have hexecute := eq_ok_of_outcomeOf hnone
  have hi : 0 ≤ b.processor.i := by decide
  have hd : i.family = 0xD := by decide
  exact ⟨i, b, _, hi, hd, by decide, hexecute, ((draw_flips_its_sprite hi hd).2 _ _ hexecute).2,
    by decide +kernel, by decide +kernel, by decide +kernel⟩

theorem execute_of_told {failure : Failure} (h : told (execute i) b = .error failure b') :
    ∃ fault, execute i b = .error fault b' ∧ failure = fault.failure := by
  rw [told, EStateM.adaptExcept] at h
  cases he : execute i b with
  | ok next b₁ => rw [he] at h; cases h
  | error fault b₁ => rw [he] at h; cases h; exact ⟨fault, rfl, rfl⟩

/-- A draw that fails does so at the first of its accesses that is refused. The pixels of the accesses before that are
flipped and no others. The failure is the fault of that access, and if the size of the display can be written, it is
reported as such. -/
theorem failed_draw_flips_prefix {failure : Failure} (hd : i.family = 0xD)
    (h : told (execute i) b = .error failure b') :
    ∃ before access after fault, scan i b = before ++ access :: after ∧ (∀ a ∈ before, a.fault? b = none) ∧
      access.fault? b = some fault ∧ Drawn {p | .flip p ∈ before} b b' ∧ failure = fault.failure ∧
      (Numeral.Writable b.display.width → Numeral.Writable b.display.height → failure = .reported fault.report) := by
  obtain ⟨fault, hexecute, rfl⟩ := execute_of_told h
  have hhalts := execute_draw_halts hd (b := b)
  rw [hexecute] at hhalts
  obtain ⟨before, access, after, hscan, hbefore, haccess, hdone⟩ := hhalts.split
  have hdrawn := drawn_take i b before.length
  rw [← hdone, hscan, List.take_left] at hdrawn
  refine ⟨before, access, after, fault, hscan, hbefore, haccess, hdrawn, rfl, fun hwidth hheight => ?_⟩
  exact Fault.failure_of_tellable (tellable_of_draw hd hexecute hwidth hheight)

/-- Three rows of which memory has two. The second one is off the display at its right end, and that comes first. -/
theorem failed_draw_of_second_row :
    ∃ (i : Instruction) (b b' : Board) (failure : Failure), i.family = 0xD ∧
      told (execute i) b = .error failure b' ∧ b'.display.isOn (7, 1) = true ∧
      ∃ before access after fault, scan i b = before ++ access :: after ∧ (∀ a ∈ before, a.fault? b = none) ∧
        access.fault? b = some fault ∧ Drawn {p | .flip p ∈ before} b b' ∧ failure = fault.failure ∧
        (Numeral.Writable b.display.width → Numeral.Writable b.display.height → failure = .reported fault.report) := by
  let i : Instruction := .ofInt 0xD013
  let b : Board :=
    { processor := (Processor.fresh 0x200 none).setV 0 5
      memory := ⟨#[0xC0, 0x3C]⟩
      display := Display.blank 8 2 }
  have hfault : outcomeOf (told (execute i) b) = .error (Fault.outsideDisplay 8 1 8 2).failure := by decide +kernel
  have hexecute := eq_error_of_outcomeOf hfault
  have hd : i.family = 0xD := by decide
  exact ⟨i, b, _, _, hd, hexecute, by decide +kernel, failed_draw_flips_prefix hd hexecute⟩

/-- A display without rows, whose width is too long to be written, refuses a point, but that is not reported. -/
theorem untold_draw_is_not_reported :
    ∃ (m : Machine) (i : Instruction), m.Reachable ∧ i.family = 0xD ∧
      Access.fault? m.board (.flip (0, 0)) = some (.outsideDisplay 0 0 Numeral.unwritable 0) ∧
      outcomeOf (told (execute i) m.board) = .error .unwritable := by
  let config : Machine.Config := { memorySize := 1, displayWidth := Numeral.unwritable, displayHeight := 0 }
  let m : Machine := (Machine.new config).after [.memory (.writeByte 0 0x80)]
  have hreachable : m.Reachable := ⟨config, _, by decide, rfl⟩
  exact ⟨m, .ofInt 0xD001, hreachable, by decide, by decide +kernel, by decide +kernel⟩

end ChipEight.Board
