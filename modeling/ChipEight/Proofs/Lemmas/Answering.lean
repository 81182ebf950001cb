import ChipEight.Proofs.Lemmas.Addressed
import ChipEight.Proofs.Lemmas.Framework
import ChipEight.Proofs.Lemmas.Listing
import ChipEight.Proofs.Lemmas.Telling

/-!
# The parts of a request and its answer

A request that passes is answered by what its image and its keys come to; the first of them that is refused is the
answer. Its run is on a machine of the default sizes, with limits that are positive (`Moderate`), so that it always
comes to a result.
-/

namespace ChipEight

open Effect

/-! ## The beginning of a run -/

namespace Run

variable {image : List Byte} {o : Options} {m : Machine} {r : Result}

/-- The run begins with `m`: it cycles from there, or it ends there, since something could not be loaded. -/
inductive Begins (image : List Byte) (o : Options) : Machine → Result → Prop
  | loaded {m : Machine} (h : load image o (.new o.toConfig) = .ok () m) :
      Begins image o m (loop o o.maxSteps.toNat [] m)
  | refused {fault : Fault} {m : Machine} (h : load image o (.new o.toConfig) = .error fault m) :
      Begins image o m { final := m, halted := false, trace := [], fault := some (.reported fault.report) }

theorem begins_result (hsize : 0 ≤ o.memorySize) :
    Begins image o (stateOf (load image o (.new o.toConfig))) (result image o) := by
  cases hload : load image o (.new o.toConfig) with
  | ok _ m =>
      rw [result_of_loaded hload]
      exact .loaded hload
  | error fault m =>
      have hfault := told_of_refused hsize hload
      rw [result_of_refused hload] at hfault ⊢
      have hfailure : fault.failure = .reported fault.report := Option.some.inj hfault
      rw [hfailure]
      exact .refused hload

theorem Begins.cycles (h : Begins image o m r) : m.cycles = 0 := by
  have hkeeps := load_keeps image o (.new o.toConfig)
  cases h with
  | loaded h | refused h =>
      rw [h] at hkeeps
      exact congrArg Machine.cycles hkeeps

end Run

namespace Service

variable {framework : Framework} {room : Room} {body : Json} {bytes : List Byte} {values : Table Int Int}
  {refusal : Refusal} {o : Run.Options}

/-! ## Options -/

/-- The options are for a machine of the default sizes, and their limits are positive and not great. -/
structure Moderate (o : Run.Options) : Prop where
  config : o.toConfig = { maxDepth := o.maxDepth }
  maxSteps : 1 ≤ o.maxSteps ∧ o.maxSteps ≤ 1000000
  maxDepth : ∀ depth, o.maxDepth = some depth → 1 ≤ depth ∧ depth ≤ 256

theorem memorySize_of_moderate (h : Moderate o) : o.memorySize = 4096 := congrArg Machine.Config.memorySize h.config

theorem memorySize_nonneg_of_moderate (h : Moderate o) : 0 ≤ o.memorySize := by
  rw [memorySize_of_moderate h]
  decide

theorem start_of_moderate (h : Moderate o) : o.start = 512 := congrArg Machine.Config.start h.config

theorem start_in_range_of_moderate (h : Moderate o) : 0 ≤ o.start ∧ o.start < 65536 := by
  rw [start_of_moderate h]
  decide

theorem moderate_options {settings : Settings} (h : settings.Bounded) (values : Table Int Int) :
    Moderate (settings.options values) := ⟨rfl, h.maxSteps, h.maxDepth⟩

theorem run_of_moderate (h : Moderate o) (bytes : List Byte) (room : Room) :
    Run.run bytes o room = .ok (Run.result bytes o) := by
  have hbuild : o.toConfig.Buildable room := by
    rw [h.config]
    exact Machine.Config.check_eq_ok_iff.mp (Machine.Config.check_default room _ o.maxDepth)
  have hplain : o.toConfig.Plain := by
    rw [h.config]
    refine Machine.Config.plain_of_usual (fun depth hdepth => ?_) rfl
    obtain ⟨hlow, hhigh⟩ := h.maxDepth depth hdepth
    exact Numeral.writable_of_small (by omega) (by omega)
  exact Run.run_of_plain bytes hbuild hplain

/-! ## Images -/

theorem length_of_image {text : String} (h : image text = .ok bytes) : bytes.length ≤ imageLimit := by
  unfold image at h
  split at h
  · cases h
  · split at h
    · cases h
    · rename_i hlimit
      cases h
      exact Nat.not_lt.mp hlimit

theorem writable_listing (hlength : bytes.length ≤ imageLimit) {origin : Int} (horigin : 0 ≤ origin ∧ origin ≤ 0xFFF) :
    (Answer.listed (Instruction.listing bytes origin)).Writable := by
  intro line hline
  obtain ⟨k, hk⟩ := List.getElem?_of_mem hline
  obtain ⟨hlt, -⟩ := List.getElem?_eq_some_iff.mp hk
  rw [Instruction.length_listing] at hlt
  rw [Instruction.addr_of_listing hk]
  change bytes.length ≤ 3584 at hlength
  exact Numeral.writable_of_small (by omega) (by omega)

/-- An image that is accepted fits, and so does the font. -/
theorem fits_of_moderate (ho : Moderate o) (hlength : bytes.length ≤ imageLimit) :
    (o.loadFont = true → 160 ≤ o.memorySize) ∧ 0 ≤ o.start ∧ o.start + bytes.length ≤ o.memorySize := by
  have hsize := memorySize_of_moderate ho
  have hstart := start_of_moderate ho
  change bytes.length ≤ 3584 at hlength
  exact ⟨fun _ => by omega, by omega, by omega⟩

theorem unfit_iff_of_moderate (ho : Moderate o) (hlength : bytes.length ≤ imageLimit) :
    Run.Unfit bytes o ↔ ∃ entry ∈ o.initialMemory.entries, ¬ o.Inside entry.1 := by
  obtain ⟨hfont, hstart, himage⟩ := fits_of_moderate ho hlength
  constructor
  · rintro (⟨hwanted, hsmall⟩ | hbefore | hlarge | hout)
    · exact absurd (hfont hwanted) (Int.not_le.mpr hsmall)
    · exact absurd hstart (Int.not_le.mpr hbefore)
    · exact absurd himage (Int.not_le.mpr hlarge)
    · exact hout
  · exact fun hout => Or.inr (Or.inr (Or.inr hout))

theorem outside_iff_astray {request : RunRequest} (ho : Moderate o)
    (hkeys : ∀ addr, addr ∈ o.initialMemory.entries.map Prod.fst ↔
      ∃ entry ∈ request.chosen.memory, Numeral.literal? entry.1 = some addr) :
    (∃ entry ∈ o.initialMemory.entries, ¬ o.Inside entry.1) ↔ Astray request := by
  have hinside : ∀ addr, o.Inside addr ↔ 0 ≤ addr ∧ addr ≤ 4095 := by
    intro addr
    rw [Run.Options.Inside, memorySize_of_moderate ho]
    omega
  constructor
  · rintro ⟨entry, hentry, hout⟩
    obtain ⟨named, hnamed, haddr⟩ := (hkeys entry.1).mp (List.mem_map_of_mem hentry)
    exact ⟨named, hnamed, entry.1, haddr, mt (hinside entry.1).mpr hout⟩
  · rintro ⟨named, hnamed, addr, haddr, hout⟩
    obtain ⟨entry, hentry, rfl⟩ := List.mem_map.mp ((hkeys addr).mpr ⟨named, hnamed, haddr⟩)
    exact ⟨entry, hentry, mt (hinside entry.1).mp hout⟩

/-- What may not fit is a single value. -/
theorem unfit_iff_astray {request : RunRequest} (ho : Moderate o) (hlength : bytes.length ≤ imageLimit)
    (hkeys : ∀ addr, addr ∈ o.initialMemory.entries.map Prod.fst ↔
      ∃ entry ∈ request.chosen.memory, Numeral.literal? entry.1 = some addr) :
    Run.Unfit bytes o ↔ Astray request :=
  (unfit_iff_of_moderate ho hlength).trans (outside_iff_astray ho hkeys)

/-! ## Requests to run -/

section Run

variable {request : RunRequest} (hlawful : framework.Lawful) (hv : framework.readRun body = .ok request)

include hlawful hv

theorem run_of_valid (hi : image request.image = .ok bytes) (ha : addressed request.chosen.memory = .ok values) :
    run body framework room = framework.render (.ran (Run.result bytes (request.chosen.options values))) := by
  have hplan : plan request = .ok (bytes, request.chosen.options values) := by
    rw [plan, hi]
    show (addressed request.chosen.memory >>= fun values => _) = _
    rw [ha]
    rfl
  have hrun := run_of_moderate (moderate_options (hlawful.bounded hv) values) bytes room
  simp only [run, hv, hplan, hrun]
  rfl

theorem run_of_refused_image (hi : image request.image = .error refusal) :
    run body framework room = .ok ⟨refusal.status, .refused refusal⟩ := by
  have hplan : plan request = .error refusal := by
    rw [plan, hi]
    rfl
  simp only [run, hv, hplan]
  exact hlawful.raised refusal

theorem run_of_refused_key (hi : image request.image = .ok bytes)
    (ha : addressed request.chosen.memory = .error refusal) :
    run body framework room = .ok ⟨refusal.status, .refused refusal⟩ := by
  have hplan : plan request = .error refusal := by
    rw [plan, hi]
    show (addressed request.chosen.memory >>= fun values => _) = _
    rw [ha]
    rfl
  simp only [run, hv, hplan]
  exact hlawful.raised refusal

end Run

/-! ## Requests to list -/

section List

variable {request : ListRequest} (hlawful : framework.Lawful) (hv : framework.readList body = .ok request)

include hlawful hv

theorem list_of_valid (hi : image request.image = .ok bytes) :
    list body framework = .ok ⟨200, .listed (Instruction.listing bytes request.origin)⟩ := by
  simp only [list, hv, hi]
  exact hlawful.returned trivial (writable_listing (length_of_image hi) (hlawful.origin hv))

theorem list_of_refused_image (hi : image request.image = .error refusal) :
    list body framework = .ok ⟨refusal.status, .refused refusal⟩ := by
  simp only [list, hv, hi]
  exact hlawful.raised refusal

end List

end Service
end ChipEight
