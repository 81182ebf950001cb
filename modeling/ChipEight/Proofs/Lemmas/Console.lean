import ChipEight.Console.Step
import ChipEight.Proofs.Lemmas.Telling

/-!
# Launches that nothing is asked of

A console that runs an image undisturbed does as many cycles as it is given, whatever they raise: of a machine of
the default sizes every fault can be told. It does none if the image does not load, or if its clock has no period.
-/

namespace ChipEight

open Effect

namespace Console

variable {α note : Type} {c : Console} {m : Machine}

theorem onMachine_told (act : EStateM Fault Machine α) (c : Console) :
    onMachine (told act) c = match act c.machine with
      | .ok a m => .ok a { c with machine := m }
      | .error fault m => .error fault.failure { c with machine := m } := by
  simp only [onMachine, told, EStateM.adaptExcept]
  cases act c.machine <;> rfl

def fresh (frequency : Int) (loadFont : Bool) (directory : Directory := .empty) : Console :=
  { frequency, loadFont, machine := .new {}, imageName := none, running := false, stopping := false
    inBackground := false, directory }

theorem new_of_positive {frequency : Int} (h : 0 < frequency) (loadFont : Bool)
    (directory : Directory := .empty) :
    Console.new frequency loadFont directory = .ok (fresh frequency loadFont directory) := by
  rw [Console.new, if_neg (Int.not_le.mpr h)]
  rfl

theorem new_eq_ok {frequency : Int} {font : Bool} {directory : Directory} :
    Console.new frequency font directory = .ok c ↔ 0 < frequency ∧ c = fresh frequency font directory := by
  by_cases hf : frequency ≤ 0
  · rw [Console.new, if_pos hf]
    exact iff_of_false nofun fun h => absurd h.1 (Int.not_lt.mpr hf)
  · have hpos := Int.not_le.mp hf
    rw [new_of_positive hpos font directory, Except.ok.injEq]
    exact ⟨fun h => ⟨hpos, h.symm⟩, fun h => h.2.symm⟩

/-! ## The start of a run -/

theorem plain_new : (Machine.new {}).board.Plain := Machine.Config.plain_of_usual nofun rfl

theorem plain_prepared (font : Bool) : (Machine.prepared font).board.Plain := by
  cases font with
  | false => exact plain_new
  | true =>
      have hkeeps := Machine.keeps_onMemory (Memory.writeRange Font.start Font.bytes) (Machine.new {})
      change (stateOf (Machine.loadFont (.new {}))).withoutMemory = _ at hkeeps
      rw [Machine.loadFont_new] at hkeeps
      exact Machine.plain_of_withoutMemory hkeeps plain_new

theorem plain_of_loaded {image : List Byte} {offset : Int} {font : Bool}
    (h : Machine.load image offset (.prepared font) = .ok () m) : m.board.Plain := by
  have hkeeps := Machine.keeps_load image offset (.prepared font)
  rw [h] at hkeeps
  exact Machine.plain_of_withoutMemory hkeeps (plain_prepared font)

theorem renew_eq (c : Console) : renew c = .ok () { c with machine := .prepared c.loadFont } := by
  have hg : renew c = (if c.loadFont then onMachine (told Machine.loadFont) else pure ())
      { c with machine := .new {} } := rfl
  rw [hg]
  cases hf : c.loadFont with
  | false => rfl
  | true => rw [if_pos rfl, onMachine_told, Machine.loadFont_new]

theorem checkClock_of_period (h : c.frequency < clockLimit) : checkClock c = .ok () c := by
  rw [checkClock, get_bind, if_neg (Int.not_le.mpr h)]
  rfl

theorem checkClock_of_no_period (h : clockLimit ≤ c.frequency) : checkClock c = .error .overflow c := by
  rw [checkClock, get_bind, if_pos h]
  rfl

/-! ## Cycling -/

theorem tick_eq (c : Console) :
    tick c = match Machine.cycle c.machine with
      | .ok _ m => .ok () { c with machine := m }
      | .error incident m =>
        if incident.fault.Tellable then .ok () { c with machine := m }
        else .error .unwritable { c with machine := m } := by
  simp only [tick, onMachine]
  cases Machine.cycle c.machine with
  | ok => rfl
  | error incident => by_cases ht : incident.fault.Tellable <;> simp [ht]

/-- A fault is passed over if it can be told; the cycle is done in either case. -/
theorem tick_cases (c : Console) :
    tick c = .ok () { c with machine := c.machine.next } ∨
      ¬ c.machine.board.Plain ∧ tick c = .error .unwritable { c with machine := c.machine.next } := by
  rw [tick_eq]
  cases hc : Machine.cycle c.machine with
  | ok i m => exact Or.inl (by rw [Machine.next_of_ok hc])
  | error incident m =>
      rw [Machine.next_of_error hc]
      by_cases ht : incident.fault.Tellable
      · exact Or.inl (if_pos ht)
      · exact Or.inr ⟨fun hplain => ht (Machine.tellable_of_cycle hplain hc), if_neg ht⟩

theorem tick_of_plain (h : c.machine.board.Plain) : tick c = .ok () { c with machine := c.machine.next } :=
  (tick_cases c).resolve_right fun hfails => hfails.1 h

/-- An undisturbed loop cycles as often as it may, and passes over every fault. -/
theorem loop_quiet (k done : Nat) (notes : List note) (h : c.stopping = false) (hplain : c.machine.board.Plain) :
    loop (fun _ => pure []) k done notes c =
      .ok notes { c with machine := c.machine.advance k, stopping := true } := by
  induction k generalizing done notes c with
  | zero => rfl
  | succ k ih =>
      have hnone : (fun _ => pure [] : Watcher note) done c = .ok [] c := rfl
      rw [loop, get_bind, h, if_neg Bool.false_ne_true, bind_of_ok hnone, bind_of_ok (tick_of_plain hplain),
        List.append_nil, ih (c := { c with machine := c.machine.next }) (done + 1) notes h (Machine.plain_next hplain)]
      rfl

/-! ## Launches -/

variable {image : List Byte} {offset : Int}

theorem runImage_of_loaded (hl : Machine.load image offset (.prepared c.loadFont) = .ok () m)
    (watch : Watcher note) (k : Int) :
    runImage watch k image offset c =
      release (checkClock >>= fun _ => loop watch k.toNat 0 []) { c with machine := m } := by
  have hm : onMachine (told (Machine.load image offset)) { c with machine := .prepared c.loadFont } =
      .ok () { c with machine := m } := by
    rw [onMachine_told, hl]
  rw [runImage, release, bind_of_ok (renew_eq c), bind_of_ok hm]
  rfl

theorem runImage_of_refused {fault : Fault}
    (hl : Machine.load image offset (.prepared c.loadFont) = .error fault m)
    (watch : Watcher note) (k : Int) :
    runImage watch k image offset c =
      .error fault.failure { c with machine := m, running := false } := by
  have hm : onMachine (told (Machine.load image offset)) { c with machine := .prepared c.loadFont } =
      .error fault.failure { c with machine := m } := by
    rw [onMachine_told, hl]
  rw [runImage, release, bind_of_ok (renew_eq c), bind_of_error hm]

theorem runImage_of_fit (h : Machine.Fits image offset) (watch : Watcher note) (k : Int) :
    runImage watch k image offset c =
      release (checkClock >>= fun _ => loop watch k.toNat 0 [])
        { c with machine := .loaded c.loadFont image offset } :=
  runImage_of_loaded (Machine.load_prepared_of_fit h c.loadFont) watch k

theorem failure_misfit (image : List Byte) (offset : Int) :
    (Machine.misfit image offset).failure = .reported (Machine.misfit image offset).report := by
  unfold Machine.misfit
  split <;> exact Fault.failure_of_tellable nofun

theorem runImage_of_misfit (h : ¬ Machine.Fits image offset) (watch : Watcher note) (k : Int) :
    runImage watch k image offset c =
      .error (.reported (Machine.misfit image offset).report)
        { c with machine := .prepared c.loadFont, running := false } := by
  rw [runImage_of_refused (Machine.load_prepared_of_misfit h c.loadFont), failure_misfit]

/-- Launches an image and lets it run for `k` cycles, with nothing asked of the console meanwhile. -/
def runQuietly (image : List Byte) (k : Int) : EStateM Failure Console Outcome :=
  Step.perform (.launch (.image image Processor.programStart) k [])

def claimed (c : Console) : Console := { c with running := true, stopping := false }

theorem claim_of_idle (h : c.running = false) : claim c = .ok () c.claimed := by
  rw [claim, get_bind, h]
  rfl

theorem runQuietly_eq (h : c.running = false) (image : List Byte) (k : Int) :
    runQuietly image k c =
      match runImage (fun _ => pure []) k image Processor.programStart c.claimed with
      | .ok notes c => .ok (.ending (.returned notes)) c
      | .error e c => .error e c := by
  have hp : prepare (.image image Processor.programStart) c = .ok () c := rfl
  have hl : launch (attendAll []) k (.image image Processor.programStart) c =
      (runImage (fun _ => pure []) k image Processor.programStart >>= fun notes =>
        pure (.returned notes)) c.claimed := by
    rw [launch, bind_of_ok hp, bind_of_ok (claim_of_idle h)]
    rfl
  rw [runQuietly, Step.perform]
  cases hr : runImage (fun _ => pure []) k image Processor.programStart c.claimed with
  | ok notes c' =>
      rw [bind_of_ok hr] at hl
      rw [bind_of_ok hl]
      rfl
  | error e c' =>
      rw [bind_of_error hr] at hl
      rw [bind_of_error hl]

theorem runQuietly_of_loaded (h : c.running = false) (hc : c.frequency < clockLimit)
    (hl : Machine.load image Processor.programStart (.prepared c.loadFont) = .ok () m) (k : Int) :
    runQuietly image k c = .ok (.ending (.returned []))
      { c with machine := m.advance k.toNat, running := false, stopping := true } := by
  have hp := checkClock_of_period (c := { c.claimed with machine := m }) hc
  rw [runQuietly_eq h, runImage_of_loaded (c := c.claimed) hl, release, bind_of_ok hp,
    loop_quiet _ _ _ rfl (plain_of_loaded hl)]
  rfl

theorem runQuietly_of_no_period (h : c.running = false) (hc : clockLimit ≤ c.frequency)
    (hl : Machine.load image Processor.programStart (.prepared c.loadFont) = .ok () m) (k : Int) :
    runQuietly image k c =
      .error .overflow { c with machine := m, running := false, stopping := false } := by
  have hp := checkClock_of_no_period (c := { c.claimed with machine := m }) hc
  rw [runQuietly_eq h, runImage_of_loaded (c := c.claimed) hl, release, bind_of_error hp]
  rfl

theorem runQuietly_of_refused (h : c.running = false) {fault : Fault}
    (hl : Machine.load image Processor.programStart (.prepared c.loadFont) = .error fault m) (k : Int) :
    runQuietly image k c =
      .error fault.failure { c with machine := m, running := false, stopping := false } := by
  rw [runQuietly_eq h, runImage_of_refused (c := c.claimed) hl]
  rfl

end Console
end ChipEight
