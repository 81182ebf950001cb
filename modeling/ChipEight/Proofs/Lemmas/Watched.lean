import ChipEight.Proofs.Lemmas.Agree
import ChipEight.Proofs.Lemmas.Launch
import ChipEight.Proofs.Lemmas.Step

/-!
# Runs that are watched

A run does nothing but through its watcher and a few operations of its own. A relation between consoles that
these keep (`Steady`) relates whole runs if it relates what their watchers do.
-/

namespace ChipEight.Console

open Effect

variable {note α : Type} {c d : Console} {image : List Byte} {offset stopAfter : Int}

/-! ## The operations of a run -/

theorem stateOf_onMachine (act : EStateM Failure Machine α) (c : Console) :
    stateOf (onMachine act c) = { c with machine := stateOf (act c.machine) } := by
  simp only [onMachine]
  cases act c.machine <;> rfl

theorem stateOf_checkClock (c : Console) : stateOf (checkClock c) = c := by
  rw [checkClock, get_bind]
  split <;> rfl

/-- What a run does once it has a new machine. -/
def proceed (watch : Watcher note) (stopAfter : Int) (image : List Byte) (offset : Int) :
    EStateM Failure Console (List note) := do
  onMachine (told (Machine.load image offset))
  checkClock
  loop watch stopAfter.toNat 0 []

/-- The console with a new machine in place of the old one. -/
def renewed (c : Console) : Console := { c with machine := .prepared c.loadFont }

theorem runImage_eq (watch : Watcher note) (stopAfter : Int) (image : List Byte) (offset : Int) (c : Console) :
    runImage watch stopAfter image offset c = release (proceed watch stopAfter image offset) c.renewed := by
  rw [runImage, release, bind_of_ok (renew_eq c)]
  rfl

/-! ## Two runs side by side -/

/-- What the operations of a run keep, whatever is done to the machine. -/
structure Steady (R : Console → Console → Prop) : Prop where
  machine : ∀ {α : Type} (act : EStateM Failure Machine α), Agree R (onMachine act) (onMachine act)
  clock : Agree R checkClock checkClock
  stop : Agree R stop stop
  stopping : ∀ c d, R c d → c.stopping = d.stopping

section Steady

variable {R : Console → Console → Prop} {watch watch' : Watcher note} (hsteady : Steady R)
  (hwatch : ∀ done, Agree R (watch done) (watch' done))

include hsteady hwatch

theorem loop_agree (remaining done : Nat) (notes : List note) :
    Agree R (loop watch remaining done notes) (loop watch' remaining done notes) := by
  induction remaining generalizing done notes with
  | zero => exact Agree.bind hsteady.stop fun _ => Agree.pure notes
  | succ remaining ih =>
      intro c d hR
      rw [loop, loop, get_bind, get_bind, hsteady.stopping c d hR]
      cases d.stopping with
      | true => exact .ok notes hR
      | false =>
          refine Agree.bind (hwatch done) (fun new => ?_) c d hR
          exact Agree.bind (hsteady.machine _) fun _ => ih (done + 1) (notes ++ new)

theorem proceed_agree (stopAfter : Int) (image : List Byte) (offset : Int) :
    Agree R (proceed watch stopAfter image offset) (proceed watch' stopAfter image offset) := by
  refine Agree.bind (hsteady.machine _) fun _ => Agree.bind hsteady.clock fun _ => ?_
  exact loop_agree hsteady hwatch _ _ _

/-- The run of an image ends as its watcher makes it, with the console given back. -/
theorem runImage_agree (stopAfter : Int) (image : List Byte) (offset : Int) (hR : R c.renewed d.renewed) :
    ∃ c' d', R c' d' ∧
      outcomeOf (runImage watch stopAfter image offset c) = outcomeOf (runImage watch' stopAfter image offset d) ∧
      stateOf (runImage watch stopAfter image offset c) = { c' with running := false } ∧
      stateOf (runImage watch' stopAfter image offset d) = { d' with running := false } := by
  rw [runImage_eq, runImage_eq, release, release]
  have hends := proceed_agree hsteady hwatch stopAfter image offset _ _ hR
  generalize proceed watch stopAfter image offset c.renewed = r at hends
  generalize proceed watch' stopAfter image offset d.renewed = r' at hends
  cases hends with
  | ok notes h => exact ⟨_, _, h, rfl, rfl, rfl⟩
  | error e h => exact ⟨_, _, h, rfl, rfl, rfl⟩

end Steady

/-! ## What a run keeps of its console -/

/-- The console runs, and it has the frequency and the name of an image that another one has. -/
structure Busy (c₀ c : Console) : Prop where
  running : c.running = true
  frequency : c.frequency = c₀.frequency
  imageName : c.imageName = c₀.imageName

theorem steady_busy (c₀ : Console) : Steady (Same (Busy c₀)) where
  machine act := Obeys.agree <| Preserves.obeys fun c h => by
    rw [stateOf_onMachine]
    exact ⟨h.running, h.frequency, h.imageName⟩
  clock := Obeys.agree <| Preserves.obeys fun c h => by
    rw [stateOf_checkClock]
    exact h
  stop := Obeys.agree <| Preserves.obeys fun _ h => ⟨h.running, h.frequency, h.imageName⟩
  stopping _ _ h := congrArg Console.stopping h.1

/-- The watcher keeps a console busy. -/
def Polite (watch : Watcher note) : Prop := ∀ c₀ done, Preserves (Busy c₀) (watch done)

theorem polite_of_silent : Polite (fun _ => pure [] : Watcher note) := fun _ _ _ h => h

/-- Watchers that cannot be told apart by a busy console make the same run. -/
theorem runImage_same {watch watch' : Watcher note}
    (hwatch : ∀ done, Agree (Same (Busy c)) (watch done) (watch' done)) (hc : c.running = true) :
    runImage watch stopAfter image offset c = runImage watch' stopAfter image offset c := by
  have hends := proceed_agree (steady_busy c) hwatch stopAfter image offset c.renewed c.renewed
    ⟨rfl, hc, rfl, rfl⟩
  rw [runImage_eq, runImage_eq, release, release, hends.eq]

theorem runImage_leaves {watch : Watcher note} (hwatch : Polite watch) (stopAfter : Int) (image : List Byte)
    (offset : Int) (hc : c.running = true) :
    (stateOf (runImage watch stopAfter image offset c)).running = false ∧
      (stateOf (runImage watch stopAfter image offset c)).frequency = c.frequency ∧
      (stateOf (runImage watch stopAfter image offset c)).imageName = c.imageName := by
  have hagree : ∀ done, Agree (Same (Busy c)) (watch done) (watch done) :=
    fun done => (hwatch c done).obeys.agree
  have hfirst : Same (Busy c) c.renewed c.renewed := ⟨rfl, hc, rfl, rfl⟩
  obtain ⟨c', _, ⟨-, hbusy⟩, -, hstate, -⟩ :=
    runImage_agree (steady_busy c) hagree stopAfter image offset hfirst
  rw [hstate]
  exact ⟨rfl, hbusy.frequency, hbusy.imageName⟩

end ChipEight.Console
