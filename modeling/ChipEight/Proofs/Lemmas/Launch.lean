import ChipEight.Proofs.Lemmas.Console
import ChipEight.Proofs.Lemmas.Directory

/-!
# The stages of a launch

A launch writes its file, claims the console, reads its image and runs it. A console that runs refuses it, an
image that cannot be read ends it, and what the run comes to is the same in the background (`verdict`).
-/

namespace ChipEight.Console

open Effect

variable {c : Console} {source : Source} {watch : Watcher Note} {stopAfter : Int} {name : String}
  {image : List Byte} {offset : Int} {fault : FileFault}

/-! ## What a launch comes to -/

def Ending.verdict : Ending → Except Failure (List Note)
  | .returned notes => .ok notes
  | .joined notes none => .ok notes
  | .joined _ (some e) => .error e

/-- The notes of the cues or the failure of a launch, be it in the background or not. -/
def verdict (r : EStateM.Result Failure Console Ending) : Except Failure (List Note) :=
  (outcomeOf r).bind Ending.verdict

/-- The console as the run of a source finds it. -/
def Source.aside (source : Source) (c : Console) : Console :=
  match source with
  | .background _ _ => { c with inBackground := true }
  | _ => c

/-- The console that a launch leaves whose run leaves `c`. -/
def Source.back (source : Source) (c : Console) : Console :=
  match source with
  | .background _ _ => { c with inBackground := false }
  | _ => c

/-- How a launch ends whose run ends so. -/
def Source.conclude (source : Source) :
    EStateM.Result Failure Console (List Note) → EStateM.Result Failure Console Ending
  | .ok notes c =>
    match source with
    | .background _ _ => .ok (.joined notes none) (source.back c)
    | _ => .ok (.returned notes) c
  | .error e c =>
    match source with
    | .background _ _ => .ok (.joined [] (some e)) (source.back c)
    | _ => .error e c

theorem verdict_conclude (source : Source) (r : EStateM.Result Failure Console (List Note)) :
    verdict (source.conclude r) = outcomeOf r := by
  cases r <;> cases source <;> rfl

theorem stateOf_conclude (source : Source) (r : EStateM.Result Failure Console (List Note)) :
    stateOf (source.conclude r) = source.back (stateOf r) := by
  cases r <;> cases source <;> rfl

/-! ## Writing the file -/

/-- The console once the file of a launch has been written. -/
def Source.kept (source : Source) (c : Console) : Console := stateOf (prepare source c)

/-- Images from files are loaded where programs start. -/
def ofRead (read : Except FileFault (List Byte)) : Except FileFault (List Byte × Int) :=
  read.map fun image => (image, Processor.programStart)

theorem ofRead_eq_ok {read : Except FileFault (List Byte)} :
    ofRead read = .ok (image, offset) ↔ read = .ok image ∧ Processor.programStart = offset := by
  cases read <;> simp [ofRead, Except.map]

theorem ofRead_eq_error {read : Except FileFault (List Byte)} :
    ofRead read = .error fault ↔ read = .error fault := by
  cases read <;> simp [ofRead, Except.map]

/-- The image that a launch brings and the place where it is to be loaded, or why it cannot be read. -/
def Source.brings (source : Source) (c : Console) : Except FileFault (List Byte × Int) :=
  match source with
  | .image image offset => .ok (image, offset)
  | .file name _ | .background name _ => ofRead ((source.kept c).directory.read name)

/-- A launch of a file that is not written first, by a name that no file can have. -/
def Source.Jams : Source → Prop
  | .file name none | .background name none => '\x00' ∈ name.toList
  | _ => False

theorem keepFile_eq (name : String) (image : List Byte) (c : Console) :
    keepFile name image c = match c.directory.write name image with
      | .ok directory => .ok () { c with directory }
      | .error fault => .error (.file fault) c := by
  rw [keepFile, get_bind]
  cases c.directory.write name image <;> rfl

theorem keepFile_cases (name : String) (image : List Byte) (c : Console) :
    (∃ directory, keepFile name image c = .ok () { c with directory } ∧ '\x00' ∉ name.toList) ∨
      ∃ fault, keepFile name image c = .error (.file fault) c ∧ c.directory.read name = .error fault := by
  rw [keepFile_eq]
  cases hw : c.directory.write name image with
  | ok directory =>
      obtain ⟨path, hpath⟩ := Directory.find_of_written hw
      refine .inl ⟨directory, rfl, fun hnull => ?_⟩
      rw [Directory.find_eq_null_iff.mpr hnull] at hpath
      cases hpath
  | error fault => exact .inr ⟨fault, rfl, Directory.read_of_not_written hw⟩

/-- If the file of a launch cannot be written, neither can it be read. -/
theorem prepare_cases (source : Source) (c : Console) :
    prepare source c = .ok () (source.kept c) ∧
        (source.Jams ↔ source.brings c = .error .nullCharacter) ∨
      ∃ fault, prepare source c = .error (.file fault) c ∧ source.brings c = .error fault ∧
        ¬ source.Jams := by
  cases source with
  | image image offset => exact .inl ⟨rfl, by simp [Source.Jams, Source.brings]⟩
  | file name written | background name written =>
      cases written with
      | none => exact .inl ⟨rfl, Directory.read_eq_null_iff.symm.trans ofRead_eq_error.symm⟩
      | some image =>
          rcases keepFile_cases name image c with ⟨directory, hk, hn⟩ | ⟨fault, hk, hr⟩
          · refine .inl ⟨?_, iff_of_false id fun hb => ?_⟩
            · show keepFile name image c = .ok () (stateOf (keepFile name image c))
              rw [hk]
              rfl
            · exact hn (Directory.read_eq_null_iff.mp (ofRead_eq_error.mp hb))
          · refine .inr ⟨fault, hk, ?_, id⟩
            show ofRead ((stateOf (keepFile name image c)).directory.read name) = _
            rw [hk]
            exact ofRead_eq_error.mpr hr

theorem kept_eq (source : Source) (c : Console) :
    source.kept c = { c with directory := (source.kept c).directory } := by
  unfold Source.kept
  cases source with
  | image image offset => rfl
  | file name written | background name written =>
      cases written with
      | none => rfl
      | some image =>
          show stateOf (keepFile name image c) = { c with directory := (stateOf (keepFile name image c)).directory }
          rcases keepFile_cases name image c with ⟨directory, hk, -⟩ | ⟨fault, hk, -⟩ <;> rw [hk] <;> rfl

theorem prepare_of_brings (h : source.brings c = .ok (image, offset)) :
    prepare source c = .ok () (source.kept c) := by
  rcases prepare_cases source c with ⟨hp, -⟩ | ⟨fault, -, hb, -⟩
  · exact hp
  · rw [hb] at h
    cases h

/-- What a launch leaves as it was where it reads no image. -/
structure Untouched (c c' : Console) : Prop where
  machine : c'.machine = c.machine
  imageName : c'.imageName = c.imageName
  frequency : c'.frequency = c.frequency
  loadFont : c'.loadFont = c.loadFont

theorem untouched_kept (source : Source) (c : Console) : Untouched c (source.kept c) := by
  rw [kept_eq]
  exact ⟨rfl, rfl, rfl, rfl⟩

/-- What is written to a file is what a launch of the file brings. -/
theorem brings_of_written (c : Console) (name : String) (image : List Byte) {path : List String}
    (h : c.directory.find name = .ok path) :
    (Source.file name (some image)).brings c = .ok (image, Processor.programStart) ∧
      (Source.background name (some image)).brings c = .ok (image, Processor.programStart) := by
  have hkept : stateOf (keepFile name image c) = { c with directory.files := c.directory.files.put path image } := by
    rw [keepFile_eq, Directory.write_of_found h]
    rfl
  suffices hread : ofRead ((stateOf (keepFile name image c)).directory.read name) = .ok (image, _) from ⟨hread, hread⟩
  rw [hkept]
  exact ofRead_eq_ok.mpr ⟨Directory.read_of_put h image, rfl⟩

/-! ## Claiming the console -/

/-- The run of a source by a console that has been claimed for it. -/
def Source.run (watch : Watcher Note) (stopAfter : Int) : Source → EStateM Failure Console (List Note)
  | .image image offset => runImage watch stopAfter image offset
  | .file name _ | .background name _ => runFile watch stopAfter name

/-- The part of a launch that comes after the claim. -/
def conduct (watch : Watcher Note) (stopAfter : Int) (source : Source) : EStateM Failure Console Ending :=
  fun c => source.conclude (source.run watch stopAfter (source.aside c))

theorem returned_eq (run : EStateM Failure Console (List Note)) (c : Console) :
    (run >>= fun notes => pure (Ending.returned notes)) c = match run c with
      | .ok notes c => .ok (.returned notes) c
      | .error e c => .error e c := by
  cases h : run c with
  | ok notes c' => exact bind_of_ok h _
  | error e c' => exact bind_of_error h _

theorem launch_eq (watch : Watcher Note) (stopAfter : Int) (source : Source) (c : Console) :
    launch watch stopAfter source c =
      (prepare source >>= fun _ => claim >>= fun _ => conduct watch stopAfter source) c := by
  have hconduct : ∀ run : EStateM Failure Console Ending, (∀ c, run c = conduct watch stopAfter source c) →
      (prepare source >>= fun _ => claim >>= fun _ => run) c =
        (prepare source >>= fun _ => claim >>= fun _ => conduct watch stopAfter source) c := by
    intro run h
    rw [funext h]
  cases source with
  | image image offset =>
      refine hconduct _ fun c => (returned_eq (runImage watch stopAfter image offset) c).trans ?_
      show _ = Source.conclude _ (runImage watch stopAfter image offset c)
      cases runImage watch stopAfter image offset c <;> rfl
  | file name written =>
      refine hconduct _ fun c => (returned_eq (runFile watch stopAfter name) c).trans ?_
      show _ = Source.conclude _ (runFile watch stopAfter name c)
      cases runFile watch stopAfter name c <;> rfl
  | background name written =>
      refine hconduct _ fun c => ?_
      show onThread (runFile watch stopAfter name) c =
        Source.conclude _ (runFile watch stopAfter name { c with inBackground := true })
      unfold onThread
      cases runFile watch stopAfter name { c with inBackground := true } <;> rfl

theorem claim_of_running (h : c.running = true) :
    claim c = .error (.reported Fault.alreadyRunning.report) c := by
  rw [claim, get_bind, if_pos h]
  rfl

theorem launch_of_running (h : c.running = true) :
    launch watch stopAfter source c =
      (prepare source >>= fun _ => throw (.reported Fault.alreadyRunning.report)) c := by
  have hkept : (source.kept c).running = true := by rw [kept_eq]; exact h
  rw [launch_eq]
  rcases prepare_cases source c with ⟨hp, -⟩ | ⟨fault, hp, -⟩
  · rw [bind_of_ok hp, bind_of_ok hp, bind_of_error (claim_of_running hkept)]
    rfl
  · rw [bind_of_error hp, bind_of_error hp]

theorem launch_of_unprepared {e : Failure} {c' : Console} (h : prepare source c = .error e c') :
    launch watch stopAfter source c = .error e c' := by
  rw [launch_eq, bind_of_error h]

theorem launch_of_prepared (h : c.running = false) (hp : prepare source c = .ok () (source.kept c)) :
    launch watch stopAfter source c = conduct watch stopAfter source (source.kept c).claimed := by
  have hkept : (source.kept c).running = false := by rw [kept_eq]; exact h
  rw [launch_eq, bind_of_ok hp, bind_of_ok (claim_of_idle hkept)]

/-! ## Reading the image -/

theorem fetchImage_of_read (h : c.directory.read name = .ok image) :
    fetchImage name c = .ok image { c with imageName := Directory.lastStep name } := by
  rw [fetchImage, get_bind, h]
  rfl

/-- A name that no file can have leaves the console claimed. -/
theorem fetchImage_of_unread (hr : c.running = true) (h : c.directory.read name = .error fault) :
    fetchImage name c = .error (.file fault) { c with running := fault = .nullCharacter } := by
  rw [fetchImage, get_bind, h]
  cases fault with
  | nullCharacter =>
      show EStateM.Result.error (Failure.file .nullCharacter) c = _
      simp [← hr]
  | _ => rfl

/-! ## Launches on an idle console -/

/-- The name that the console has once the image of a launch was read. -/
def Source.named (source : Source) (before : Option String) : Option String :=
  match source with
  | .image _ _ => before
  | .file name _ | .background name _ => Directory.lastStep name

/-- The console as the run of an image finds it. -/
def Source.entered (source : Source) (c : Console) : Console :=
  { source.aside (source.kept c).claimed with imageName := source.named c.imageName }

theorem running_entered (source : Source) (c : Console) : (source.entered c).running = true := by
  cases source <;> rfl

theorem stopping_entered (source : Source) (c : Console) : (source.entered c).stopping = false := by
  cases source <;> rfl

theorem frequency_entered (source : Source) (c : Console) : (source.entered c).frequency = c.frequency := by
  rw [← (untouched_kept source c).frequency]
  cases source <;> rfl

theorem loadFont_entered (source : Source) (c : Console) : (source.entered c).loadFont = c.loadFont := by
  rw [← (untouched_kept source c).loadFont]
  cases source <;> rfl

theorem machine_back (source : Source) (c : Console) : (source.back c).machine = c.machine := by
  cases source <;> rfl

theorem imageName_back (source : Source) (c : Console) : (source.back c).imageName = c.imageName := by
  cases source <;> rfl

theorem frequency_back (source : Source) (c : Console) : (source.back c).frequency = c.frequency := by
  cases source <;> rfl

theorem running_back (source : Source) (c : Console) : (source.back c).running = c.running := by
  cases source <;> rfl

theorem runFile_of_read (h : c.directory.read name = .ok image) :
    runFile watch stopAfter name c = runImage watch stopAfter image Processor.programStart
      { c with imageName := Directory.lastStep name } := by
  rw [runFile, bind_of_ok (fetchImage_of_read h)]

theorem runFile_of_unread (hr : c.running = true) (h : c.directory.read name = .error fault) :
    runFile watch stopAfter name c = .error (.file fault) { c with running := fault = .nullCharacter } := by
  rw [runFile, bind_of_error (fetchImage_of_unread hr h)]

theorem launch_of_brings (h : c.running = false) (hb : source.brings c = .ok (image, offset)) :
    launch watch stopAfter source c =
      source.conclude (runImage watch stopAfter image offset (source.entered c)) := by
  rw [launch_of_prepared h (prepare_of_brings hb), conduct]
  refine congrArg source.conclude ?_
  cases source with
  | image _ _ => cases hb; rfl
  | file name written | background name written =>
      obtain ⟨hr, rfl⟩ := ofRead_eq_ok.mp hb
      exact runFile_of_read (c := Source.aside _ (Source.kept _ c).claimed) hr

/-- A launch with an image comes to what its run comes to. -/
theorem launch_like_run (watch : Watcher Note) (stopAfter : Int) (h : c.running = false)
    (hb : source.brings c = .ok (image, offset)) :
    verdict (launch watch stopAfter source c) =
        outcomeOf (runImage watch stopAfter image offset (source.entered c)) ∧
      (stateOf (launch watch stopAfter source c)).machine =
        (stateOf (runImage watch stopAfter image offset (source.entered c))).machine := by
  rw [launch_of_brings h hb, verdict_conclude, stateOf_conclude, machine_back]
  exact ⟨rfl, rfl⟩

theorem launch_of_misfit (watch : Watcher Note) (stopAfter : Int) (h : c.running = false)
    (hb : source.brings c = .ok (image, offset)) (hfit : ¬ Machine.Fits image offset) :
    verdict (launch watch stopAfter source c) = .error (.reported (Machine.misfit image offset).report) ∧
      (stateOf (launch watch stopAfter source c)).machine = .prepared c.loadFont := by
  obtain ⟨hverdict, hmachine⟩ := launch_like_run watch stopAfter h hb
  rw [hverdict, hmachine, runImage_of_misfit hfit, loadFont_entered]
  exact ⟨rfl, rfl⟩

/-- The console as the first cycle of a run finds it. -/
def Source.begun (source : Source) (image : List Byte) (offset : Int) (c : Console) : Console :=
  { source.entered c with machine := .loaded (source.entered c).loadFont image offset }

theorem machine_begun (source : Source) (image : List Byte) (offset : Int) (c : Console) :
    (source.begun image offset c).machine = .loaded c.loadFont image offset := by
  rw [Source.begun, loadFont_entered]

/-- The clock of a run without a period stops it before its first cycle. -/
theorem launch_of_no_period (watch : Watcher Note) (stopAfter : Int) (h : c.running = false)
    (hb : source.brings c = .ok (image, offset)) (hfit : Machine.Fits image offset)
    (hclock : clockLimit ≤ c.frequency) :
    verdict (launch watch stopAfter source c) = .error .overflow ∧
      (stateOf (launch watch stopAfter source c)).machine = .loaded c.loadFont image offset := by
  obtain ⟨hverdict, hmachine⟩ := launch_like_run watch stopAfter h hb
  have hcheck : checkClock (source.begun image offset c) = .error .overflow (source.begun image offset c) :=
    checkClock_of_no_period (by rw [Source.begun, frequency_entered]; exact hclock)
  rw [hverdict, hmachine, runImage_of_fit hfit, ← Source.begun, release, bind_of_error hcheck]
  exact ⟨rfl, machine_begun source image offset c⟩

theorem launch_of_period (watch : Watcher Note) (stopAfter : Int) (h : c.running = false)
    (hb : source.brings c = .ok (image, offset)) (hfit : Machine.Fits image offset)
    (hclock : c.frequency < clockLimit) :
    launch watch stopAfter source c =
      source.conclude (release (loop watch stopAfter.toNat 0 []) (source.begun image offset c)) := by
  have hcheck : checkClock (source.begun image offset c) = .ok () (source.begun image offset c) :=
    checkClock_of_period (by rw [Source.begun, frequency_entered]; exact hclock)
  rw [launch_of_brings h hb, runImage_of_fit hfit, ← Source.begun, release, release, bind_of_ok hcheck]

theorem conduct_of_unread (watch : Watcher Note) (stopAfter : Int) (h : source.brings c = .error fault) :
    conduct watch stopAfter source (source.kept c).claimed =
      source.conclude (.error (.file fault)
        { source.aside (source.kept c).claimed with running := fault = .nullCharacter }) := by
  rw [conduct]
  refine congrArg source.conclude ?_
  cases source with
  | image _ _ => cases h
  | file name written | background name written =>
      exact runFile_of_unread rfl (ofRead_eq_error.mp h)

theorem launch_of_unread (watch : Watcher Note) (stopAfter : Int) (h : c.running = false)
    (hb : source.brings c = .error fault) :
    verdict (launch watch stopAfter source c) = .error (.file fault) ∧
      Untouched c (stateOf (launch watch stopAfter source c)) ∧
      ((stateOf (launch watch stopAfter source c)).running = true ↔ source.Jams) := by
  rcases prepare_cases source c with ⟨hp, hjams⟩ | ⟨_, hp, hb', hjams⟩
  · have hkept := untouched_kept source c
    rw [launch_of_prepared h hp, conduct_of_unread watch stopAfter hb, verdict_conclude, stateOf_conclude,
      hjams, hb]
    refine ⟨rfl, ?_, ?_⟩
    · cases source <;> exact ⟨hkept.machine, hkept.imageName, hkept.frequency, hkept.loadFont⟩
    · cases source <;> simp [Source.back, stateOf]
  · rw [hb] at hb'
    cases hb'
    rw [launch_of_unprepared hp]
    exact ⟨rfl, ⟨rfl, rfl, rfl, rfl⟩, by simp [stateOf, h, hjams]⟩

end ChipEight.Console
