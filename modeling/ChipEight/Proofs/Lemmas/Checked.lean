import ChipEight.Proofs.Lemmas.Framework

/-!
# The usual framework

A check that meets no issue has a value as its rules demand (`Checked.Sound`), which is made of the values of its
parts. So the usual framework keeps to what is declared (`Framework.lawful_usual`).
-/

namespace ChipEight.Service

variable {α β : Type}

namespace Checked

variable {P : α → Prop} {Q : β → Prop} {place : List String} {rule : Json → Except Complaint α}

/-- If there are no issues, the value satisfies `P`. -/
def Sound (P : α → Prop) (c : Checked α) : Prop := c.issues = [] → P c.value

theorem Sound.pure {a : α} (h : P a) : Sound P (pure a) := fun _ => h

theorem Sound.bind {c : Checked α} {f : α → Checked β} (hc : Sound P c) (hf : ∀ a, P a → Sound Q (f a)) :
    Sound Q (c >>= f) := by
  intro h
  obtain ⟨hfirst, hrest⟩ := List.append_eq_nil_iff.mp h
  exact hf c.value (hc hfirst) hrest

theorem sound_true (c : Checked α) : Sound (fun _ => True) c := fun _ => trivial

theorem sound_amiss (standIn : α) (complaint : Complaint) (json : Json) :
    Sound P (amiss standIn place complaint json) := nofun

theorem sound_check {json : Json} (h : ∀ a, rule json = .ok a → P a) (standIn : α) :
    Sound P (check standIn place rule json) := by
  rw [check]
  cases hr : rule json with
  | ok a => exact .pure (h a hr)
  | error complaint => exact sound_amiss standIn complaint json

theorem sound_optional {default : α} (hdefault : P default) (h : ∀ json a, rule json = .ok a → P a) (json : Json)
    (name : String) : Sound P (optional place json name default rule) := by
  rw [optional]
  cases json.field? name with
  | some value => exact sound_check (h value) default
  | none => exact .pure hdefault

theorem Sound.of_result {c : Checked α} {a : α} (hc : Sound P c) (h : c.result = .ok a) : P a := by
  rw [result] at h
  split at h
  · rename_i hempty
    cases h
    exact hc (List.isEmpty_iff.mp hempty)
  · cases h

end Checked

/-! ## Bounds -/

theorem bounds_of_integerWithin {low high n : Int} {json : Json} (h : integerWithin low high json = .ok n) :
    low ≤ n ∧ n ≤ high := by
  rw [integerWithin] at h
  cases hi : integer json with
  | error complaint => rw [hi] at h; cases h
  | ok k =>
      rw [hi] at h
      change (if k < low then _ else _) = _ at h
      split at h
      · cases h
      · rename_i hlow
        change (if high < k then _ else _) = _ at h
        split at h
        · cases h
        · rename_i hhigh
          cases h
          exact ⟨Int.not_lt.mp hlow, Int.not_lt.mp hhigh⟩

theorem bounds_of_optionalWithin {low high n : Int} {json : Json}
    (h : optionalWithin low high json = .ok (some n)) : low ≤ n ∧ n ≤ high := by
  have hsome : ∀ {x : Except Complaint Int}, some <$> x = .ok (some n) → x = .ok n := by
    intro x hx
    cases x with
    | error complaint => cases hx
    | ok k => cases hx; rfl
  cases json with
  | null => cases h
  | _ => exact bounds_of_integerWithin (hsome h)

/-! ## Bounds of requests -/

theorem bounded_default : Settings.Bounded {} := ⟨by decide, nofun⟩

theorem sound_checkSettings (place : List String) (json : Json) :
    (checkSettings place json).Sound Settings.Bounded := by
  cases json with
  | obj fields =>
      refine Checked.Sound.bind (Checked.sound_optional (P := fun n => 1 ≤ n ∧ n ≤ 1000000) (by decide)
        (fun _ _ => bounds_of_integerWithin) _ _) fun maxSteps hsteps => ?_
      refine (Checked.sound_true _).bind fun loadFont _ => ?_
      refine Checked.Sound.bind (Checked.sound_optional
        (P := fun limit => ∀ depth, limit = some depth → 1 ≤ depth ∧ depth ≤ 256) nofun ?_ _ _)
        fun maxDepth hdepth => ?_
      · rintro _ _ h depth rfl
        exact bounds_of_optionalWithin h
      refine (Checked.sound_true _).bind fun stopOnSelfJump _ => ?_
      refine (Checked.sound_true _).bind fun trace _ => ?_
      refine (Checked.sound_true _).bind fun traceRegisters _ => ?_
      refine (Checked.sound_true _).bind fun traceStack _ => ?_
      split <;> exact (Checked.sound_true _).bind fun memory _ => .pure ⟨hsteps, hdepth⟩
  | _ => exact Checked.sound_amiss _ _ _

theorem sound_settings (place : List String) (json : Json) :
    (some <$> checkSettings place json).Sound fun settings => (settings.getD {}).Bounded :=
  (sound_checkSettings place json).bind fun _ h => .pure h

theorem sound_checkRun (json : Json) : (checkRun json).Sound fun request => request.chosen.Bounded := by
  cases json with
  | obj fields =>
      refine (Checked.sound_true _).bind fun image _ => ?_
      split
      · exact .pure bounded_default
      · exact .pure bounded_default
      · exact (sound_settings _ _).bind fun _ hsettings => .pure hsettings
  | _ => exact Checked.sound_amiss _ _ _

theorem sound_checkList (json : Json) :
    (checkList json).Sound fun request => 0 ≤ request.origin ∧ request.origin ≤ 0xFFF := by
  cases json with
  | obj fields =>
      refine (Checked.sound_true _).bind fun image _ => ?_
      refine Checked.Sound.bind (Checked.sound_optional (P := fun n => 0 ≤ n ∧ n ≤ 0xFFF) (by decide)
        (fun _ _ => bounds_of_integerWithin) _ _) fun _ h => .pure h
  | _ => exact Checked.sound_amiss _ _ _

/-! ## Values of parts -/

theorem Checked.value_of_result {c : Checked α} {a : α} (h : c.result = .ok a) : c.value = a := by
  unfold result at h
  split at h
  · exact Except.ok.inj h
  · cases h

theorem Checked.value_bind (c : Checked α) (f : α → Checked β) : (c >>= f).value = (f c.value).value := rfl

section Values

variable {body body' : Json} {request request' : RunRequest} {text : String}

theorem value_required_rom (h : body.field? "rom" = some (.str text)) :
    (required bodyPlace body "rom" "" string).value = text := by
  rw [required, h]
  rfl

theorem value_required_congr {json json' : Json} {name : String} (h : json.field? name = json'.field? name)
    (place : List String) (standIn : String) :
    (required place json name standIn string).value = (required place json' name standIn string).value := by
  rw [required, required, h]
  cases json'.field? name <;> rfl

theorem image_eq_of_checkRun (hv : (checkRun body).result = .ok request) :
    request.image = (required bodyPlace body "rom" "" string).value := by
  have himage := congrArg RunRequest.image (Checked.value_of_result hv)
  cases body with
  | obj fields =>
      rw [← himage, checkRun, Checked.value_bind]
      split <;> rfl
  | _ => exact himage.symm

theorem image_eq_of_checkList {request : ListRequest} (hv : (checkList body).result = .ok request)
    (h : body.field? "rom" = some (.str text)) : request.image = text := by
  have himage := congrArg ListRequest.image (Checked.value_of_result hv)
  rw [← value_required_rom h, ← himage]
  cases body <;> rfl

theorem settings_congr {options options' : Json} (h : AlikeBut "initial_memory" options options')
    (place : List String) : (checkSettings place options).value.apart = (checkSettings place options').value.apart := by
  obtain ⟨fields, fields', rfl, rfl, hfields⟩ := h
  have hoptional : ∀ {α : Type} (name : String) (default : α) (rule : Json → Except Complaint α),
      name ≠ "initial_memory" →
      optional place (.obj fields) name default rule = optional place (.obj fields') name default rule := by
    intro α name default rule hname
    rw [optional, optional, hfields name hname]
  simp (disch := decide) only [checkSettings, hoptional, Checked.value_bind]
  split <;> split <;> rfl

theorem chosen_of_checkRun (hv : (checkRun body).result = .ok request) {fields : List (String × Json)}
    (h : body.field? "options" = some (.obj fields)) :
    request.chosen = (checkSettings (bodyPlace ++ ["options"]) (.obj fields)).value := by
  cases body with
  | obj entries =>
      have hchosen := congrArg RunRequest.chosen (Checked.value_of_result hv)
      rw [← hchosen, checkRun, Checked.value_bind]
      simp only [h]
      rfl
  | _ => simp [Json.field?] at h

theorem parts_of_sameButMemory (h : SameButMemory body body') (hv : (checkRun body).result = .ok request)
    (hv' : (checkRun body').result = .ok request') :
    request'.image = request.image ∧ request'.chosen.apart = request.chosen.apart := by
  obtain ⟨⟨fields, fields', rfl, rfl, hfields⟩, options, options', ho, ho', halike⟩ := h
  have hcongr := settings_congr halike (bodyPlace ++ ["options"])
  obtain ⟨entries, entries', rfl, rfl, -⟩ := halike
  have himage := value_required_congr (hfields "rom" (by decide)) bodyPlace ""
  constructor
  · rw [image_eq_of_checkRun hv, image_eq_of_checkRun hv', himage]
  · rw [chosen_of_checkRun hv ho, chosen_of_checkRun hv' ho', hcongr]

end Values

/-! ## Bodies with nothing but values -/

/-- A body with an image and values for single bytes. -/
def valuesBody (text : String) (values : List (String × Int)) : Json :=
  .obj [("rom", .str text),
    ("options", .obj [("initial_memory", .obj (values.map fun entry => (entry.1, .int entry.2)))])]

theorem integerTable_of_ints (place : List String) (values : List (String × Int)) :
    integerTable place (.obj (values.map fun entry => (entry.1, .int entry.2))) = pure values := by
  induction values with
  | nil => rfl
  | cons entry values ih =>
      simp only [integerTable] at ih
      simp only [integerTable, List.map_cons, List.mapM_cons, ih]
      rfl

theorem readRun_valuesBody (text : String) (values : List (String × Int)) :
    Framework.usual.readRun (valuesBody text values) =
      .ok { image := text, settings := some { memory := values } } := by
  have hparts : checkRun (valuesBody text values) =
      (some <$> (integerTable _ (.obj (values.map fun entry => (entry.1, .int entry.2))) >>= fun memory =>
        pure { memory })) >>= fun settings => pure { image := text, settings } := rfl
  show (checkRun (valuesBody text values)).result = _
  rw [hparts, integerTable_of_ints]
  rfl

/-! ## The framework -/

theorem render_of_writable {answer : Answer} (h : answer.Writable) :
    Framework.usual.render answer = .ok ⟨usualStatus answer, answer⟩ := if_pos h

theorem render_of_unwritable {answer : Answer} (h : ¬ answer.Writable) :
    Framework.usual.render answer = .error (renderFailure answer) := if_neg h

theorem Framework.lawful_usual : Framework.usual.Lawful where
  runImage hv hrom := (image_eq_of_checkRun hv).trans (value_required_rom hrom)
  bounded hv := (sound_checkRun _).of_result hv
  apart := parts_of_sameButMemory
  listImage := image_eq_of_checkList
  origin hv := (sound_checkList _).of_result hv
  returned {answer} hreturned hwritable := by
    rw [render_of_writable hwritable]
    cases answer with
    | ran | listed => rfl
    | refused | invalid => exact hreturned.elim
  unwritten _ hunwritable := ⟨_, render_of_unwritable hunwritable⟩
  raised _ := render_of_writable trivial

end ChipEight.Service
