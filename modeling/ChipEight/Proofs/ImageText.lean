import ChipEight.Proofs.Lemmas.Answering
import ChipEight.Proofs.Lemmas.Checked
import ChipEight.Proofs.Lemmas.Hexadecimal
import ChipEight.Proofs.Numbers

/-!
# Texts of images

An image is written in hexadecimal digits of either case, with blanks anywhere. Both services work on exactly the
bytes that are written, if they are not too many. Every other text is refused by both.
-/

namespace ChipEight.Service

open Blank (Spread stripped)
open Instruction (assembled listing wholeWords)

variable {text detail : String} {data : List Byte}

/-- The text writes the bytes: their digits in order, in either case, and blanks anywhere. -/
def Spells (data : List Byte) (text : String) : Prop := ∃ digits, Hex.Writes digits data ∧ Spread digits text.toList

/-- The text without its blanks is an even number of digits. -/
def Paired (text : String) : Prop := Hex.Paired (stripped text.toList)

theorem spells_iff : Spells data text ↔ Hex.bytes? (stripped text.toList) = some data := by
  rw [Hex.bytes?_eq_some_iff]
  constructor
  · rintro ⟨digits, hwrites, hspread⟩
    rwa [Blank.stripped_of_spread hspread fun c hc => Hex.not_blank_of_writes hwrites hc]
  · intro hwrites
    exact ⟨_, hwrites, Blank.spread_stripped _⟩

theorem exists_spells_iff : (∃ data, Spells data text) ↔ Paired text := by
  simp only [spells_iff, Hex.bytes?_eq_some_iff, Hex.exists_writes_iff, Paired]

/-! ## Images -/

theorem image_of_bytes? (h : Hex.bytes? (stripped text.toList) = some data) :
    image text = if imageLimit < data.length then .error .imageTooLarge else .ok data := by
  rw [stripped] at h
  rw [image, h]

theorem image_of_spells (h : Spells data text) (hlimit : data.length ≤ 3584) : image text = .ok data := by
  have hfits : ¬ imageLimit < data.length := Nat.not_lt.mpr hlimit
  simp [image_of_bytes? (spells_iff.mp h), hfits]

theorem image_of_long (h : Spells data text) (hlimit : 3584 < data.length) : image text = .error .imageTooLarge := by
  have hlong : imageLimit < data.length := hlimit
  simp [image_of_bytes? (spells_iff.mp h), hlong]

theorem image_of_not_paired (h : ¬ Paired text) : image text = .error .notHex := by
  cases hbytes : Hex.bytes? (stripped text.toList) with
  | some data => exact absurd (exists_spells_iff.mp ⟨data, spells_iff.mpr hbytes⟩) h
  | none =>
      rw [stripped] at hbytes
      rw [image, hbytes]

/-! ## Answers -/

/-- The run is of the bytes: it begins with a machine whose memory has them from address 512 on, except where the key
of a single value writes such an address. If all these values are for bytes of memory, it does its cycles from there. -/
structure RunsOn (data : List Byte) (request : RunRequest) (o : Run.Options) (m : Machine) (r : Run.Result) : Prop where
  begins : Run.Begins data o m r
  fresh : m.cycles = 0
  bytes : ∀ (k : Nat) b, data[k]? = some b →
    (∀ entry ∈ request.chosen.memory, Numeral.literal? entry.1 ≠ some (0x200 + k)) →
    Machine.Step.perform (.memory (.readByte (0x200 + k))) m = .ok (.number b.toNat) m
  cycles : ¬ Astray request → r = Run.loop o o.maxSteps.toNat [] m

/-- Both services work on the bytes, whatever else a body with the text says, as long as it passes and its keys are all
addresses. -/
structure WorkedOn (framework : Framework) (room : Room) (text : String) (data : List Byte) : Prop where
  run : ∀ body request, framework.readRun body = .ok request → body.field? "rom" = some (.str text) →
    (∀ entry ∈ request.chosen.memory, ∃ addr, Numeral.literal? entry.1 = some addr) →
    ∃ values m r, addressed request.chosen.memory = .ok values ∧
      run body framework room = framework.render (.ran r) ∧
      RunsOn data request (request.chosen.options values) m r ∧
      (¬ Astray request → run body framework room = .ok ⟨200, .ran r⟩)
  list : ∀ body request, framework.readList body = .ok request → body.field? "rom" = some (.str text) →
    list body framework = .ok ⟨200, .listed (listing data request.origin)⟩ ∧
      (listing data request.origin).length = data.length / 2 ∧
      assembled (listing data request.origin) = wholeWords data

/-- Both services refuse a body with the text, whatever else it says, as long as it passes. -/
structure Refused (framework : Framework) (room : Room) (text detail : String) : Prop where
  run : ∀ body request, framework.readRun body = .ok request → body.field? "rom" = some (.str text) →
    ∃ refusal, run body framework room = .ok ⟨400, .refused refusal⟩ ∧ refusal.message = detail
  list : ∀ body request, framework.readList body = .ok request → body.field? "rom" = some (.str text) →
    ∃ refusal, list body framework = .ok ⟨400, .refused refusal⟩ ∧ refusal.message = detail

variable {framework : Framework} {room : Room}

theorem runsOn_of_moderate {request : RunRequest} {o : Run.Options} (ho : Moderate o)
    (hlength : data.length ≤ imageLimit)
    (hkeys : ∀ addr, addr ∈ o.initialMemory.entries.map Prod.fst ↔
      ∃ entry ∈ request.chosen.memory, Numeral.literal? entry.1 = some addr) :
    ∃ m, RunsOn data request o m (Run.result data o) := by
  have hsize := memorySize_nonneg_of_moderate ho
  obtain ⟨hfont, hstart, himage⟩ := fits_of_moderate ho hlength
  have horigin := start_of_moderate ho
  have hbegins : Run.Begins data o _ (Run.result data o) := Run.begins_result hsize
  refine ⟨_, { begins := hbegins, fresh := hbegins.cycles, bytes := fun k b hk hnone => ?bytes, cycles := ?cycles }⟩
  case bytes =>
    obtain ⟨hlt, -⟩ := List.getElem?_eq_some_iff.mp hk
    have hunnamed : o.start + k ∉ o.initialMemory.entries.map Prod.fst := by
      rw [hkeys, horigin]
      rintro ⟨entry, hentry, haddr⟩
      exact hnone entry hentry haddr
    have hcell := Run.cell_of_image hsize hfont hstart himage hk hunnamed
    have hinside : o.Inside (o.start + k) := ⟨by omega, by omega⟩
    have hread := Run.read_of_load hsize hfont hstart himage hinside rfl
    rw [hcell, horigin] at hread
    exact hread
  case cycles =>
    intro hnear
    have hload := Run.load_of_fit hsize (mt (unfit_iff_astray ho hlength hkeys).mp hnear)
    rw [Run.result_of_loaded hload, hload]
    rfl

theorem workedOn_of_image (hlawful : framework.Lawful) (h : image text = .ok data) :
    WorkedOn framework room text data where
  run := by
    intro body request hv hrom hk
    have hi : image request.image = .ok data := hlawful.runImage hv hrom ▸ h
    obtain ⟨values, ha, hkeys⟩ := addressed_of_literals hk
    have ho := moderate_options (hlawful.bounded hv) values
    have hrun : run body framework room = _ := run_of_valid hlawful hv hi ha
    have hlength := length_of_image h
    obtain ⟨m, hon⟩ := runsOn_of_moderate ho hlength hkeys
    refine ⟨values, m, _, ha, hrun, hon, fun hnear => ?_⟩
    have hfit := mt (unfit_iff_astray ho hlength hkeys).mp hnear
    have hload := Run.load_of_fit (memorySize_nonneg_of_moderate ho) hfit
    have hwritable := Run.writable_of_loaded hload (start_in_range_of_moderate ho) ho.maxSteps.2
    rw [hrun]
    exact hlawful.returned trivial hwritable
  list := by
    intro body request hv hrom
    have hi : image request.image = .ok data := hlawful.listImage hv hrom ▸ h
    exact ⟨list_of_valid hlawful hv hi, Instruction.length_listing data request.origin,
      Instruction.assembled_listing data request.origin⟩

theorem refused_of_image (hlawful : framework.Lawful) {refusal : Refusal} (h : image text = .error refusal) :
    Refused framework room text refusal.message where
  run := by
    intro body request hv hrom
    have hi : image request.image = .error refusal := hlawful.runImage hv hrom ▸ h
    exact ⟨refusal, run_of_refused_image hlawful hv hi, rfl⟩
  list := by
    intro body request hv hrom
    have hi : image request.image = .error refusal := hlawful.listImage hv hrom ▸ h
    exact ⟨refusal, list_of_refused_image hlawful hv hi, rfl⟩

/-- A text that spells no more bytes than fit is worked on as these bytes. Every other text is refused: if it is no
even number of digits, as such, and else because it spells too many bytes. -/
theorem image_text_decides_answer (hlawful : framework.Lawful) (room : Room) (text : String) :
    (∀ data, Spells data text → data.length ≤ 3584 → WorkedOn framework room text data) ∧
      ((¬ ∃ data, Spells data text ∧ data.length ≤ 3584) →
        (¬ Paired text → Refused framework room text "ROM must be a hex string") ∧
        (Paired text → (∃ data, Spells data text ∧ 3584 < data.length) ∧
          Refused framework room text "ROM size exceeds limit of 3584 bytes")) := by
  refine ⟨fun data hspells hlimit => workedOn_of_image hlawful (image_of_spells hspells hlimit), fun hother => ⟨?_, ?_⟩⟩
  · intro hunpaired
    exact refused_of_image hlawful (image_of_not_paired hunpaired)
  · intro hpaired
    obtain ⟨data, hspells⟩ := exists_spells_iff.mpr hpaired
    have hlong : 3584 < data.length := Nat.not_le.mp fun hlimit => hother ⟨data, hspells, hlimit⟩
    exact ⟨⟨data, hspells, hlong⟩, refused_of_image hlawful (image_of_long hspells hlong)⟩

/-- A text of two bytes with blanks between their digits, which is run and listed; and a text of three digits, which is
refused. -/
theorem image_text_of_split_bytes :
    ∃ runBody r m listBody oddBody,
      runBody = Json.obj [("options", .obj [("max_steps", .int 1)]), ("rom", .str "A0\t0\u3000f")] ∧
      Spells [0xA0, 0x0F] "A0\t0\u3000f" ∧ run runBody = .ok ⟨200, .ran r⟩ ∧
      r = Run.loop { maxSteps := 1 } 1 [] m ∧
      Machine.Step.perform (.memory (.readByte 0x201)) m = .ok (.number 0x0F) m ∧
      listBody = Json.obj [("rom", .str "A0\t0\u3000f"), ("origin", .int 0xFFF)] ∧
      list listBody = .ok ⟨200, .listed (listing [0xA0, 0x0F] 0xFFF)⟩ ∧
      oddBody = Json.obj [("rom", .str "A0\u00A00")] ∧ ¬ Paired "A0\u00A00" ∧
      ∃ refusal, list oddBody = .ok ⟨400, .refused refusal⟩ ∧ refusal.message = "ROM must be a hex string" := by
  let text := "A0\t0\u3000f"
  let runBody : Json := .obj [("options", .obj [("max_steps", .int 1)]), ("rom", .str text)]
  let listBody : Json := .obj [("rom", .str text), ("origin", .int 0xFFF)]
  let oddBody : Json := .obj [("rom", .str "A0\u00A00")]
  have hspells : Spells [0xA0, 0x0F] text := spells_iff.mpr (by decide)
  have hrun : Framework.usual.readRun runBody = .ok { image := text, settings := some { maxSteps := 1 } } := rfl
  have hlist : Framework.usual.readList listBody = .ok ⟨text, 0xFFF⟩ := rfl
  have hodd : Framework.usual.readList oddBody = .ok ⟨"A0\u00A00", 0x200⟩ := rfl
  have hunpaired : ¬ Paired "A0\u00A00" := fun h => by cases h.1
  have hother : ¬ ∃ data, Spells data "A0\u00A00" ∧ data.length ≤ 3584 :=
    fun ⟨data, hdata, _⟩ => hunpaired (exists_spells_iff.mp ⟨data, hdata⟩)
  obtain ⟨hworked, -⟩ := image_text_decides_answer Framework.lawful_usual .usual text
  obtain ⟨hran, hlisted⟩ := hworked _ hspells (by decide)
  obtain ⟨values, m, r, hvalues, -, hon, hanswer⟩ := hran runBody _ hrun rfl nofun
  obtain rfl : values = .empty := (Except.ok.inj hvalues).symm
  have hnear : ¬ Astray { image := text, settings := some { maxSteps := 1 } } := by
    rintro ⟨entry, hentry, -⟩
    cases hentry
  obtain ⟨-, hrefused⟩ := image_text_decides_answer Framework.lawful_usual .usual "A0\u00A00"
  obtain ⟨refusal, hrefusal, hmessage⟩ := ((hrefused hother).1 hunpaired).list oddBody _ hodd rfl
  exact ⟨runBody, r, m, listBody, oddBody, rfl, hspells, hanswer hnear, hon.cycles hnear,
    hon.bytes 1 0x0F rfl nofun, rfl, (hlisted listBody _ hlist rfl).1, rfl, hunpaired, refusal, hrefusal, hmessage⟩

end ChipEight.Service
