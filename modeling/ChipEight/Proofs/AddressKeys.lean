import ChipEight.Proofs.Lemmas.Answering
import ChipEight.Proofs.Lemmas.Checked
import ChipEight.Proofs.Lemmas.Literals

/-!
# Keys for the same addresses

What counts of a key is the integer that it spells. Requests that differ in the spelling of their keys alone are
answered alike, and of several values for one address the last is loaded.
-/

namespace ChipEight.Service

open Effect
open Numeral (Spelling literal?)

variable {framework : Framework} {room : Room} {body body' : Json} {request request' : RunRequest}

/-! ## Requests that differ in their values for single bytes -/

theorem alikeBut_field (before : List (String × Json)) (name : String) (value value' : Json)
    (after : List (String × Json)) :
    AlikeBut name (.obj (before ++ (name, value) :: after)) (.obj (before ++ (name, value') :: after)) := by
  refine ⟨_, _, rfl, rfl, ?_⟩
  intro other hne
  have hother : (other == name) = false := by simp [hne]
  simp [Json.field?, List.lookup_append, List.lookup_cons, hother]

theorem sameButMemory_valuesBody (text : String) (values values' : List (String × Int)) :
    SameButMemory (valuesBody text values) (valuesBody text values') :=
  ⟨alikeBut_field [("rom", _)] "options" _ _ [], _, _, rfl, rfl, alikeBut_field [] "initial_memory" _ _ []⟩

/-! ## Keys -/

/-- A value is the same as another, and its key writes the same address. -/
def SameEntry (entry entry' : String × Int) : Prop :=
  entry'.2 = entry.2 ∧ ∃ addr, literal? entry.1 = some addr ∧ literal? entry'.1 = some addr

theorem addressed_congr {values values' : List (String × Int)} (h : List.Forall₂ SameEntry values values') :
    addressed values' = addressed values := by
  have hentries : values'.mapM addressEntry = values.mapM addressEntry := by
    induction h with
    | nil => rfl
    | cons hentry _ ih =>
        obtain ⟨hvalue, addr, haddr, haddr'⟩ := hentry
        simp only [List.mapM_cons, addressEntry, haddr, haddr', hvalue, ih]
  rw [addressed_eq, addressed_eq, hentries]

theorem options_congr {settings settings' : Settings} (h : settings'.apart = settings.apart)
    (values : Table Int Int) : settings'.options values = settings.options values :=
  congrArg (fun settings => settings.options values) h

theorem run_congr (hlawful : framework.Lawful) (h : SameButMemory body body')
    (hv : framework.readRun body = .ok request) (hv' : framework.readRun body' = .ok request')
    (hm : List.Forall₂ SameEntry request.chosen.memory request'.chosen.memory) :
    run body' framework room = run body framework room := by
  obtain ⟨himage, hchosen⟩ := hlawful.apart h hv hv'
  have hplan : plan request' = plan request := by
    simp only [plan, himage, addressed_congr hm, options_congr hchosen]
  simp only [run, hv, hv', hplan]

/-! ## Values -/

/-- The value is the last one whose key writes the address. -/
def LastAt (values : List (String × Int)) (addr value : Int) : Prop :=
  ∃ before key after, values = before ++ (key, value) :: after ∧ literal? key = some addr ∧
    ∀ entry ∈ after, literal? entry.1 ≠ some addr

/-- Loading comes to the values for the address: all that stand before one of them are for bytes of memory. -/
def Reached (values : List (String × Int)) (addr : Int) : Prop :=
  ∃ before after, values = before ++ after ∧ (∃ entry ∈ before, literal? entry.1 = some addr) ∧
    ∀ entry ∈ before, ∀ k, literal? entry.1 = some k → 0 ≤ k ∧ k ≤ 4095

/-- The request is answered with a run whose table has the value at the address. If loading comes to it, the run begins
with the value modulo 256 there. -/
def LoadsValue (framework : Framework) (room : Room) (body : Json) (request : RunRequest) (bytes : List Byte)
    (addr value : Int) : Prop :=
  ∃ initialMemory m r, run body framework room = framework.render (.ran r) ∧
    Run.Begins bytes (request.chosen.options initialMemory) m r ∧ initialMemory.get? addr = some value ∧
    (Reached request.chosen.memory addr →
      Machine.Step.perform (.memory (.readByte addr)) m = .ok (.number (value % 256)) m)

/-- The table begins with the addresses of the values that stand first. -/
theorem entries_of_reached {values : List (String × Int)} {addr : Int} (h : Reached values addr) :
    ∃ first rest, (Table.ofList (written values)).entries = first ++ rest ∧ addr ∈ first.map Prod.fst ∧
      ∀ entry ∈ first, 0 ≤ entry.1 ∧ entry.1 ≤ 4095 := by
  obtain ⟨before, after, rfl, haddr, hnear⟩ := h
  have hparts : written (before ++ after) = written before ++ written after := by simp [written]
  obtain ⟨keys, hkeys⟩ := Table.keys_prefix_ofList (written before) (written after)
  obtain ⟨first, rest, hentries, hfirst, -⟩ := List.map_eq_append_iff.mp hkeys.symm
  have hmem : ∀ k, k ∈ first.map Prod.fst ↔ ∃ entry ∈ before, literal? entry.1 = some k := by
    intro k
    rw [hfirst, Table.mem_keys_ofList, mem_keys_written]
  refine ⟨first, rest, by rw [hparts, hentries], (hmem addr).mpr haddr, ?_⟩
  intro entry hentry
  obtain ⟨named, hnamed, hk⟩ := (hmem entry.1).mp (List.mem_map_of_mem hentry)
  exact hnear named hnamed entry.1 hk

/-- A run begins with the value that loading comes to, modulo 256. -/
theorem read_of_reached {bytes : List Byte} {values : List (String × Int)} {o : Run.Options} {addr value : Int}
    (ho : Moderate o) (hlength : bytes.length ≤ imageLimit) (htable : o.initialMemory = .ofList (written values))
    (hvalue : o.initialMemory.get? addr = some value) (hreached : Reached values addr) :
    Machine.Step.perform (.memory (.readByte addr)) (stateOf (Run.load bytes o (.new o.toConfig))) =
      .ok (.number (value % 256)) (stateOf (Run.load bytes o (.new o.toConfig))) := by
  have hsize := memorySize_nonneg_of_moderate ho
  have hmemory := memorySize_of_moderate ho
  obtain ⟨hfont, hstart, himage⟩ := fits_of_moderate ho hlength
  obtain ⟨first, rest, hentries, haddr, hfirst⟩ := entries_of_reached hreached
  have hinside : ∀ entry ∈ first, o.Inside entry.1 := by
    intro entry hentry
    obtain ⟨hlow, hhigh⟩ := hfirst entry hentry
    exact ⟨hlow, by omega⟩
  have hcovers : ∀ entry ∈ first, (Run.imaged bytes o).board.memory.Covers entry.1 1 :=
    fun entry hentry => (Run.covers_imaged_iff hsize).mpr (hinside entry hentry)
  have haddress : o.Inside addr := by
    obtain ⟨entry, hentry, rfl⟩ := List.mem_map.mp haddr
    exact hinside entry hentry
  have hcell : (stateOf (Run.load bytes o (.new o.toConfig))).board.memory.cell addr = UInt8.ofInt value := by
    rw [Run.load_eq_values hsize hfont hstart himage]
    exact Run.cell_of_reached (htable ▸ hentries) hcovers haddr hvalue
  have hread := Run.read_of_load hsize hfont hstart himage haddress rfl
  rw [hcell, toNat_ofInt] at hread
  exact hread

theorem loadsValue_of_lastAt {bytes : List Byte} {addr value : Int} (hlawful : framework.Lawful)
    (hv : framework.readRun body = .ok request) (hi : image request.image = .ok bytes)
    (hk : ∀ entry ∈ request.chosen.memory, ∃ addr, literal? entry.1 = some addr)
    (hlast : LastAt request.chosen.memory addr value) : LoadsValue framework room body request bytes addr value := by
  let o := request.chosen.options (.ofList (written request.chosen.memory))
  have ho : Moderate o := moderate_options (hlawful.bounded hv) _
  have hvalue : o.initialMemory.get? addr = some value := by
    obtain ⟨before, key, after, hmemory, hkey, hafter⟩ := hlast
    simp only [o, Settings.options, hmemory]
    exact get?_written hkey hafter
  exact ⟨_, _, _, run_of_valid hlawful hv hi (addressed_eq_written hk),
    Run.begins_result (memorySize_nonneg_of_moderate ho), hvalue, read_of_reached ho (length_of_image hi) rfl hvalue⟩

/-! ## Keys that are too long -/

theorem run_of_overlong_key {bytes : List Byte} {before after : List (String × Int)} {count : Nat} {n value : Int}
    {key : String} (hlawful : framework.Lawful) (hv : framework.readRun body = .ok request)
    (hi : image request.image = .ok bytes) (hm : request.chosen.memory = before ++ (key, value) :: after)
    (hbefore : ∀ entry ∈ before, ∃ addr, literal? entry.1 = some addr) (hkey : Spelling 10 count n key)
    (hlong : 4300 < count) : run body framework room = .ok ⟨400, .refused (.notAddress key)⟩ := by
  have hnone : literal? key = none := by simp [Numeral.literal?_of_spelling hkey, hlong]
  have hrefused : addressed request.chosen.memory = .error (.notAddress key) := hm ▸ addressed_of_refused hbefore hnone
  exact run_of_refused_key hlawful hv hi hrefused

/-- A decimal number of ones. -/
def ones (count : Nat) : String := String.ofList (List.replicate count '1')

theorem spelling_ones (count : Nat) : ∃ n, Spelling 10 (count + 1) n (ones (count + 1)) := by
  obtain ⟨n, hn, -⟩ := Numeral.digits_replicate (by decide : 1 < 10) (Or.inl rfl) count
  have hlead : (List.replicate (count + 1) '1').head? = some '0' → List.replicate (count + 1) '1' = ['0'] := by
    simp [List.replicate_succ]
  exact ⟨n, [], _, [], by simp [ones], by simp, by simp, .bare (.decimal hn hlead)⟩

/-! ## The spelling of keys -/

/-- A key is read as the integer that it spells, unless it is decimal and has more than 4300 digits; then its request is
refused. Requests whose keys are read as the same integers, and that differ in nothing else, are answered alike. What
is loaded at an address is the last value for it. -/
theorem spelling_of_keys_is_immaterial (hlawful : framework.Lawful) (room : Room) :
    (∀ base count n key, Spelling base count n key →
        literal? key = if base = 10 ∧ 4300 < count then none else some n) ∧
      (∀ body request bytes before key value after count n, framework.readRun body = .ok request →
        image request.image = .ok bytes → request.chosen.memory = before ++ (key, value) :: after →
        (∀ entry ∈ before, ∃ addr, literal? entry.1 = some addr) → Spelling 10 count n key → 4300 < count →
        run body framework room = .ok ⟨400, .refused (.notAddress key)⟩ ∧
          (Refusal.notAddress key).message = "Invalid memory address key: " ++ key) ∧
      (∀ body body' request request', SameButMemory body body' → framework.readRun body = .ok request →
        framework.readRun body' = .ok request' →
        List.Forall₂ SameEntry request.chosen.memory request'.chosen.memory →
        run body' framework room = run body framework room) ∧
      (∀ body request bytes addr value, framework.readRun body = .ok request → image request.image = .ok bytes →
        (∀ entry ∈ request.chosen.memory, ∃ addr, literal? entry.1 = some addr) →
        LastAt request.chosen.memory addr value → LoadsValue framework room body request bytes addr value) := by
  refine ⟨fun base count n key h => Numeral.literal?_of_spelling h, ?_, ?_, ?_⟩
  · intro body request bytes before key value after count n hv hi hm hbefore hkey hlong
    exact ⟨run_of_overlong_key hlawful hv hi hm hbefore hkey hlong, rfl⟩
  · intro body body' request request' h hv hv' hm
    exact run_congr hlawful h hv hv' hm
  · intro body request bytes addr value hv hi hk hlast
    exact loadsValue_of_lastAt hlawful hv hi hk hlast

/-- Two requests with the values 7 and 258 for the byte at 768, under keys of four spellings, of which one has white
space, a sign, a mark and underscores; and a request with a key that is too long. -/
theorem spelling_of_keys_on_program :
    Spelling 8 4 768 "\t+0O_14_00\u3000" ∧ literal? "\t+0O_14_00\u3000" = some 768 ∧
      run (valuesBody "1200" [("0b1100000000", 7), ("\t+0O_14_00\u3000", 258)]) =
        run (valuesBody "1200" [("0x300", 7), ("768", 258)]) ∧
      (∃ o m r, run (valuesBody "1200" [("0x300", 7), ("768", 258)]) = Framework.usual.render (.ran r) ∧
        Run.Begins [0x12, 0x00] o m r ∧
        Machine.Step.perform (.memory (.readByte 768)) m = .ok (.number 2) m) ∧
      run (valuesBody "1200" [("-1", 0), (ones 4301, 0)]) = .ok ⟨400, .refused (.notAddress (ones 4301))⟩ := by
  have hspelling : Spelling 8 4 768 "\t+0O_14_00\u3000" := by
    have hone : Numeral.Digits 8 1 1 ['1'] := .one (by decide) (by decide)
    have htwo : Numeral.Digits 8 2 12 ['1', '4'] := hone.next (d := 4) (by decide) (by decide)
    have hthree : Numeral.Digits 8 3 96 ['1', '4', '_', '0'] := htwo.apart (d := 0) (by decide) (by decide)
    have hfour : Numeral.Digits 8 4 768 ['1', '4', '_', '0', '0'] := hthree.next (d := 0) (by decide) (by decide)
    have hsigned : Numeral.Signed 8 4 768 ['+', '0', 'O', '_', '1', '4', '_', '0', '0'] :=
      .plus (.markedApart ⟨'o', by decide, by decide⟩ hfour)
    exact ⟨['\t'], _, ['\u3000'], rfl, List.forall_mem_singleton.mpr rfl, List.forall_mem_singleton.mpr rfl, hsigned⟩
  obtain ⟨hread, hrefused, hsame, hloads⟩ := spelling_of_keys_is_immaterial Framework.lawful_usual .usual
  have hi : image "1200" = .ok [0x12, 0x00] := rfl
  have hoctal : literal? "\t+0O_14_00\u3000" = some 768 := hread _ _ _ _ hspelling
  have hhexadecimal : literal? "0x300" = some 768 := rfl
  have hdecimal : literal? "768" = some 768 := rfl
  have hbinary : literal? "0b1100000000" = some 768 := rfl
  have hnegative : literal? "-1" = some (-1) := rfl
  have hv := readRun_valuesBody "1200" [("0x300", 7), ("768", 258)]
  refine ⟨hspelling, hoctal, ?_, ?_, ?_⟩
  · have hv' := readRun_valuesBody "1200" [("0b1100000000", 7), ("\t+0O_14_00\u3000", 258)]
    exact hsame _ _ _ _ (sameButMemory_valuesBody _ _ _) hv hv'
      (.cons ⟨rfl, 768, hhexadecimal, hbinary⟩ (.cons ⟨rfl, 768, hdecimal, hoctal⟩ .nil))
  · have hreached : Reached [("0x300", 7), ("768", 258)] 768 :=
      ⟨[("0x300", 7), ("768", 258)], [], rfl, ⟨("768", 258), by simp, hdecimal⟩, by simp [hhexadecimal, hdecimal]⟩
    have hlast : LastAt [("0x300", 7), ("768", 258)] 768 258 :=
      ⟨[("0x300", 7)], "768", [], rfl, hdecimal, by simp⟩
    have hk : ∀ entry ∈ [("0x300", (7 : Int)), ("768", 258)], ∃ addr, literal? entry.1 = some addr := by
      simp [hhexadecimal, hdecimal]
    obtain ⟨values, m, r, hrun, hbegins, -, hload⟩ := hloads _ _ _ 768 258 hv hi hk hlast
    exact ⟨_, m, r, hrun, hbegins, hload hreached⟩
  · obtain ⟨n, hlong⟩ := spelling_ones 4300
    have hv' := readRun_valuesBody "1200" [("-1", 0), (ones 4301, 0)]
    exact (hrefused _ _ _ [("-1", 0)] _ _ [] _ _ hv' hi rfl (by simp [hnegative]) hlong (by decide)).1

/-- A decimal number of 4301 digits is spelled without leading zeros, yet it is read as no integer, and a request with
this key is refused. -/
theorem long_decimal_key_is_refused :
    (∃ n, Spelling 10 4301 n (ones 4301)) ∧ literal? (ones 4301) = none ∧
      run (valuesBody "" [("-1", 0), (ones 4301, 0)]) = .ok ⟨400, .refused (.notAddress (ones 4301))⟩ := by
  obtain ⟨n, hspelling⟩ := spelling_ones 4300
  have hnone : literal? (ones 4301) = none := by simp [Numeral.literal?_of_spelling hspelling]
  have hnegative : literal? "-1" = some (-1) := rfl
  have hbefore : ∀ entry ∈ [("-1", (0 : Int))], ∃ addr, literal? entry.1 = some addr := by simp [hnegative]
  have hi : image "" = .ok [] := rfl
  have hm : [("-1", 0), (ones 4301, 0)] = [("-1", (0 : Int))] ++ (ones 4301, 0) :: [] := rfl
  have hv := readRun_valuesBody "" [("-1", 0), (ones 4301, 0)]
  exact ⟨⟨n, hspelling⟩, hnone, run_of_overlong_key Framework.lawful_usual hv hi hm hbefore hspelling (by decide)⟩

end ChipEight.Service
