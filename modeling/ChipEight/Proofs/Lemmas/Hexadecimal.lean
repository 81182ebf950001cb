import Mathlib.Data.List.Forall2
import Mathlib.Tactic.IntervalCases
import Mathlib.Tactic.Tauto
import ChipEight.Text.Blank
import ChipEight.Text.Hex

/-!
# Bytes in hexadecimal digits

Digits are read as bytes if and only if they write them, two for each in either case (`bytes?_eq_some_iff`). An even
number of digits always does.
-/

namespace ChipEight

namespace Hex

/-- A letter may be of either case. -/
def EitherCase (c digit : Char) : Prop := c = digit ∨ c = digit.toUpper

instance (c digit : Char) : Decidable (EitherCase c digit) := inferInstanceAs (Decidable (_ ∨ _))

/-- The characters are the digits of the bytes, in either case. -/
def Writes (cs : List Char) (data : List UInt8) : Prop := List.Forall₂ EitherCase cs (data.flatMap ofByte)

def digits : List Char :=
  ['0', '1', '2', '3', '4', '5', '6', '7', '8', '9', 'a', 'b', 'c', 'd', 'e', 'f', 'A', 'B', 'C', 'D', 'E', 'F']

/-- An even number of digits. -/
def Paired (cs : List Char) : Prop := cs.length % 2 = 0 ∧ ∀ c ∈ cs, c ∈ digits

variable {c : Char} {cs : List Char} {b : UInt8} {data : List UInt8} {d : Nat}

/-! ## One digit -/

theorem digit?_of_eitherCase (hd : d < 16) (h : EitherCase c (Nat.digitChar d)) : digit? c = some d := by
  have hboth : ∀ d < 16, digit? (Nat.digitChar d) = some d ∧ digit? (Nat.digitChar d).toUpper = some d := by decide
  obtain ⟨hlower, hupper⟩ := hboth d hd
  rcases h with rfl | rfl
  · exact hlower
  · exact hupper

-- Deciding the statement itself may run through all characters, of which there are finitely many.
theorem forall_mem_digits {P : Char → Prop} [DecidablePred P] (h : digits.all (P ·) = true) : ∀ c ∈ digits, P c := by
  simpa using h

theorem exists_digit_of_mem : ∀ c ∈ digits, ∃ d < 16, digit? c = some d ∧ EitherCase c (Nat.digitChar d) :=
  forall_mem_digits (by decide)

theorem mem_digits_of_digit? (h : digit? c = some d) : c ∈ digits := by
  have hrange : (48 ≤ c.toNat ∧ c.toNat ≤ 57) ∨ (97 ≤ c.toNat ∧ c.toNat ≤ 102) ∨ (65 ≤ c.toNat ∧ c.toNat ≤ 70) := by
    unfold digit? at h
    split at h
    · rename_i hc
      exact Or.inl hc
    · split at h
      · rename_i hc
        exact Or.inr (Or.inl hc)
      · split at h
        · rename_i hc
          exact Or.inr (Or.inr hc)
        · cases h
  rw [← Char.ofNat_toNat c]
  rcases hrange with ⟨hlow, hhigh⟩ | ⟨hlow, hhigh⟩ | ⟨hlow, hhigh⟩ <;> interval_cases c.toNat <;> decide

theorem eitherCase_of_digit? (h : digit? c = some d) : d < 16 ∧ EitherCase c (Nat.digitChar d) := by
  obtain ⟨d', hlt, hd', hcase⟩ := exists_digit_of_mem c (mem_digits_of_digit? h)
  obtain rfl : d = d' := Option.some.inj (h.symm.trans hd')
  exact ⟨hlt, hcase⟩

/-! ## Bytes -/

theorem writes_cons_iff :
    Writes cs (b :: data) ↔ ∃ high low rest, cs = high :: low :: rest ∧ EitherCase high (Nat.digitChar (b.toNat / 16)) ∧
      EitherCase low (Nat.digitChar (b.toNat % 16)) ∧ Writes rest data := by
  simp only [Writes, List.flatMap_cons, ofByte, List.cons_append, List.nil_append, List.forall₂_cons_right_iff]
  constructor
  · rintro ⟨high, _, hhigh, ⟨low, rest, hlow, hrest, rfl⟩, rfl⟩
    exact ⟨high, low, rest, rfl, hhigh, hlow, hrest⟩
  · rintro ⟨high, low, rest, rfl, hhigh, hlow, hrest⟩
    exact ⟨high, _, hhigh, ⟨low, rest, hlow, hrest, rfl⟩, rfl⟩

theorem bytes?_of_writes (h : Writes cs data) : bytes? cs = some data := by
  induction data generalizing cs with
  | nil =>
      obtain rfl : cs = [] := by simpa [Writes] using h
      rfl
  | cons b data ih =>
      obtain ⟨high, low, rest, rfl, hhigh, hlow, hrest⟩ := writes_cons_iff.mp h
      have hb := b.toNat_lt
      have hbyte : UInt8.ofNat (16 * (b.toNat / 16) + b.toNat % 16) = b := by rw [Nat.div_add_mod, UInt8.ofNat_toNat]
      have hh := digit?_of_eitherCase (by omega) hhigh
      have hl := digit?_of_eitherCase (by omega) hlow
      simp only [bytes?, hh, hl, ih hrest, Option.bind_eq_bind, Option.bind_some, hbyte, Option.pure_def]

theorem writes_of_bytes? (h : bytes? cs = some data) : Writes cs data := by
  induction cs using bytes?.induct generalizing data with
  | case1 =>
      obtain rfl : [] = data := by simpa [bytes?] using h
      exact .nil
  | case2 c => simp [bytes?] at h
  | case3 high low rest ih =>
      simp only [bytes?, Option.bind_eq_bind, Option.bind_eq_some_iff, Option.pure_def, Option.some.injEq] at h
      obtain ⟨d, hd, d', hd', tail, htail, rfl⟩ := h
      obtain ⟨hlt, hhigh⟩ := eitherCase_of_digit? hd
      obtain ⟨hlt', hlow⟩ := eitherCase_of_digit? hd'
      have hbyte : (UInt8.ofNat (16 * d + d')).toNat = 16 * d + d' := by
        simp only [UInt8.toNat_ofNat']
        omega
      refine writes_cons_iff.mpr ⟨high, low, rest, rfl, ?_, ?_, ih htail⟩
      · rwa [hbyte, show (16 * d + d') / 16 = d by omega]
      · rwa [hbyte, show (16 * d + d') % 16 = d' by omega]

theorem bytes?_eq_some_iff : bytes? cs = some data ↔ Writes cs data := ⟨writes_of_bytes?, bytes?_of_writes⟩

/-! ## Pairs of digits -/

theorem paired_cons_iff {high low : Char} {rest : List Char} :
    Paired (high :: low :: rest) ↔ high ∈ digits ∧ low ∈ digits ∧ Paired rest := by
  have hparity : (rest.length + 1 + 1) % 2 = rest.length % 2 := by omega
  simp only [Paired, List.length_cons, hparity, List.mem_cons, forall_eq_or_imp]
  tauto

theorem paired_of_writes (h : Writes cs data) : Paired cs := by
  induction data generalizing cs with
  | nil =>
      obtain rfl : cs = [] := by simpa [Writes] using h
      exact ⟨rfl, by simp⟩
  | cons b data ih =>
      obtain ⟨high, low, rest, rfl, hhigh, hlow, hrest⟩ := writes_cons_iff.mp h
      have hb := b.toNat_lt
      have hh := digit?_of_eitherCase (by omega) hhigh
      have hl := digit?_of_eitherCase (by omega) hlow
      exact paired_cons_iff.mpr ⟨mem_digits_of_digit? hh, mem_digits_of_digit? hl, ih hrest⟩

theorem exists_writes_of_paired (h : Paired cs) : ∃ data, Writes cs data := by
  induction cs using bytes?.induct with
  | case1 => exact ⟨[], .nil⟩
  | case2 c => cases h.1
  | case3 high low rest ih =>
      obtain ⟨hhigh, hlow, hrest⟩ := paired_cons_iff.mp h
      obtain ⟨data, hdata⟩ := ih hrest
      obtain ⟨d, -, hd, -⟩ := exists_digit_of_mem high hhigh
      obtain ⟨d', -, hd', -⟩ := exists_digit_of_mem low hlow
      exact ⟨UInt8.ofNat (16 * d + d') :: data,
        writes_of_bytes? (by simp [bytes?, hd, hd', bytes?_of_writes hdata])⟩

theorem exists_writes_iff : (∃ data, Writes cs data) ↔ Paired cs :=
  ⟨fun ⟨_, h⟩ => paired_of_writes h, exists_writes_of_paired⟩

/-- No digit is a blank. -/
theorem not_blank_of_writes (h : Writes cs data) (hc : c ∈ cs) : Blank.isBlank c = false := by
  have hall : ∀ c ∈ digits, Blank.isBlank c = false := forall_mem_digits (by decide)
  exact hall c ((paired_of_writes h).2 c hc)

end Hex

/-! ## Blanks -/

namespace Blank

/-- The text has the characters in their order, and blanks anywhere. -/
inductive Spread : List Char → List Char → Prop
  | nil : Spread [] []
  | char {cs text : List Char} (c : Char) (h : Spread cs text) : Spread (c :: cs) (c :: text)
  | blank {cs text : List Char} {c : Char} (hc : isBlank c = true) (h : Spread cs text) : Spread cs (c :: text)

/-- What is left of a text without its blanks. -/
def stripped (text : List Char) : List Char := text.filter fun c => !isBlank c

theorem stripped_of_spread {cs text : List Char} (h : Spread cs text) (hcs : ∀ c ∈ cs, isBlank c = false) :
    stripped text = cs := by
  induction h with
  | nil => rfl
  | char c _ ih =>
      simp only [List.mem_cons, forall_eq_or_imp] at hcs
      obtain ⟨hc, hrest⟩ := hcs
      simpa [stripped, hc] using ih hrest
  | blank hc _ ih => simpa [stripped, hc] using ih hcs

theorem spread_stripped (text : List Char) : Spread (stripped text) text := by
  induction text with
  | nil => exact .nil
  | cons c text ih =>
      cases hc : isBlank c with
      | true => simpa [stripped, hc] using ih.blank hc
      | false => simpa [stripped, hc] using ih.char c

end Blank
end ChipEight
