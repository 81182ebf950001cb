import ChipEight.Proofs.Lemmas.Hexadecimal
import ChipEight.Text.Numeral
import Mathlib.Tactic.Ring

/-!
# Spellings of integers

A spelling has white space around it, a sign or none, and digits of a base with single underscores between them. It is
read as the integer that its digits write, unless it is decimal and too long (`literal?_of_spelling`).
-/

namespace ChipEight

open Hex (EitherCase)

/-- Characters that neither begin nor end with white space are what is left of them with white space around. -/
theorem Blank.trim_append {before after cs : List Char} (hbefore : ∀ c ∈ before, isSpace c = true)
    (hafter : ∀ c ∈ after, isSpace c = true) (hfirst : ∃ c rest, cs = c :: rest ∧ isSpace c = false)
    (hlast : ∃ c init, cs = init ++ [c] ∧ isSpace c = false) : trim (before ++ cs ++ after) = cs := by
  have hreverse : ∀ c ∈ after.reverse, isSpace c = true := by simpa using hafter
  have hstart : (cs ++ after).dropWhile isSpace = cs ++ after := by
    obtain ⟨c, rest, rfl, hc⟩ := hfirst
    simp [hc]
  have hend : cs.reverse.dropWhile isSpace = cs.reverse := by
    obtain ⟨c, init, rfl, hc⟩ := hlast
    simp [hc]
  rw [trim, List.append_assoc, List.dropWhile_append_of_pos hbefore, hstart, List.reverse_append,
    List.dropWhile_append_of_pos hreverse, hend, List.reverse_reverse]

namespace Numeral

/-! ## Spellings -/

/-- Digits of a base, of either case and with single underscores between them: how many they are, and the number that
they write. -/
inductive Digits (base : Nat) : Nat → Nat → List Char → Prop
  | one {d : Nat} {c : Char} (hd : d < base) (hc : EitherCase c (Nat.digitChar d)) : Digits base 1 d [c]
  | next {count n d : Nat} {cs : List Char} {c : Char} (h : Digits base count n cs) (hd : d < base)
      (hc : EitherCase c (Nat.digitChar d)) : Digits base (count + 1) (n * base + d) (cs ++ [c])
  | apart {count n d : Nat} {cs : List Char} {c : Char} (h : Digits base count n cs) (hd : d < base)
      (hc : EitherCase c (Nat.digitChar d)) : Digits base (count + 1) (n * base + d) (cs ++ ['_', c])

/-- The letter marks a base after a zero. -/
def Marks (base : Nat) (letter : Char) : Prop :=
  ∃ mark, (base, mark) ∈ [(16, 'x'), (8, 'o'), (2, 'b')] ∧ EitherCase letter mark

/-- Digits without a sign: decimal ones without leading zeros, or those of a base that is marked. -/
inductive Unsigned : Nat → Nat → Nat → List Char → Prop
  | decimal {count n : Nat} {cs : List Char} (h : Digits 10 count n cs) (hlead : cs.head? = some '0' → cs = ['0']) :
      Unsigned 10 count n cs
  | marked {base count n : Nat} {letter : Char} {cs : List Char} (hm : Marks base letter) (h : Digits base count n cs) :
      Unsigned base count n ('0' :: letter :: cs)
  | markedApart {base count n : Nat} {letter : Char} {cs : List Char} (hm : Marks base letter)
      (h : Digits base count n cs) : Unsigned base count n ('0' :: letter :: '_' :: cs)

inductive Signed : Nat → Nat → Int → List Char → Prop
  | bare {base count n : Nat} {cs : List Char} (h : Unsigned base count n cs) : Signed base count n cs
  | plus {base count n : Nat} {cs : List Char} (h : Unsigned base count n cs) : Signed base count n ('+' :: cs)
  | minus {base count n : Nat} {cs : List Char} (h : Unsigned base count n cs) : Signed base count (-n) ('-' :: cs)

/-- A text that spells an integer in a base, with a number of digits. -/
def Spelling (base count : Nat) (n : Int) (text : String) : Prop :=
  ∃ before cs after, text.toList = before ++ cs ++ after ∧ (∀ c ∈ before, Blank.isSpace c = true) ∧
    (∀ c ∈ after, Blank.isSpace c = true) ∧ Signed base count n cs

variable {base count n d value : Nat} {c letter : Char} {cs rest : List Char}

/-! ## Digits -/

theorem digit?_of_eitherCase (hbase : base ≤ 16) (hd : d < base) (hc : EitherCase c (Nat.digitChar d)) :
    digit? base c = some d := by
  have hall : ∀ c ∈ Hex.digits, (DecimalDigit.value? c <|> Hex.digit? c) = Hex.digit? c :=
    Hex.forall_mem_digits (by decide)
  have hdigit := Hex.digit?_of_eitherCase (Nat.lt_of_lt_of_le hd hbase) hc
  rw [digit?, hall c (Hex.mem_digits_of_digit? hdigit), hdigit]
  simp [hd]

/-- What stands at either end of digits is neither a sign nor an underscore nor white space. -/
theorem of_mem_digits : ∀ c ∈ Hex.digits, c ≠ '_' ∧ c ≠ '+' ∧ c ≠ '-' ∧ Blank.isSpace c = false :=
  Hex.forall_mem_digits (by decide)

theorem mem_digits (hbase : base ≤ 16) (hd : d < base) (hc : EitherCase c (Nat.digitChar d)) : c ∈ Hex.digits :=
  Hex.mem_digits_of_digit? (Hex.digit?_of_eitherCase (Nat.lt_of_lt_of_le hd hbase) hc)

theorem Digits.head (h : Digits base count n cs) (hbase : base ≤ 16) : ∃ c rest, cs = c :: rest ∧ c ∈ Hex.digits := by
  induction h with
  | one hd hc => exact ⟨_, [], rfl, mem_digits hbase hd hc⟩
  | next _ _ _ ih | apart _ _ _ ih =>
      obtain ⟨c, rest, rfl, hc⟩ := ih
      exact ⟨c, _, rfl, hc⟩

theorem Digits.last (h : Digits base count n cs) (hbase : base ≤ 16) : ∃ c init, cs = init ++ [c] ∧ c ∈ Hex.digits := by
  cases h with
  | one hd hc => exact ⟨_, [], rfl, mem_digits hbase hd hc⟩
  | next _ hd hc => exact ⟨_, _, rfl, mem_digits hbase hd hc⟩
  | @apart _ _ _ cs _ _ hd hc => exact ⟨_, cs ++ ['_'], by simp, mem_digits hbase hd hc⟩

theorem Digits.countP (h : Digits base count n cs) (hbase : base ≤ 16) : cs.countP (· ≠ '_') = count := by
  induction h with
  | one hd hc => simp [(of_mem_digits _ (mem_digits hbase hd hc)).1]
  | next _ hd hc ih | apart _ hd hc ih =>
      simp only [ne_eq, decide_not] at ih
      simp [(of_mem_digits _ (mem_digits hbase hd hc)).1, ih]

/-- The same digit again and again: a share of the next power of the base. -/
theorem digits_replicate (hd : d < base) (hc : EitherCase c (Nat.digitChar d)) (count : Nat) :
    ∃ n, Digits base (count + 1) n (List.replicate (count + 1) c) ∧ n * (base - 1) + d = d * base ^ (count + 1) := by
  obtain ⟨b, rfl⟩ : ∃ b, base = b + 1 := ⟨base - 1, by omega⟩
  rw [Nat.add_sub_cancel]
  induction count with
  | zero => exact ⟨d, .one hd hc, by ring⟩
  | succ count ih =>
      obtain ⟨n, hn, hvalue⟩ := ih
      rw [List.replicate_succ']
      refine ⟨n * (b + 1) + d, hn.next hd hc, ?_⟩
      calc (n * (b + 1) + d) * b + d = (n * b + d) * (b + 1) := by ring
        _ = d * (b + 1) ^ (count + 1) * (b + 1) := by rw [hvalue]
        _ = d * (b + 1) ^ (count + 1 + 1) := by ring

theorem ne_underscore_of_digit? (h : digit? base c = some d) : c ≠ '_' := by
  rintro rfl
  have hnone : digit? base '_' = none := rfl
  cases hnone.symm.trans h

theorem moreDigits?_digit (h : digit? base c = some d) :
    moreDigits? base value (c :: rest) = moreDigits? base (value * base + d) rest := by
  have hc := ne_underscore_of_digit? h
  simp [moreDigits?, h, hc]

theorem moreDigits?_apart (h : digit? base c = some d) :
    moreDigits? base value ('_' :: c :: rest) = moreDigits? base (value * base + d) rest := by
  simp [moreDigits?, h]

theorem digits?_append (h : Digits base count n cs) (hbase : base ≤ 16) (rest : List Char) :
    digits? base (cs ++ rest) = moreDigits? base n rest := by
  induction h generalizing rest with
  | one hd hc => simp [digits?, digit?_of_eitherCase hbase hd hc]
  | next _ hd hc ih =>
      have hdigit := digit?_of_eitherCase hbase hd hc
      simp [ih, moreDigits?_digit hdigit]
  | apart _ hd hc ih =>
      have hdigit := digit?_of_eitherCase hbase hd hc
      simp [ih, moreDigits?_apart hdigit]

theorem digits?_of_digits (h : Digits base count n cs) (hbase : base ≤ 16) : digits? base cs = some n := by
  have hall := digits?_append h hbase []
  rwa [List.append_nil] at hall

/-! ## Numbers without a sign -/

theorem eq_zero_of_digit? : ∀ c ∈ Hex.digits, digit? 10 c = some 0 → c = '0' := Hex.forall_mem_digits (by decide)

/-- If decimal digits begin with a zero, it is all they are. -/
theorem eq_zero_of_lead (h : Digits 10 count n cs) (hlead : cs.head? = some '0' → cs = ['0'])
    (hzero : cs.head?.bind (digit? 10) = some 0) : cs = ['0'] ∧ n = 0 := by
  obtain ⟨c, rest, rfl, hc⟩ := h.head (by decide)
  obtain rfl : c = '0' := eq_zero_of_digit? c hc (by simpa using hzero)
  have hall := hlead rfl
  have hvalue := digits?_of_digits h (by decide)
  rw [hall] at hvalue
  exact ⟨hall, (Option.some.inj hvalue).symm⟩

theorem unmarked?_of_digits (h : Digits 10 count n cs) (hlead : cs.head? = some '0' → cs = ['0']) :
    unmarked? cs = if 4300 < count then none else some n := by
  have hcount := h.countP (by decide)
  have hvalue := digits?_of_digits h (by decide)
  have hzero : ¬ (cs.head?.bind (digit? 10) = some 0 ∧ n ≠ 0) := by
    rintro ⟨hhead, hne⟩
    exact hne (eq_zero_of_lead h hlead hhead).2
  rw [unmarked?, hcount, hvalue, digitLimit]
  by_cases hlong : 4300 < count
  · simp [hlong]
  · simp [hlong, hzero]

theorem base?_of_marks (h : Marks base letter) : base? letter = some base ∧ base ≤ 16 ∧ base ≠ 10 := by
  obtain ⟨mark, hmark, hletter⟩ := h
  have hall : ∀ pair ∈ [(16, 'x'), (8, 'o'), (2, 'b')], base? pair.2 = some pair.1 ∧
      base? pair.2.toUpper = some pair.1 ∧ pair.1 ≤ 16 ∧ pair.1 ≠ 10 := by decide
  obtain ⟨hlower, hupper, hbase⟩ := hall _ hmark
  rcases hletter with rfl | rfl
  · exact ⟨hlower, hbase⟩
  · exact ⟨hupper, hbase⟩

theorem afterMark?_of_digits (h : Digits base count n cs) (hbase : base ≤ 16) : afterMark? base cs = some n := by
  obtain ⟨c, rest, rfl, hc⟩ := h.head hbase
  have hne := (of_mem_digits c hc).1
  simp [afterMark?, hne, digits?_of_digits h hbase]

theorem magnitude?_of_unsigned (h : Unsigned base count n cs) :
    magnitude? cs = if base = 10 ∧ 4300 < count then none else some n := by
  cases h with
  | decimal h hlead =>
      have hdecimal := unmarked?_of_digits h hlead
      simp only [true_and, ← hdecimal]
      unfold magnitude?
      split
      · split
        · rename_i hzero _
          cases (eq_zero_of_lead h hlead hzero).1
        · rfl
      · rfl
  | marked hm h =>
      obtain ⟨hbase, hle, hne⟩ := base?_of_marks hm
      have hzero : digit? 10 '0' = some 0 := rfl
      simp [magnitude?, hzero, hbase, hne, afterMark?_of_digits h hle]
  | markedApart hm h =>
      obtain ⟨hbase, hle, hne⟩ := base?_of_marks hm
      have hzero : digit? 10 '0' = some 0 := rfl
      simp [magnitude?, hzero, hbase, hne, afterMark?, digits?_of_digits h hle]

/-! ## Spellings are read -/

theorem Unsigned.head (h : Unsigned base count n cs) : ∃ c rest, cs = c :: rest ∧ c ∈ Hex.digits := by
  cases h with
  | decimal h _ => exact h.head (by decide)
  | marked _ _ | markedApart _ _ => exact ⟨'0', _, rfl, by decide⟩

theorem Unsigned.last (h : Unsigned base count n cs) : ∃ c init, cs = init ++ [c] ∧ c ∈ Hex.digits := by
  cases h with
  | decimal h _ => exact h.last (by decide)
  | @marked _ _ _ letter _ hm h =>
      obtain ⟨c, init, rfl, hc⟩ := h.last (base?_of_marks hm).2.1
      exact ⟨c, '0' :: letter :: init, rfl, hc⟩
  | @markedApart _ _ _ letter _ hm h =>
      obtain ⟨c, init, rfl, hc⟩ := h.last (base?_of_marks hm).2.1
      exact ⟨c, '0' :: letter :: '_' :: init, rfl, hc⟩

variable {k : Int}

theorem signed?_of_signed (h : Signed base count k cs) :
    signed? magnitude? cs = if base = 10 ∧ 4300 < count then none else some k := by
  cases h with
  | bare h =>
      obtain ⟨c, rest, rfl, hc⟩ := h.head
      obtain ⟨-, hplus, hminus, -⟩ := of_mem_digits c hc
      rw [signed?, magnitude?_of_unsigned h]
      · split <;> rfl
      · simp [hminus]
      · simp [hplus]
  | plus h | minus h =>
      rw [signed?, magnitude?_of_unsigned h]
      split <;> rfl

theorem Signed.first (h : Signed base count k cs) : ∃ c rest, cs = c :: rest ∧ Blank.isSpace c = false := by
  cases h with
  | bare h =>
      obtain ⟨c, rest, rfl, hc⟩ := h.head
      exact ⟨c, rest, rfl, (of_mem_digits c hc).2.2.2⟩
  | plus h | minus h => exact ⟨_, _, rfl, by decide⟩

theorem Signed.last (h : Signed base count k cs) : ∃ c init, cs = init ++ [c] ∧ Blank.isSpace c = false := by
  cases h with
  | bare h =>
      obtain ⟨c, init, rfl, hc⟩ := h.last
      exact ⟨c, init, rfl, (of_mem_digits c hc).2.2.2⟩
  | plus h | minus h =>
      obtain ⟨c, init, rfl, hc⟩ := h.last
      exact ⟨c, _ :: init, rfl, (of_mem_digits c hc).2.2.2⟩

/-- A spelling is read as what it spells, unless it is decimal and has more digits than are read. -/
theorem literal?_of_spelling {text : String} (h : Spelling base count k text) :
    literal? text = if base = 10 ∧ 4300 < count then none else some k := by
  obtain ⟨before, cs, after, htext, hbefore, hafter, hsigned⟩ := h
  rw [literal?, htext, Blank.trim_append hbefore hafter hsigned.first hsigned.last, signed?_of_signed hsigned]

end Numeral
end ChipEight
