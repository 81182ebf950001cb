import ChipEight.Instruction.Listing
import ChipEight.Proofs.Lemmas.Memory

/-!
# The entries of a listing

Entry `k` of a listing is of the bytes `2 * k` and `2 * k + 1` of the image. So the words of a listing, written one
after another, are the image again (`assembled_listing`).
-/

namespace ChipEight.Instruction

theorem cases_of_short {image : List Byte} (h : ∀ high low rest, image = high :: low :: rest → False) :
    image = [] ∨ ∃ b, image = [b] := by
  rcases image with _ | ⟨b, _ | ⟨low, rest⟩⟩
  · exact Or.inl rfl
  · exact Or.inr ⟨b, rfl⟩
  · exact absurd rfl (h b low rest)

theorem getElem?_listing (image : List Byte) (origin : Int) (k : Nat) :
    (listing image origin)[k]? = do
      let high ← image[2 * k]?
      let low ← image[2 * k + 1]?
      return (origin + 2 * k, ofBytes high low) := by
  induction image, origin using listing.induct generalizing k with
  | case1 high low rest origin ih =>
      cases k with
      | zero => simp [listing]
      | succ k =>
          have haddr : origin + 2 + 2 * (k : Int) = origin + 2 * (k + 1 : Nat) := by omega
          rw [listing, List.getElem?_cons_succ, ih, haddr]
          rfl
  | case2 image origin hshort =>
      obtain rfl | ⟨b, rfl⟩ := cases_of_short hshort
      · rfl
      · cases k <;> simp [listing]

theorem getElem?_listing_of_bytes {image : List Byte} {k : Nat} {high low : Byte} (origin : Int)
    (hh : image[2 * k]? = some high) (hl : image[2 * k + 1]? = some low) :
    (listing image origin)[k]? = some (origin + 2 * k, ofBytes high low) := by
  rw [getElem?_listing, hh, hl]
  rfl

theorem addr_of_listing {image : List Byte} {origin : Int} {k : Nat} {entry : Int × Instruction}
    (h : (listing image origin)[k]? = some entry) : entry.1 = origin + 2 * k := by
  rw [getElem?_listing] at h
  obtain ⟨high, -, h⟩ := Option.bind_eq_some_iff.mp h
  obtain ⟨low, -, h⟩ := Option.bind_eq_some_iff.mp h
  cases h
  rfl

theorem length_listing (image : List Byte) (origin : Int) : (listing image origin).length = image.length / 2 := by
  induction image, origin using listing.induct with
  | case1 high low rest origin ih =>
      simp only [listing, List.length_cons, ih]
      omega
  | case2 image origin hshort => obtain rfl | ⟨b, rfl⟩ := cases_of_short hshort <;> simp [listing]

/-! ## Back to the image -/

/-- The two bytes of the word, the high one first. -/
def bytes (i : Instruction) : List Byte := [UInt8.ofNat (i.word.toNat / 256), UInt8.ofNat (i.word.toNat % 256)]

/-- The words of a listing, written one after another. -/
def assembled (entries : List (Int × Instruction)) : List Byte := entries.flatMap fun entry => entry.2.bytes

/-- An image without its last byte if that is an odd one. -/
def wholeWords (image : List Byte) : List Byte := if image.length % 2 = 1 then image.dropLast else image

theorem bytes_ofBytes (high low : Byte) : (ofBytes high low).bytes = [high, low] := by
  have hlow := low.toNat_lt
  have hword := word_ofBytes high low
  have hfirst : (ofBytes high low).word.toNat / 256 = high.toNat := by omega
  have hsecond : (ofBytes high low).word.toNat % 256 = low.toNat := by omega
  simp [bytes, hfirst, hsecond]

theorem wholeWords_cons (high low : Byte) (rest : List Byte) :
    wholeWords (high :: low :: rest) = high :: low :: wholeWords rest := by
  have hparity : (rest.length + 2) % 2 = rest.length % 2 := by omega
  by_cases hodd : rest.length % 2 = 1
  · have hne : rest ≠ [] := by rintro rfl; cases hodd
    simp [wholeWords, hparity, hodd, List.dropLast_cons_of_ne_nil, hne]
  · simp [wholeWords, hparity, hodd]

theorem assembled_listing (image : List Byte) (origin : Int) : assembled (listing image origin) = wholeWords image := by
  induction image, origin using listing.induct with
  | case1 high low rest origin ih => simpa [listing, assembled, bytes_ofBytes, wholeWords_cons] using ih
  | case2 image origin hshort => obtain rfl | ⟨b, rfl⟩ := cases_of_short hshort <;> rfl

theorem listing_append {image : List Byte} (heven : image.length % 2 = 0) (rest : List Byte) (origin : Int) :
    listing (image ++ rest) origin = listing image origin ++ listing rest (origin + image.length) := by
  induction image, origin using listing.induct with
  | case1 high low tail origin ih =>
      have htail : tail.length % 2 = 0 := by
        simp only [List.length_cons] at heven
        omega
      have horigin : origin + 2 + (tail.length : Int) = origin + ((high :: low :: tail).length : Int) := by
        simp only [List.length_cons]
        omega
      simp only [List.cons_append, listing, ih htail, horigin]
  | case2 image origin hshort =>
      obtain rfl | ⟨b, rfl⟩ := cases_of_short hshort
      · simp [listing]
      · cases heven

end ChipEight.Instruction
