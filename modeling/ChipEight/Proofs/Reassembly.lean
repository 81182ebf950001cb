import ChipEight.Proofs.Lemmas.Listing

/-!
# Listings lose nothing

An image can be put together again from its listing, but for a last odd byte. Images of whole words can be listed
one after another.
-/

namespace ChipEight.Instruction

/-- The widest operand field is part of the word, and the others are parts of it and of one another. -/
structure FieldsAgree (i : Instruction) : Prop where
  address : i.nnn.val = i.word.toNat % 4096
  register : i.nnn.val = 256 * i.x.val + i.nn.toNat
  byte : i.nn.toNat = 16 * i.y.val + i.n.val

theorem fieldsAgree (i : Instruction) : i.FieldsAgree := by
  have hnn : i.nn.toNat = i.word.toNat % 256 := by simp [nn]
  refine ⟨rfl, ?_, ?_⟩
  · simp only [nnn, x, hnn]
    omega
  · simp only [y, n, hnn]
    omega

/-- A listing has an entry for every whole word, at its address and with fields that agree. Its words are the bytes of
the image, and the listing of an image of whole words goes on with that of the bytes after it. -/
theorem listing_loses_nothing (image : List Byte) (origin : Int) :
    (listing image origin).length = image.length / 2 ∧
      (∀ (k : Nat) entry, (listing image origin)[k]? = some entry → entry.1 = origin + 2 * k) ∧
      assembled (listing image origin) = wholeWords image ∧
      (∀ entry ∈ listing image origin, entry.2.FieldsAgree) ∧
      ∀ rest, image.length % 2 = 0 →
        listing (image ++ rest) origin = listing image origin ++ listing rest (origin + image.length) := by
  refine ⟨length_listing image origin, fun k entry h => addr_of_listing h, assembled_listing image origin, ?_, ?_⟩
  · intro entry _
    exact entry.2.fieldsAgree
  · intro rest heven
    exact listing_append heven rest origin

/-- An image of one word, and an image of an odd number of bytes after it. -/
theorem listing_of_word_and_odd_image :
    [0x12, 0x34].length % 2 = 0 ∧
      listing ([0x12, 0x34] ++ [0xD1, 0x25, 0xFF]) (-2) =
        listing [0x12, 0x34] (-2) ++ listing [0xD1, 0x25, 0xFF] 0 ∧
      assembled (listing ([0x12, 0x34] ++ [0xD1, 0x25, 0xFF]) (-2)) = [0x12, 0x34, 0xD1, 0x25] := by
  obtain ⟨-, -, -, -, happend⟩ := listing_loses_nothing [0x12, 0x34] (-2)
  obtain ⟨-, -, hwords, -, -⟩ := listing_loses_nothing ([0x12, 0x34] ++ [0xD1, 0x25, 0xFF]) (-2)
  exact ⟨rfl, happend [0xD1, 0x25, 0xFF] rfl, hwords⟩

end ChipEight.Instruction
