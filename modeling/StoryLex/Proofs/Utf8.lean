import Mathlib.Data.FinEnum
import Mathlib.Data.List.Chain
import StoryLex.Proofs.Places

/-!
# StoryLex — texts in UTF-8

Scripts may be any bytes. Of those that are valid UTF-8 this module says what a
bytewise reader can see of their characters.

* `IsUtf8.isBoundary_iff` — a place lies between two characters exactly if the
  byte there does not go on with one (`CharAt`).
* `IsUtf8.whole` — an ASCII byte is a character, so none goes on behind it
  (`Whole`).
* `IsUtf8.bytes` — what lies between two boundaries is valid again.

The proofs go over strings, whose bytes are valid by construction.
-/

namespace StoryLex

-- ---------------------------------------------------------------------------
-- Valid texts
-- ---------------------------------------------------------------------------

/-- The bytes of a text are those of characters. -/
def IsUtf8 (text : Bytes) : Prop := text.toByteArray.IsValidUTF8

/-- A place between two characters, or at an end of the text. -/
def IsBoundary (text : Bytes) (i : Nat) : Prop := i ≤ text.length ∧ IsUtf8 (text.take i)

instance (text : Bytes) : Decidable (IsUtf8 text) :=
  inferInstanceAs (Decidable text.toByteArray.IsValidUTF8)

instance (text : Bytes) (i : Nat) : Decidable (IsBoundary text i) :=
  inferInstanceAs (Decidable (_ ∧ _))

/-- The ASCII bytes, each of which is a character. -/
def isAscii (b : UInt8) : Bool := b < 0x80

/-- No character goes on at a place. -/
def CharAt (text : Bytes) (i : Nat) : Prop := (text.drop i).head?.any isContinuation = false

/-- No character goes on behind an ASCII byte. -/
def Whole (text : Bytes) : Prop :=
  text.IsChain fun a b => isAscii a = true → isContinuation b = false

/-- The bytes of a string. -/
def encode (script : String) : Bytes := script.toByteArray.data.toList

section Strings

variable {script : String} {i : Nat} {x : UInt8}

@[simp] theorem length_encode (script : String) : (encode script).length = script.utf8ByteSize := by
  simp [encode]

/-- A valid text is the bytes of a string. -/
theorem IsUtf8.exists_eq_encode {text : Bytes} (h : IsUtf8 text) : ∃ script, text = encode script :=
  ⟨⟨_, h⟩, List.toList_data_toByteArray.symm⟩

/-- A stretch of a string's bytes is an extract of its array. -/
theorem toByteArray_bytes_encode (script : String) (s : Span) :
    (s.bytes (encode script)).toByteArray = script.toByteArray.extract s.start s.stop := by
  rw [ByteArray.ext_iff, List.data_toByteArray, ByteArray.data_extract, ← Array.toList_inj,
    Array.toList_extract]
  rfl

/-- The boundaries of a string's bytes are its valid positions. -/
theorem isBoundary_encode_iff :
    IsBoundary (encode script) i ↔ (String.Pos.Raw.mk i).IsValid script := by
  rw [String.Pos.Raw.isValid_iff_isValidUTF8_extract_zero, IsBoundary, IsUtf8, length_encode]
  have htake := toByteArray_bytes_encode script ⟨0, i⟩
  rw [Span.bytes, List.drop_zero, Nat.sub_zero] at htake
  rw [htake, String.Pos.Raw.le_iff]
  rfl

theorem getElem?_encode (h : String.Pos.Raw.mk i < script.rawEndPos) :
    (encode script)[i]? = some (script.getUTF8Byte ⟨i⟩ h) := by
  have hi : i < (encode script).length := by simpa [String.Pos.Raw.lt_iff] using h
  rw [List.getElem?_eq_getElem hi]
  rfl

/-- Behind the first byte of a character, each goes on with it. -/
theorem isContinuation_tail_utf8EncodeChar (c : Char) :
    ∀ x ∈ (String.utf8EncodeChar c).tail, isContinuation x = true := by
  have hcont : ∀ y : UInt8, isContinuation (y &&& 0x3f ||| 0x80) = true := by decide +kernel
  rw [String.utf8EncodeChar_eq_utf8EncodeCharFast]
  unfold String.utf8EncodeCharFast
  dsimp only
  split_ifs <;> simp [hcont]

/-- Each byte begins a character or goes on with one. -/
theorem isUTF8FirstByte_or_isContinuation (h : x ∈ encode script) :
    x.IsUTF8FirstByte ∨ isContinuation x = true := by
  have hbytes : encode script = script.toList.flatMap String.utf8EncodeChar := by
    conv => lhs; rw [← String.ofList_toList (s := script)]
    rw [encode, String.toByteArray_ofList, List.utf8Encode, List.toList_data_toByteArray]
  rw [hbytes] at h
  obtain ⟨c, -, hx⟩ := List.mem_flatMap.mp h
  have hfirst := UInt8.isUTF8FirstByte_getElem_zero_utf8EncodeChar (c := c)
  have htail := isContinuation_tail_utf8EncodeChar c x
  cases hchar : String.utf8EncodeChar c with
  | nil => simp [hchar] at hx
  | cons lead later =>
    simp only [hchar, List.getElem_cons_zero, List.tail_cons] at hfirst htail
    -- the lead byte of its character, or a later one
    rcases List.mem_cons.mp (hchar ▸ hx) with rfl | hx
    · exact Or.inl hfirst
    · exact Or.inr (htail hx)

theorem not_isUTF8FirstByte_of_isContinuation :
    ∀ x : UInt8, isContinuation x = true → ¬ x.IsUTF8FirstByte := by
  decide +kernel

/-- A position in a string is valid exactly if no character goes on there. -/
theorem isValid_iff_charAt (hi : i ≤ (encode script).length) :
    (String.Pos.Raw.mk i).IsValid script ↔ CharAt (encode script) i := by
  rw [String.Pos.Raw.isValid_iff_isUTF8FirstByte, CharAt, List.head?_drop]
  rcases Nat.eq_or_lt_of_le hi with rfl | hlt
  · -- the end of the string is a position, and no byte stands there
    have hend : String.Pos.Raw.mk (encode script).length = script.rawEndPos := by
      simp [String.Pos.Raw.ext_iff]
    rw [List.getElem?_eq_none le_rfl]
    exact ⟨fun _ => rfl, fun _ => Or.inl hend⟩
  · have hlt' : String.Pos.Raw.mk i < script.rawEndPos := by
      simpa [String.Pos.Raw.lt_iff] using hlt
    have hne : String.Pos.Raw.mk i ≠ script.rawEndPos := by
      intro heq
      simp [heq, String.Pos.Raw.lt_iff] at hlt'
    have hbyte := getElem?_encode hlt'
    rw [hbyte, Option.any_some, Bool.eq_false_iff]
    constructor
    · rintro (heq | ⟨_, hfirst⟩)
      · exact absurd heq hne
      · exact fun hcont => not_isUTF8FirstByte_of_isContinuation _ hcont hfirst
    · intro hcont
      have hkind := isUTF8FirstByte_or_isContinuation (List.mem_of_getElem? hbyte)
      exact Or.inr ⟨hlt', hkind.resolve_right hcont⟩

theorem and_eq_zero_of_isAscii : ∀ x : UInt8, isAscii x = true → x &&& 0x80 = 0 := by
  decide +kernel

/-- An ASCII byte is a character, and the next one begins behind it. -/
theorem charAt_succ_encode (hx : (encode script)[i]? = some x) (hascii : isAscii x = true) :
    CharAt (encode script) (i + 1) := by
  have hi : i < (encode script).length := (List.getElem?_eq_some_iff.mp hx).1
  have hlt : String.Pos.Raw.mk i < script.rawEndPos := by
    simpa [String.Pos.Raw.lt_iff] using hi
  obtain rfl : script.getUTF8Byte ⟨i⟩ hlt = x :=
    Option.some.inj ((getElem?_encode hlt).symm.trans hx)
  have hzero := and_eq_zero_of_isAscii _ hascii
  let pos : script.Pos :=
    ⟨⟨i⟩, String.Pos.Raw.isValid_iff_isUTF8FirstByte.mpr (Or.inr ⟨hlt, Or.inl hzero⟩)⟩
  have hne : pos ≠ script.endPos := by
    intro heq
    have hend : script.endPos.offset < script.rawEndPos := heq ▸ hlt
    simp [String.Pos.Raw.lt_iff] at hend
  -- with its highest bit not set, the byte is the whole character
  have hsize : (pos.get hne).utf8Size = 1 := by
    rw [← String.Pos.utf8ByteSize_byte]
    refine if_pos ?_
    rw [← String.Pos.getUTF8Byte_offset]
    exact hzero
  have hoffset : (pos.next hne).offset = ⟨i + 1⟩ := by
    rw [String.Pos.Raw.ext_iff, String.Pos.byteIdx_offset_next, hsize]
  exact (isValid_iff_charAt hi).mp (hoffset ▸ (pos.next hne).isValid)

end Strings

namespace IsUtf8

variable {text : Bytes} {i : Nat}

/-- A place of a valid text lies between two characters exactly if no character
goes on there. -/
theorem isBoundary_iff (h : IsUtf8 text) : IsBoundary text i ↔ i ≤ text.length ∧ CharAt text i := by
  obtain ⟨script, rfl⟩ := h.exists_eq_encode
  rw [isBoundary_encode_iff]
  constructor
  · intro hvalid
    have hi : i ≤ (encode script).length := by
      rw [length_encode]
      exact hvalid.le_utf8ByteSize
    exact ⟨hi, (isValid_iff_charAt hi).mp hvalid⟩
  · rintro ⟨hi, hchar⟩
    exact (isValid_iff_charAt hi).mpr hchar

/-- In a valid text no character goes on behind an ASCII byte. -/
theorem whole (h : IsUtf8 text) : Whole text := by
  obtain ⟨script, rfl⟩ := h.exists_eq_encode
  rw [Whole, List.isChain_iff_getElem]
  intro i hi hascii
  have hnext := charAt_succ_encode (List.getElem?_eq_getElem (by omega)) hascii
  rwa [CharAt, List.head?_drop, List.getElem?_eq_getElem hi, Option.any_some] at hnext

/-- What lies between two boundaries is valid. -/
theorem bytes (h : IsUtf8 text) {s : Span} (hle : s.start ≤ s.stop)
    (hstart : IsBoundary text s.start) (hstop : IsBoundary text s.stop) :
    IsUtf8 (s.bytes text) := by
  obtain ⟨script, rfl⟩ := h.exists_eq_encode
  rw [isBoundary_encode_iff] at hstart hstop
  rw [IsUtf8, toByteArray_bytes_encode]
  have hextract := String.Pos.Raw.isValidUTF8_extract_iff ⟨s.start⟩ ⟨s.stop⟩ hle hstop.le_rawEndPos
  exact hextract.mpr (Or.inr ⟨hstart, hstop⟩)

end IsUtf8

end StoryLex
