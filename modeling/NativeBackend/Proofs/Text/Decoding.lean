import NativeBackend.Heap.Basic

namespace NativeBackend

/-- The characters of code units in UTF-16. A surrogate counts only in a pair. -/
def utf16Decode? : List UInt16 → Option (List Char)
  | [] => some []
  | unit :: rest =>
    if unit.toNat < 0xD800 ∨ 0xE000 ≤ unit.toNat then (utf16Decode? rest).map (Char.ofNat unit.toNat :: ·)
    else
      match rest with
      | [] => none
      | low :: rest =>
        if unit.toNat < 0xDC00 ∧ 0xDC00 ≤ low.toNat ∧ low.toNat < 0xE000 then
          (utf16Decode? rest).map (Char.ofNat (0x10000 + (unit.toNat - 0xD800) * 0x400 + (low.toNat - 0xDC00)) :: ·)
        else none

theorem utf16Decode?_plain {unit : UInt16} (h : unit.toNat < 0xD800 ∨ 0xE000 ≤ unit.toNat) (rest : List UInt16) :
    utf16Decode? (unit :: rest) = (utf16Decode? rest).map (Char.ofNat unit.toNat :: ·) := by
  rw [utf16Decode?.eq_def]
  exact if_pos h

theorem utf16Decode?_pair {high low : UInt16} (hhigh : 0xD800 ≤ high.toNat ∧ high.toNat < 0xDC00)
    (hlow : 0xDC00 ≤ low.toNat ∧ low.toNat < 0xE000) (rest : List UInt16) :
    utf16Decode? (high :: low :: rest) = (utf16Decode? rest).map
      (Char.ofNat (0x10000 + (high.toNat - 0xD800) * 0x400 + (low.toNat - 0xDC00)) :: ·) := by
  rw [utf16Decode?, if_neg (by omega), if_pos ⟨hhigh.2, hlow⟩]

theorem char_ranges (c : Char) : c.toNat < 0xD800 ∨ (0xDFFF < c.toNat ∧ c.toNat < 0x110000) := c.valid

/-- The units of a character are read back whatever follows. -/
theorem utf16Decode?_units (c : Char) (rest : List UInt16) :
    utf16Decode? (utf16Units c ++ rest) = (utf16Decode? rest).map (c :: ·) := by
  have hc := char_ranges c
  rw [utf16Units]
  split
  · have hunit : (UInt16.ofNat c.toNat).toNat = c.toNat := UInt16.toNat_ofNat_of_lt' (by simpa using ‹_›)
    rw [List.singleton_append, utf16Decode?_plain (by omega), hunit, Char.ofNat_toNat]
  · have hhigh : (UInt16.ofNat (0xD800 + (c.toNat - 0x10000) / 0x400)).toNat = 0xD800 + (c.toNat - 0x10000) / 0x400 :=
      UInt16.toNat_ofNat_of_lt' (by simp [UInt16.size]; omega)
    have hlow : (UInt16.ofNat (0xDC00 + (c.toNat - 0x10000) % 0x400)).toNat = 0xDC00 + (c.toNat - 0x10000) % 0x400 :=
      UInt16.toNat_ofNat_of_lt' (by simp [UInt16.size]; omega)
    have hwhole : 0x10000 + (0xD800 + (c.toNat - 0x10000) / 0x400 - 0xD800) * 0x400 +
        (0xDC00 + (c.toNat - 0x10000) % 0x400 - 0xDC00) = c.toNat := by omega
    rw [List.cons_append, List.singleton_append, utf16Decode?_pair (by omega) (by omega), hhigh, hlow, hwhole,
      Char.ofNat_toNat]

theorem utf16Decode?_flatMap (cs : List Char) : utf16Decode? (cs.flatMap utf16Units) = some cs := by
  induction cs with
  | nil => rfl
  | cons c cs ih => rw [List.flatMap_cons, utf16Decode?_units, ih, Option.map_some]

theorem fromUTF8?_flatMap (s : String) : String.fromUTF8? (s.toList.flatMap utf8Bytes).toByteArray = some s := by
  have hbytes : (s.toList.flatMap utf8Bytes).toByteArray = s.toByteArray := String.utf8Encode_toList
  rw [hbytes, String.fromUTF8?, dif_pos s.isValidUTF8]
  rfl

/-- The text of an array's elements, by their kind: code units of UTF-16, or bytes of UTF-8 modulo 256. -/
def decodeText? : Descriptor → List Int → Option String
  | .char, elements => (utf16Decode? (elements.map UInt16.ofInt)).map String.ofList
  | .byte, elements => String.fromUTF8? (elements.map UInt8.ofInt).toByteArray
  | _, _ => none

theorem decodeText?_char (s : String) :
    decodeText? .char ((s.toList.flatMap utf16Units).map fun unit => (unit.toNat : Int)) = some s := by
  have hunits : ∀ unit : UInt16, UInt16.ofInt unit.toNat = unit := by
    intro unit
    have hroom : (unit.toNat : Int) % 2 ^ 16 = unit.toNat :=
      Int.emod_eq_of_lt (by omega) (by exact_mod_cast unit.toNat_lt)
    rw [UInt16.ofInt, hroom, Int.toNat_natCast, UInt16.ofNat_toNat]
  simp [decodeText?, Function.comp_def, hunits, utf16Decode?_flatMap]

theorem decodeText?_byte (s : String) :
    decodeText? .byte (((s.toList.flatMap utf8Bytes).map UInt8.toInt8).map Int8.toInt) = some s := by
  have hbytes : ∀ byte : UInt8, UInt8.ofInt byte.toInt8.toInt = byte := by
    intro byte
    have hsigned : byte.toInt8.toInt = (byte.toNat : Int).bmod (2 ^ 8) := BitVec.toInt_eq_toNat_bmod byte.toBitVec
    have hroom : (byte.toNat : Int) % 2 ^ 8 = byte.toNat :=
      Int.emod_eq_of_lt (by omega) (by exact_mod_cast byte.toNat_lt)
    have hmod : byte.toInt8.toInt % 2 ^ 8 = byte.toNat := by
      rw [hsigned]
      exact (Int.bmod_emod ..).trans hroom
    rw [UInt8.ofInt, hmod, Int.toNat_natCast, UInt8.ofNat_toNat]
  simp [decodeText?, Function.comp_def, hbytes, fromUTF8?_flatMap]

end NativeBackend
