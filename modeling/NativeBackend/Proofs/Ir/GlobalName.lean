import Mathlib.Data.List.Basic
import NativeBackend.Ir.Symbol
import NativeBackend.Proofs.Text.Decoding

namespace NativeBackend

def hexValue? (digit : UInt8) : Option UInt8 :=
  if 48 ≤ digit ∧ digit ≤ 57 then some (digit - 48)
  else if 65 ≤ digit ∧ digit ≤ 70 then some (digit - 55)
  else if 97 ≤ digit ∧ digit ≤ 102 then some (digit - 87)
  else none

/-- The bytes that a quoted name stands for: a backslash with two hexadecimal digits is the byte of this code, and
everything else is itself. -/
def unescapeName : List UInt8 → List UInt8
  | [] => []
  | byte :: rest =>
    match byte == 92, rest with
    | true, high :: low :: rest =>
      match hexValue? high, hexValue? low with
      | some h, some l => (h * 16 + l) :: unescapeName rest
      | _, _ => byte :: unescapeName (high :: low :: rest)
    | _, rest => byte :: unescapeName rest

def bytesOf (text : String) : List UInt8 := text.toList.flatMap utf8Bytes

theorem bytesOf_injective {s t : String} (h : bytesOf s = bytesOf t) : s = t := by
  rw [bytesOf, bytesOf] at h
  exact Option.some.inj ((fromUTF8?_flatMap s).symm.trans (h ▸ fromUTF8?_flatMap t))

def replaced (c : Char) (text cs : List Char) : List Char := cs.flatMap fun d => if d = c then text else [d]

/-- Backslashes are written by code first and quotes then: neither touches what the other has written. -/
theorem escape_eq_replaced (cs : List Char) :
    cs.flatMap escapeNameChar = replaced '"' ['\\', '2', '2'] (replaced '\\' ['\\', '5', 'C'] cs) := by
  rw [replaced, replaced, List.flatMap_assoc]
  refine List.flatMap_congr fun c _ => ?_
  rw [escapeNameChar]
  by_cases hbackslash : c = '\\'
  · subst hbackslash
    decide
  · simp [hbackslash]

theorem unescapeName_cons_of_ne {byte : UInt8} (h : byte ≠ 92) (rest : List UInt8) :
    unescapeName (byte :: rest) = byte :: unescapeName rest := by
  rw [unescapeName]
  simp [h]

theorem unescapeName_append {bytes : List UInt8} (h : 92 ∉ bytes) (rest : List UInt8) :
    unescapeName (bytes ++ rest) = bytes ++ unescapeName rest := by
  induction bytes with
  | nil => rfl
  | cons byte bytes ih =>
      rw [List.mem_cons, not_or] at h
      rw [List.cons_append, unescapeName_cons_of_ne (Ne.symm h.1), ih h.2, List.cons_append]

theorem eq_backslash_of_mem {c : Char} (h : 92 ∈ utf8Bytes c) : c = '\\' := by
  have hvalue : ∀ n, n < 256 → (92 : UInt8) = UInt8.ofNat n → n = 92 := by
    intro n hroom heq
    have hnat := congrArg UInt8.toNat heq
    rw [UInt8.toNat_ofNat_of_lt' hroom] at hnat
    exact hnat.symm
  have hhigh : ∀ n, 128 ≤ n → n < 256 → (92 : UInt8) ≠ UInt8.ofNat n := by
    intro n hlow hroom heq
    have := hvalue n hroom heq
    omega
  rw [utf8Bytes, String.utf8EncodeChar] at h
  split at h
  · have hcode := hvalue _ (by omega) (List.mem_singleton.1 h)
    exact Char.toNat_inj.1 hcode
  · exfalso
    split at h
    · simp only [List.mem_cons, List.not_mem_nil, or_false] at h
      rcases h with h | h <;> exact hhigh _ (by omega) (by omega) h
    · split at h
      · simp only [List.mem_cons, List.not_mem_nil, or_false] at h
        rcases h with h | h | h <;> exact hhigh _ (by omega) (by omega) h
      · simp only [List.mem_cons, List.not_mem_nil, or_false] at h
        rcases h with h | h | h | h <;> exact hhigh _ (by omega) (by omega) h

/-- Whatever a name is made of, it is read back from its escaped form. -/
theorem unescapeName_escape (cs : List Char) :
    unescapeName ((cs.flatMap escapeNameChar).flatMap utf8Bytes) = cs.flatMap utf8Bytes := by
  induction cs with
  | nil => rfl
  | cons c cs ih =>
      rw [List.flatMap_cons, List.flatMap_append, List.flatMap_cons, escapeNameChar]
      by_cases hbackslash : c = '\\'
      · subst hbackslash
        exact congrArg (92 :: ·) ih
      · by_cases hquote : c = '"'
        · subst hquote
          exact congrArg (34 :: ·) ih
        · rw [if_neg hbackslash, if_neg hquote, List.flatMap_singleton,
            unescapeName_append (mt eq_backslash_of_mem hbackslash), ih]

theorem notMem_escape (cs : List Char) : '"' ∉ cs.flatMap escapeNameChar := by
  rw [List.mem_flatMap]
  rintro ⟨c, -, h⟩
  rw [escapeNameChar] at h
  split at h
  · exact absurd h (by decide)
  · split at h
    · exact absurd h (by decide)
    · exact absurd (List.mem_singleton.1 h).symm ‹_›

/-- A name that needs no quotes: not empty, of letters and digits of ASCII and three other characters, and not starting
with a digit. -/
structure BareName (name : String) : Prop where
  nonempty : name ≠ ""
  start : ∀ c ∈ name.toList.head?, ¬ ('0' ≤ c ∧ c ≤ '9')
  chars : ∀ c ∈ name.toList, 'a' ≤ c ∧ c ≤ 'z' ∨ 'A' ≤ c ∧ c ≤ 'Z' ∨ '0' ≤ c ∧ c ≤ '9' ∨ c = '_' ∨ c = '.' ∨ c = '$'

section Characters

variable {c : Char}

theorem isUpper_iff : c.isUpper = true ↔ 'A' ≤ c ∧ c ≤ 'Z' := decide_eq_true_iff

theorem isLower_iff : c.isLower = true ↔ 'a' ≤ c ∧ c ≤ 'z' :=
  Bool.and_eq_true_iff.trans (and_congr decide_eq_true_iff decide_eq_true_iff)

theorem isDigit_iff : c.isDigit = true ↔ '0' ≤ c ∧ c ≤ '9' :=
  Bool.and_eq_true_iff.trans (and_congr decide_eq_true_iff decide_eq_true_iff)

theorem isAlphanum_iff : c.isAlphanum = true ↔ (c.isUpper = true ∨ c.isLower = true) ∨ c.isDigit = true :=
  Bool.or_eq_true_iff.trans (or_congr_left Bool.or_eq_true_iff)

theorem isSymbolChar_iff : isSymbolChar c = true ↔
    'a' ≤ c ∧ c ≤ 'z' ∨ 'A' ≤ c ∧ c ≤ 'Z' ∨ '0' ≤ c ∧ c ≤ '9' ∨ c = '_' ∨ c = '.' ∨ c = '$' := by
  simp only [isSymbolChar, Bool.or_eq_true, decide_eq_true_eq, isAlphanum_iff, isUpper_iff, isLower_iff, isDigit_iff]
  rw [or_comm (a := 'A' ≤ c ∧ _), or_assoc, or_assoc, or_assoc, or_assoc]

end Characters

theorem isBareName_iff {name : String} : isBareName name.toList = true ↔ BareName name := by
  cases hname : name.toList with
  | nil =>
      refine ⟨fun h => ?_, fun h => absurd (String.toList_eq_nil_iff.1 hname) h.nonempty⟩
      cases h
  | cons c cs =>
      have hne : name ≠ "" := fun h => by simp [h] at hname
      simp only [isBareName, Bool.and_eq_true, Bool.not_eq_true', List.all_eq_true, isSymbolChar_iff, ← hname]
      rw [← Bool.not_eq_true, isDigit_iff]
      refine ⟨fun h => ⟨hne, by simpa [hname] using h.1, h.2⟩, fun h => ⟨?_, h.chars⟩⟩
      exact h.start c (by simp [hname])

theorem BareName.ne_quoted {name : String} (h : BareName name) (quoted : String) :
    "@" ++ name ≠ "@\"" ++ quoted ++ "\"" := by
  intro heq
  have hname : name.toList = '"' :: (quoted.toList ++ ['"']) := by
    simpa using congrArg String.toList heq
  have hquote := h.chars '"' (by rw [hname]; exact List.mem_cons_self)
  revert hquote
  decide

/-- What stands between the quotes for a name: backslashes and then quotes are replaced by their codes. No quote is
left, and the bytes of the name are read back. -/
structure QuotedAs (name quoted : String) : Prop where
  text : quoted.toList = replaced '"' ['\\', '2', '2'] (replaced '\\' ['\\', '5', 'C'] name.toList)
  closed : '"' ∉ quoted.toList
  bytes : unescapeName (bytesOf quoted) = bytesOf name

theorem quotedAs_escape (name : String) : QuotedAs name (String.ofList (name.toList.flatMap escapeNameChar)) where
  text := by rw [String.toList_ofList, escape_eq_replaced]
  closed := by
    rw [String.toList_ofList]
    exact notMem_escape _
  bytes := by rw [bytesOf, String.toList_ofList, unescapeName_escape, bytesOf]

theorem globalName_cases (name : String) : BareName name ∧ globalName name = "@" ++ name ∨
    ¬ BareName name ∧ ∃ quoted, QuotedAs name quoted ∧ globalName name = "@\"" ++ quoted ++ "\"" := by
  rw [globalName]
  split
  · exact .inl ⟨isBareName_iff.1 ‹_›, rfl⟩
  · exact .inr ⟨mt isBareName_iff.2 ‹_›, _, quotedAs_escape name, rfl⟩

/-- A name is written as it is exactly if it is bare, and else in quotes, as a text that ends at the first quote behind
the opening one and that stands for the bytes of the name. So different names are written differently. -/
theorem globalName_lossless :
    (∀ name, BareName name ∧ globalName name = "@" ++ name ∨
      ¬ BareName name ∧ ∃ quoted, QuotedAs name quoted ∧ globalName name = "@\"" ++ quoted ++ "\"") ∧
    Function.Injective globalName := by
  refine ⟨globalName_cases, fun name other h => ?_⟩
  rcases globalName_cases name with ⟨hbare, htext⟩ | ⟨-, quoted, hquoted, htext⟩ <;>
    rcases globalName_cases other with ⟨hbare', htext'⟩ | ⟨-, quoted', hquoted', htext'⟩ <;>
      rw [htext, htext'] at h
  · exact (String.append_right_inj _).1 h
  · exact absurd h (hbare.ne_quoted quoted')
  · exact absurd h.symm (hbare'.ne_quoted quoted)
  · obtain rfl : quoted = quoted' := (String.append_right_inj _).1 ((String.append_left_inj _).1 h)
    exact bytesOf_injective (hquoted.bytes.symm.trans hquoted'.bytes)

/-- A name that looks like an escaped one keeps apart from the name whose escaped form it looks like. -/
example : globalName "a\\22" = "@\"a\\5C22\"" ∧ globalName "a\"" = "@\"a\\22\"" := by
  constructor <;> cbv

end NativeBackend
