import SszArchive.DiffId
import Mathlib.Data.List.Basic

/-!
Hexadecimal text. The digits of some bytes read back as these bytes, so that the text of an
identifier is read as that identifier and different ones have different texts.
-/

namespace SszArchive

variable {n : Nat} {c : Char}

/-- The size of a text in which every character takes one byte. -/
theorem utf8ByteSize_ofList {text : List Char} (h : ∀ c ∈ text, c.utf8Size = 1) :
    (String.ofList text).utf8ByteSize = text.length := by
  induction text with
  | nil => rfl
  | cons c rest ih =>
    have hsplit : String.ofList (c :: rest) = String.singleton c ++ String.ofList rest := by simp
    rw [hsplit, String.utf8ByteSize_append, ih fun c hc => h c (.tail _ hc),
      String.utf8ByteSize_singleton, h c (.head _), List.length_cons, Nat.add_comm]

/-! ## Digits -/

theorem utf8Size_hexDigit (h : n < 16) : (hexDigit n).utf8Size = 1 := by
  revert n
  decide

theorem isBlank_hexDigit (h : n < 16) : DiffId.isBlank (hexDigit n) = false := by
  revert n
  decide

/-- A digit is encoded in one byte, which has the value of the digit. -/
theorem utf8EncodeChar_hexDigit (h : n < 16) :
    ∃ byte, String.utf8EncodeChar (hexDigit n) = [byte] ∧ hexValue? byte = some n := by
  refine ⟨(hexDigit n).val.toUInt8, String.utf8EncodeChar_eq_singleton (utf8Size_hexDigit h), ?_⟩
  revert n
  decide

theorem length_hexDigits (b : Bytes) : (hexDigits b).length = 2 * b.length := by
  induction b with
  | nil => rfl
  | cons x b ih =>
    simp only [hexDigits] at ih
    simp [hexDigits, ih]
    omega

/-- Text of hexadecimal digits only. -/
def IsHex (text : List Char) : Prop := ∀ c ∈ text, ∃ n < 16, c = hexDigit n

theorem isHex_hexDigits (b : Bytes) : IsHex (hexDigits b) := by
  intro c hc
  simp only [hexDigits, List.mem_flatMap, List.mem_cons, List.not_mem_nil, or_false] at hc
  obtain ⟨x, -, rfl | rfl⟩ := hc
  · have := x.toNat_lt
    exact ⟨x.toNat / 16, by omega, rfl⟩
  · exact ⟨x.toNat % 16, by omega, rfl⟩

namespace IsHex

variable {text : List Char}

theorem take (h : IsHex text) (n : Nat) : IsHex (text.take n) :=
  fun c hc => h c (List.mem_of_mem_take hc)

theorem notMem (h : IsHex text) (hc : ∀ n < 16, hexDigit n ≠ c) : c ∉ text := by
  intro hmem
  obtain ⟨n, hn, rfl⟩ := h c hmem
  exact hc n hn rfl

theorem utf8Size (h : IsHex text) (hc : c ∈ text) : c.utf8Size = 1 := by
  obtain ⟨n, hn, rfl⟩ := h c hc
  exact utf8Size_hexDigit hn

theorem length_utf8 (h : IsHex text) :
    (text.flatMap String.utf8EncodeChar).length = text.length := by
  induction text with
  | nil => rfl
  | cons c rest ih =>
    rw [List.flatMap_cons, List.length_append, ih fun c hc => h c (.tail _ hc),
      String.length_utf8EncodeChar, h.utf8Size (.head _), List.length_cons, Nat.add_comm]

theorem trim_eq (h : IsHex text) : DiffId.trim text = text := by
  have hstop : ∀ {text : List Char}, IsHex text → text.dropWhile DiffId.isBlank = text := by
    intro text h
    cases text with
    | nil => rfl
    | cons c rest =>
      obtain ⟨n, hn, rfl⟩ := h c (.head _)
      rw [List.dropWhile_cons_of_neg (by simp [isBlank_hexDigit hn])]
  have hreverse : IsHex text.reverse := fun c hc => h c (List.mem_reverse.1 hc)
  rw [DiffId.trim, hstop h, hstop hreverse, List.reverse_reverse]

end IsHex

/-- Decimal digits are hexadecimal digits. -/
theorem isHex_toDigits (n : Nat) : IsHex (Nat.toDigits 10 n) := by
  intro c hc
  have hdigit := Nat.isDigit_of_mem_toDigits (by decide) (by decide) hc
  rw [Char.isDigit_iff_toNat] at hdigit
  have hlow : '0'.toNat = 48 := rfl
  have hhigh : '9'.toNat = 57 := rfl
  refine ⟨c.toNat - 48, by omega, ?_⟩
  rw [hexDigit, if_pos (by omega), show 48 + (c.toNat - 48) = c.toNat by omega, Char.ofNat_toNat]

theorem utf8ByteSize_repr (n : Nat) : n.repr.utf8ByteSize = n.repr.length := by
  rw [← String.ofList_toList (s := n.repr), Nat.toList_repr,
    utf8ByteSize_ofList fun _ hc => (isHex_toDigits n).utf8Size hc, String.length_ofList]

/-! ## Reading -/

theorem decodeDigits_hexDigits (position : Nat) (b : Bytes) :
    DiffId.decodeDigits position ((hexDigits b).flatMap String.utf8EncodeChar) = .ok b := by
  induction b generalizing position with
  | nil => rfl
  | cons x b ih =>
    have hx := x.toNat_lt
    obtain ⟨high, hhigh, hvalue⟩ := utf8EncodeChar_hexDigit (n := x.toNat / 16) (by omega)
    obtain ⟨low, hlow, hrest⟩ := utf8EncodeChar_hexDigit (n := x.toNat % 16) (by omega)
    have hdigits : (hexDigits (x :: b)).flatMap String.utf8EncodeChar =
        high :: low :: (hexDigits b).flatMap String.utf8EncodeChar := by
      simp [hexDigits, hhigh, hlow]
    have hbyte : UInt8.ofNat (16 * (x.toNat / 16) + x.toNat % 16) = x := by
      rw [Nat.div_add_mod]
      exact UInt8.ofNat_toNat
    simp only [hdigits, DiffId.decodeDigits, hvalue, hrest, ih, hbyte]

namespace DiffId

theorem isHex_hexChars (id : DiffId) : IsHex id.hexChars := isHex_hexDigits _

theorem length_hexChars (id : DiffId) : id.hexChars.length = 64 := by
  rw [hexChars, length_hexDigits, id.digest.length_eq]

theorem utf8ByteSize_hex (id : DiffId) : id.hex.utf8ByteSize = 64 := by
  rw [hex, utf8ByteSize_ofList fun _ hc => id.isHex_hexChars.utf8Size hc, length_hexChars]

/-- An identifier is read back from its text. -/
theorem ofText_hex (id : DiffId) : ofText id.hex = .ok id := by
  have hdigits : ofDigits (id.hexChars.flatMap String.utf8EncodeChar) = .ok id := by
    have hlength := id.isHex_hexChars.length_utf8
    have hdecode : decodeDigits 0 (id.hexChars.flatMap String.utf8EncodeChar) =
        .ok id.digest.bytes := decodeDigits_hexDigits 0 _
    rw [length_hexChars] at hlength
    simp only [ofDigits, hlength, hdecode]
    simp [id.digest.length_eq]
  rw [ofText, hex, String.toList_ofList, id.isHex_hexChars.trim_eq, hdigits]

theorem hex_injective {id other : DiffId} (h : id.hex = other.hex) : id = other := by
  have hread := ofText_hex id
  rw [h, ofText_hex] at hread
  exact (Except.ok.inj hread).symm

end DiffId

end SszArchive
