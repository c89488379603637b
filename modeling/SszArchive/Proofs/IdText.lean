import SszArchive.Proofs.HexText
import Mathlib.Data.List.TakeWhile

/-!
Reading identifiers from any text. White space is removed by characters, length and digits are
judged on bytes; that comes to the same because no byte of a longer character is a digit. Main
statement: a text is read exactly when sixty-four hexadecimal digits are left of it, and these
digits in lower case are the text of what is read.
-/

namespace SszArchive

/-! ## Digits of either case -/

/-- An ASCII hexadecimal digit. -/
def IsHexDigit (c : Char) : Prop :=
  ('0' ≤ c ∧ c ≤ '9') ∨ ('a' ≤ c ∧ c ≤ 'f') ∨ ('A' ≤ c ∧ c ≤ 'F')

instance (c : Char) : Decidable (IsHexDigit c) :=
  inferInstanceAs (Decidable (('0' ≤ c ∧ c ≤ '9') ∨ ('a' ≤ c ∧ c ≤ 'f') ∨ ('A' ≤ c ∧ c ≤ 'F')))

variable {c : Char} {byte : UInt8} {position : Nat} {digits bytes : Bytes} {core : List Char}

theorem hexDigit_of_ascii {n : Nat} (h : n < 128) (hvalue : hexValue? (UInt8.ofNat n) ≠ none) :
    IsHexDigit (Char.ofNat n) := by
  revert n
  decide

theorem value_of_ascii {n : Nat} (h : n < 128) (hdigit : IsHexDigit (Char.ofNat n)) :
    ∃ value < 16, hexValue? (UInt8.ofNat n) = some value ∧
      hexDigit value = (Char.ofNat n).toLower := by
  revert n
  decide

theorem utf8EncodeChar_of_ascii (h : c.toNat < 128) :
    String.utf8EncodeChar c = [UInt8.ofNat c.toNat] := by
  have hval : c.val.toNat = c.toNat := rfl
  rw [String.utf8EncodeChar, hval, if_pos (by omega)]

/-- In a longer character every byte has its high bit set. -/
theorem le_of_mem_utf8EncodeChar (h : 128 ≤ c.toNat) (hbyte : byte ∈ String.utf8EncodeChar c) :
    128 ≤ byte.toNat := by
  have hval : c.val.toNat = c.toNat := rfl
  have hcases : ∃ n, 128 ≤ n ∧ n < 256 ∧ byte = UInt8.ofNat n := by
    rw [String.utf8EncodeChar, hval, if_neg (by omega)] at hbyte
    split at hbyte
    · simp only [List.mem_cons, List.not_mem_nil, or_false] at hbyte
      rcases hbyte with rfl | rfl
      all_goals exact ⟨_, by omega, by omega, rfl⟩
    · split at hbyte
      · simp only [List.mem_cons, List.not_mem_nil, or_false] at hbyte
        rcases hbyte with rfl | rfl | rfl
        all_goals exact ⟨_, by omega, by omega, rfl⟩
      · simp only [List.mem_cons, List.not_mem_nil, or_false] at hbyte
        rcases hbyte with rfl | rfl | rfl | rfl
        all_goals exact ⟨_, by omega, by omega, rfl⟩
  obtain ⟨n, hlow, hhigh, rfl⟩ := hcases
  rw [UInt8.toNat_ofNat', Nat.mod_eq_of_lt hhigh]
  exact hlow

theorem hexValue?_of_le (h : 128 ≤ byte.toNat) : hexValue? byte = none := by
  unfold hexValue?
  simp only
  rw [if_neg (by omega), if_neg (by omega), if_neg (by omega)]

/-- A byte that is a digit is all of its character. -/
theorem isHexDigit_of_value (hbyte : byte ∈ String.utf8EncodeChar c)
    (hvalue : hexValue? byte ≠ none) : IsHexDigit c := by
  by_cases h : c.toNat < 128
  · rw [utf8EncodeChar_of_ascii h, List.mem_singleton] at hbyte
    rw [← Char.ofNat_toNat c]
    exact hexDigit_of_ascii h (hbyte ▸ hvalue)
  · exact absurd (hexValue?_of_le (le_of_mem_utf8EncodeChar (Nat.not_lt.1 h) hbyte)) hvalue

theorem IsHexDigit.lt (h : IsHexDigit c) : c.toNat < 128 := by
  rcases h with ⟨-, h⟩ | ⟨-, h⟩ | ⟨-, h⟩
  all_goals
    have hle := UInt32.le_iff_toNat_le.1 h
    have hval : c.val.toNat = c.toNat := rfl
    rw [hval] at hle
    exact Nat.lt_of_le_of_lt hle (by decide)

/-- A digit of either case is one byte, and its value is written in lower case. -/
theorem IsHexDigit.exists_value (h : IsHexDigit c) :
    ∃ byte, ∃ value < 16, String.utf8EncodeChar c = [byte] ∧ hexValue? byte = some value ∧
      hexDigit value = c.toLower := by
  have hchar : Char.ofNat c.toNat = c := Char.ofNat_toNat c
  obtain ⟨value, hlt, hvalue, hlower⟩ := value_of_ascii h.lt (hchar.symm ▸ h)
  rw [hchar] at hlower
  exact ⟨_, value, hlt, utf8EncodeChar_of_ascii h.lt, hvalue, hlower⟩

theorem IsHexDigit.not_blank (h : IsHexDigit c) : DiffId.isBlank c = false := by
  have hall : ∀ n < 128, IsHexDigit (Char.ofNat n) → DiffId.isBlank (Char.ofNat n) = false := by
    decide
  have hchar : Char.ofNat c.toNat = c := Char.ofNat_toNat c
  rw [← hchar]
  exact hall _ h.lt (hchar.symm ▸ h)

/-! ## Pairs of digits -/

namespace DiffId

/-- Bytes that are decoded in pairs are digits. -/
theorem value_of_decodeDigits (h : decodeDigits position digits = .ok bytes)
    (heven : digits.length % 2 = 0) : ∀ byte ∈ digits, hexValue? byte ≠ none := by
  fun_induction decodeDigits position digits generalizing bytes with
  | case1 => cases h
  | case2 => cases h
  | case3 position high low rest a b hlow hhigh decoded hrest ih =>
    have heven : rest.length % 2 = 0 := by
      simp only [List.length_cons] at heven
      omega
    refine List.forall_mem_cons.2 ⟨by simp [hhigh], List.forall_mem_cons.2 ⟨by simp [hlow], ?_⟩⟩
    exact ih hrest heven
  | case4 => cases h
  | case5 digits position hshort =>
    match digits with
    | [] => exact nofun
    | [_] => cases heven
    | high :: low :: rest => exact (hshort high low rest rfl).elim

/-- Digits of either case are decoded to the bytes that are written as them in lower case. -/
theorem exists_decodeDigits : ∀ {core : List Char} (position : Nat), (∀ c ∈ core, IsHexDigit c) →
    core.length % 2 = 0 → ∃ bytes, decodeDigits position (core.flatMap String.utf8EncodeChar) =
      .ok bytes ∧ hexDigits bytes = core.map Char.toLower
  | [], _, _, _ => ⟨[], rfl, rfl⟩
  | [_], _, _, heven => nomatch heven
  | high :: low :: rest, position, hdigits, heven => by
    obtain ⟨hhigh, hlow, hrest⟩ :=
      List.forall_mem_cons.1 hdigits |>.imp_right List.forall_mem_cons.1
    have heven : rest.length % 2 = 0 := by
      simp only [List.length_cons] at heven
      omega
    obtain ⟨bytes, hdecode, htext⟩ := exists_decodeDigits (position + 2) hrest heven
    obtain ⟨x, a, ha, hx, hxa, hhigh⟩ := hhigh.exists_value
    obtain ⟨y, b, hb, hy, hyb, hlow⟩ := hlow.exists_value
    refine ⟨UInt8.ofNat (16 * a + b) :: bytes, ?_, ?_⟩
    · rw [List.flatMap_cons, List.flatMap_cons, hx, hy]
      simp only [List.cons_append, List.nil_append, decodeDigits, hxa, hyb, hdecode]
    · have hbyte : (UInt8.ofNat (16 * a + b)).toNat = 16 * a + b := by
        rw [UInt8.toNat_ofNat', Nat.mod_eq_of_lt (by omega)]
      have hparts : (16 * a + b) / 16 = a ∧ (16 * a + b) % 16 = b := by omega
      have hcons : ∀ z, hexDigits (z :: bytes) =
          hexDigit (z.toNat / 16) :: hexDigit (z.toNat % 16) :: hexDigits bytes := fun _ => rfl
      rw [hcons, hbyte, hparts.1, hparts.2, hhigh, hlow, htext]
      rfl

theorem ofDigits_eq_ok_iff {id : DiffId} : ofDigits digits = .ok id ↔
    digits.length = 64 ∧ decodeDigits 0 digits = .ok id.digest.bytes := by
  constructor
  · intro h
    unfold ofDigits at h
    split at h
    · cases h
    · split at h
      · cases h
      · next hlength =>
        split at h
        · next bytes hdecode =>
          split at h
          · cases h
            exact ⟨Decidable.not_not.1 hlength, hdecode⟩
          · cases h
        · cases h
  · rintro ⟨hlength, hdecode⟩
    simp only [ofDigits, hlength, hdecode]
    simp [id.digest.length_eq]

/-! ## White space -/

/-- `core` is `text` without the white space at both ends. -/
structure Trims (text core : List Char) : Prop where
  around : ∃ front back, text = front ++ core ++ back ∧ ∀ c ∈ front ++ back, isBlank c = true
  first : ∀ c, core.head? = some c → isBlank c = false
  last : ∀ c, core.getLast? = some c → isBlank c = false

/-- What is left begins with a character that is no white space. -/
theorem isBlank_of_head?_dropWhile {text : List Char}
    (h : (text.dropWhile isBlank).head? = some c) : isBlank c = false := by
  have hhead := List.head?_dropWhile_not isBlank text
  rwa [h] at hhead

theorem trims_trim (text : List Char) : Trims text (trim text) := by
  have hfront : text.takeWhile isBlank ++ text.dropWhile isBlank = text :=
    List.takeWhile_append_dropWhile
  have hback : trim text ++ ((text.dropWhile isBlank).reverse.takeWhile isBlank).reverse =
      text.dropWhile isBlank := by
    rw [trim, ← List.reverse_append, List.takeWhile_append_dropWhile, List.reverse_reverse]
  refine ⟨⟨_, _, by rw [List.append_assoc, hback, hfront], ?_⟩, fun c hc => ?_, fun c hc => ?_⟩
  · intro c hc
    rcases List.mem_append.1 hc with hc | hc
    · exact List.mem_takeWhile_imp hc
    · exact List.mem_takeWhile_imp (List.mem_reverse.1 hc)
  · have hhead : (text.dropWhile isBlank).head? = some c := by
      rw [← hback, List.head?_append, hc]
      rfl
    exact isBlank_of_head?_dropWhile hhead
  · rw [trim, List.getLast?_reverse] at hc
    exact isBlank_of_head?_dropWhile hc

theorem dropWhile_isBlank_of_head? {text : List Char}
    (h : ∀ c, text.head? = some c → isBlank c = false) : text.dropWhile isBlank = text := by
  cases text with
  | nil => rfl
  | cons c rest => rw [List.dropWhile_cons_of_neg (by simp [h c rfl])]

theorem Trims.trim_eq {text : List Char} (h : Trims text core) : trim text = core := by
  obtain ⟨front, back, rfl, hblank⟩ := h.around
  have hfront : ∀ c ∈ front, isBlank c = true := fun c hc => hblank c (List.mem_append_left _ hc)
  have hback : ∀ c ∈ back, isBlank c = true := fun c hc => hblank c (List.mem_append_right _ hc)
  rw [trim, List.append_assoc, List.dropWhile_append_of_pos hfront]
  rcases core with _ | ⟨c, rest⟩
  · have hnone : back.dropWhile isBlank = [] := List.dropWhile_eq_nil_iff.2 hback
    rw [List.nil_append, hnone]
    rfl
  · have hstay : (c :: rest ++ back).dropWhile isBlank = c :: rest ++ back :=
      dropWhile_isBlank_of_head? h.first
    have hlast : ∀ d, (c :: rest).reverse.head? = some d → isBlank d = false := by
      intro d hd
      rw [List.head?_reverse] at hd
      exact h.last d hd
    rw [hstay, List.reverse_append,
      List.dropWhile_append_of_pos fun d hd => hback d (List.mem_reverse.1 hd),
      dropWhile_isBlank_of_head? hlast, List.reverse_reverse]

theorem trims_iff {text : List Char} : Trims text core ↔ core = trim text :=
  ⟨fun h => h.trim_eq.symm, fun h => h ▸ trims_trim text⟩

/-- Digits are what is left without the white space around them. -/
theorem trims_of_isHexDigit (front back : List Char)
    (hblank : ∀ c ∈ front ++ back, isBlank c = true) (hcore : ∀ c ∈ core, IsHexDigit c) :
    Trims (front ++ core ++ back) core :=
  ⟨⟨front, back, rfl, hblank⟩, fun c hc => (hcore c (List.mem_of_mem_head? hc)).not_blank,
    fun c hc => (hcore c (List.mem_of_getLast? hc)).not_blank⟩

/-! ## Reading -/

theorem ofText_eq_ok_iff {text : String} {id : DiffId} : ofText text = .ok id ↔
    ofDigits ((trim text.toList).flatMap String.utf8EncodeChar) = .ok id := by
  unfold ofText
  split
  · next hdigits => simp [hdigits]
  · next hdigits => simp [hdigits]

theorem length_of_isHexDigit (h : ∀ c ∈ core, IsHexDigit c) :
    (core.flatMap String.utf8EncodeChar).length = core.length := by
  induction core with
  | nil => rfl
  | cons c rest ih =>
    obtain ⟨hc, hrest⟩ := List.forall_mem_cons.1 h
    obtain ⟨byte, _, -, hbyte, -⟩ := hc.exists_value
    rw [List.flatMap_cons, hbyte, List.length_append, ih hrest, List.length_singleton,
      List.length_cons, Nat.add_comm]

/-- What is read is left of the text as digits, which in lower case are its own text. -/
theorem of_ofText {text : String} {id : DiffId} (h : ofText text = .ok id) :
    ((trim text.toList).length = 64 ∧ ∀ c ∈ trim text.toList, IsHexDigit c) ∧
      id.hexChars = (trim text.toList).map Char.toLower := by
  obtain ⟨hlength, hdecode⟩ := ofDigits_eq_ok_iff.1 (ofText_eq_ok_iff.1 h)
  have hvalues := value_of_decodeDigits hdecode (by rw [hlength])
  have hdigits : ∀ c ∈ trim text.toList, IsHexDigit c := by
    intro c hc
    obtain ⟨byte, rest, hbytes⟩ :=
      List.exists_cons_of_ne_nil (String.utf8EncodeChar_ne_nil (c := c))
    have hbyte : byte ∈ String.utf8EncodeChar c := hbytes ▸ List.mem_cons_self
    exact isHexDigit_of_value hbyte (hvalues byte (List.mem_flatMap.2 ⟨c, hc, hbyte⟩))
  rw [length_of_isHexDigit hdigits] at hlength
  obtain ⟨bytes, hagain, htext⟩ := exists_decodeDigits 0 hdigits (by rw [hlength])
  rw [hdecode] at hagain
  cases hagain
  exact ⟨⟨hlength, hdigits⟩, htext⟩

theorem exists_ofText {text : String} (hlength : (trim text.toList).length = 64)
    (hdigits : ∀ c ∈ trim text.toList, IsHexDigit c) : ∃ id, ofText text = .ok id := by
  obtain ⟨bytes, hdecode, htext⟩ := exists_decodeDigits 0 hdigits (by rw [hlength])
  have hbytes : bytes.length = 32 := by
    have h := congrArg List.length htext
    rw [length_hexDigits, List.length_map, hlength] at h
    omega
  refine ⟨⟨⟨bytes, hbytes⟩⟩, ofText_eq_ok_iff.2 (ofDigits_eq_ok_iff.2 ⟨?_, hdecode⟩)⟩
  rw [length_of_isHexDigit hdigits, hlength]

/-- **Identifiers as text.** A text is read exactly when sixty-four ASCII digits of either case are
left of it without the white space around them. The text of what is read is these digits in lower
case, and the text of an identifier is read as that identifier. So two texts are read as the same
one exactly when they agree up to case and the white space around them. -/
theorem ofText_exact (text : String) :
    (∀ core, Trims text.toList core ↔ core = trim text.toList) ∧
    ((∃ id, ofText text = .ok id) ↔
      (trim text.toList).length = 64 ∧ ∀ c ∈ trim text.toList, IsHexDigit c) ∧
    (∀ id, ofText text = .ok id → id.hex = String.ofList ((trim text.toList).map Char.toLower)) ∧
    (∀ id : DiffId, ofText id.hex = .ok id) ∧
    ∀ (other : String) (id id' : DiffId), ofText text = .ok id → ofText other = .ok id' →
      (id = id' ↔
        (trim text.toList).map Char.toLower = (trim other.toList).map Char.toLower) := by
  refine ⟨fun _ => trims_iff, ⟨fun ⟨id, h⟩ => (of_ofText h).1, fun h => exists_ofText h.1 h.2⟩,
    fun id h => congrArg String.ofList (of_ofText h).2, ofText_hex, fun other id id' h h' => ?_⟩
  rw [← (of_ofText h).2, ← (of_ofText h').2]
  constructor
  · rintro rfl
    rfl
  · intro heq
    exact hex_injective (congrArg String.ofList heq)

/-- Sixty-four digits, the last in another case than the others. -/
def mixedDigits (others last : Char) : List Char := List.replicate 63 others ++ [last]

theorem length_mixedDigits (others last : Char) : (mixedDigits others last).length = 64 := by
  rw [mixedDigits, List.length_append, List.length_replicate, List.length_singleton]

theorem isHexDigit_of_mem_mixedDigits {others last : Char} (hothers : IsHexDigit others)
    (hlast : IsHexDigit last) : ∀ c ∈ mixedDigits others last, IsHexDigit c := by
  intro c hc
  rcases List.mem_append.1 hc with hc | hc
  · exact (List.mem_replicate.1 hc).2 ▸ hothers
  · exact List.mem_singleton.1 hc ▸ hlast

/-- The same digits in two ways, one of them between white space in and outside ASCII. -/
theorem ofText_exact_mixed :
    ∃ id, ofText (String.ofList (['\t', Char.ofNat 0x3000] ++ mixedDigits 'A' 'f' ++ ['\n'])) =
        .ok id ∧
      ofText (String.ofList (mixedDigits 'a' 'F')) = .ok id ∧
      id.hex = String.ofList (mixedDigits 'a' 'f') := by
  have hupper : ∀ c ∈ mixedDigits 'A' 'f', IsHexDigit c :=
    isHexDigit_of_mem_mixedDigits (by decide) (by decide)
  have hlower : ∀ c ∈ mixedDigits 'a' 'F', IsHexDigit c :=
    isHexDigit_of_mem_mixedDigits (by decide) (by decide)
  have hpadded : trim (['\t', Char.ofNat 0x3000] ++ mixedDigits 'A' 'f' ++ ['\n']) =
      mixedDigits 'A' 'f' :=
    (trims_of_isHexDigit ['\t', Char.ofNat 0x3000] ['\n'] (by simp; decide) hupper).trim_eq
  have hplain : trim (mixedDigits 'a' 'F') = mixedDigits 'a' 'F' := by
    simpa using (trims_of_isHexDigit [] [] (by simp) hlower).trim_eq
  have hcase : (mixedDigits 'A' 'f').map Char.toLower = mixedDigits 'a' 'f' ∧
      (mixedDigits 'a' 'F').map Char.toLower = mixedDigits 'a' 'f' := by
    decide
  obtain ⟨-, hread, htext, -, hsame⟩ :=
    ofText_exact (String.ofList (['\t', Char.ofNat 0x3000] ++ mixedDigits 'A' 'f' ++ ['\n']))
  rw [String.toList_ofList, hpadded] at hread htext hsame
  obtain ⟨id, hid⟩ := hread.2 ⟨length_mixedDigits 'A' 'f', hupper⟩
  obtain ⟨-, hread', -⟩ := ofText_exact (String.ofList (mixedDigits 'a' 'F'))
  rw [String.toList_ofList, hplain] at hread'
  obtain ⟨id', hid'⟩ := hread'.2 ⟨length_mixedDigits 'a' 'F', hlower⟩
  have heq : id = id' := by
    rw [hsame _ id id' hid hid', String.toList_ofList, hplain, hcase.1, hcase.2]
  exact ⟨id, hid, heq ▸ hid', by rw [htext id hid, hcase.1]⟩

end DiffId

end SszArchive
