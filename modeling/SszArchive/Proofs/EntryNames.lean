import SszArchive.Proofs.HexText
import SszArchive.Store.Directory

/-!
The names in a directory store. Entries and folders have hexadecimal names, which no temporary file
has, and the location of a file in the store is no longer than that of the root by more than its
folder and its name.
-/

namespace SszArchive

/-! ## Locations -/

namespace Location

variable {l : Location} {name : String}

theorem fault?_eq_none_iff :
    l.fault? = none ↔ Char.ofNat 0 ∉ l.text.toList ∧ l.text.utf8ByteSize ≤ longestText := by
  unfold fault?
  rw [String.contains_char_eq]
  by_cases hnul : Char.ofNat 0 ∈ l.text.toList
  · simp [hnul]
  · by_cases hsize : longestText < l.text.utf8ByteSize
    · simp only [hnul, hsize, decide_false, Bool.false_eq_true, if_false, if_true, reduceCtorEq,
        false_iff]
      omega
    · simp only [hnul, hsize, decide_false, Bool.false_eq_true, if_false, true_iff]
      exact ⟨not_false, by omega⟩

theorem text_child (l : Location) (name : String) :
    (l.child name).text = l.text ++ name ∨ (l.child name).text = l.text ++ "/" ++ name := by
  unfold child
  split
  · exact .inl rfl
  · exact .inr rfl

theorem utf8ByteSize_child (l : Location) (name : String) :
    l.text.utf8ByteSize ≤ (l.child name).text.utf8ByteSize ∧
      (l.child name).text.utf8ByteSize ≤ l.text.utf8ByteSize + 1 + name.utf8ByteSize := by
  have hslash : "/".utf8ByteSize = 1 := by decide
  rcases text_child l name with htext | htext <;> simp only [htext, String.utf8ByteSize_append]
  · omega
  · omega

/-- What is wrong with the location of a directory is wrong with those in it. -/
theorem fault?_of_child (h : (l.child name).fault? = none) : l.fault? = none := by
  rw [fault?_eq_none_iff] at h ⊢
  refine ⟨fun hmem => h.1 ?_, Nat.le_trans (utf8ByteSize_child l name).1 h.2⟩
  rcases text_child l name with htext | htext <;> simp [htext, String.toList_append, hmem]

theorem fault?_child (hl : l.fault? = none) (hname : Char.ofNat 0 ∉ name.toList)
    (hsize : l.text.utf8ByteSize + 1 + name.utf8ByteSize ≤ longestText) :
    (l.child name).fault? = none := by
  rw [fault?_eq_none_iff] at hl ⊢
  refine ⟨?_, Nat.le_trans (utf8ByteSize_child l name).2 hsize⟩
  have hslash : Char.ofNat 0 ∉ "/".toList := by decide
  rcases text_child l name with htext | htext <;>
    simp only [htext, String.toList_append, List.mem_append, not_or]
  · exact ⟨hl.1, hname⟩
  · exact ⟨⟨hl.1, hslash⟩, hname⟩

end Location

/-! ## Entries -/

/-- The folder of an entry has the first two digits as its name. -/
def DiffId.folderName (id : DiffId) : String := String.ofList (id.hexChars.take 2)

theorem DiffId.utf8ByteSize_folderName (id : DiffId) : id.folderName.utf8ByteSize = 2 := by
  rw [folderName, utf8ByteSize_ofList fun _ hc => (id.isHex_hexChars.take 2).utf8Size hc,
    List.length_take, length_hexChars]
  rfl

theorem IsHex.ne_up {text : List Char} (h : IsHex text) : String.ofList text ≠ ".." := by
  intro heq
  have hdot : '.' ∈ text := by
    rw [← String.toList_ofList (l := text), heq]
    decide
  exact h.notMem (by decide) hdot

theorem IsHex.not_temporary {text : List Char} (h : IsHex text) :
    (String.ofList text).startsWith Directory.temporaryMark = false := by
  rw [Bool.eq_false_iff]
  intro hstarts
  rw [String.startsWith_string_iff, String.toList_ofList] at hstarts
  exact h.notMem (c := '.') (by decide) (hstarts.subset (by decide))

/-! ## Temporary files -/

namespace Directory

/-- The names among which that of a temporary file is chosen. -/
def temporaryText (now : Int) (id : DiffId) (n : Nat) : String :=
  s!"{temporaryMark}{id.hex}.{now % 100000}.{n}"

theorem temporaryText_startsWith (now : Int) (id : DiffId) (n : Nat) :
    (temporaryText now id n).startsWith temporaryMark := by
  rw [String.startsWith_string_iff]
  simp only [temporaryText, String.toList_append, List.append_assoc]
  exact List.prefix_append _ _

/-- Without temporary files the first name is free. -/
theorem temporaryName_eq {taken : List String}
    (h : ∀ name ∈ taken, name.startsWith temporaryMark = false) (now : Int) (id : DiffId) :
    temporaryName taken now id = temporaryText now id 0 := by
  have hfree : temporaryText now id 0 ∉ taken := by
    intro hmem
    have := h _ hmem
    rw [temporaryText_startsWith] at this
    cases this
  have hfirst : (List.range (taken.length + 1)).find?
      (fun n => !taken.contains (temporaryText now id n)) = some 0 := by
    rw [List.range_succ_eq_map, List.find?_cons_of_pos]
    simpa using hfree
  have hname : temporaryName taken now id = temporaryText now id
      (((List.range (taken.length + 1)).find?
        fun n => !taken.contains (temporaryText now id n)).getD 0) := rfl
  rw [hname, hfirst, Option.getD_some]

/-- The number in the name has at most five digits. -/
theorem temporaryText_fits (now : Int) (id : DiffId) :
    (temporaryText now id 0).utf8ByteSize ≤ 77 ∧
      Char.ofNat 0 ∉ (temporaryText now id 0).toList := by
  obtain ⟨n, hn⟩ := Int.eq_ofNat_of_zero_le (Int.emod_nonneg now (b := 100000) (by decide))
  have hlt : n < 10 ^ 5 := by
    have := Int.emod_lt_of_pos now (b := 100000) (by decide)
    omega
  have hlength : n.repr.length ≤ 5 := (Nat.length_repr_le_iff (by decide)).2 hlt
  have htext : temporaryText now id 0 =
      temporaryMark ++ id.hex ++ "." ++ n.repr ++ "." ++ "0" := by
    rw [temporaryText, hn]
    rfl
  rw [htext]
  constructor
  · have hmark : temporaryMark.utf8ByteSize = 5 := by decide
    have hdot : ".".utf8ByteSize = 1 := by decide
    have hzero : "0".utf8ByteSize = 1 := by decide
    simp only [String.utf8ByteSize_append, hmark, hdot, hzero, id.utf8ByteSize_hex,
      utf8ByteSize_repr]
    omega
  · have hhex : Char.ofNat 0 ∉ id.hex.toList := by
      rw [DiffId.hex, String.toList_ofList]
      exact id.isHex_hexChars.notMem (by decide)
    have hnumber : Char.ofNat 0 ∉ n.repr.toList := by
      rw [Nat.toList_repr]
      exact (isHex_toDigits n).notMem (by decide)
    have hrest : Char.ofNat 0 ∉ temporaryMark.toList ∧ Char.ofNat 0 ∉ ".".toList ∧
        Char.ofNat 0 ∉ "0".toList := by decide
    simp only [String.toList_append, List.mem_append, not_or]
    exact ⟨⟨⟨⟨⟨hrest.1, hhex⟩, hrest.2.1⟩, hnumber⟩, hrest.2.1⟩, hrest.2.2⟩

end Directory

end SszArchive
