import SszArchive.Proofs.WordDelta

/-!
Which payloads word deltas accept, whoever wrote them, and what they make of the base. A payload is
fields one after another up to its end: the layout, the start and a number for each word that the
layout takes. Main statement: a replay succeeds exactly for the payloads of this form whose layout
is one that a version can have behind that start, and word by word its result is the base's word
with the number added.
-/

namespace SszArchive.WordDelta

open Wire (Exact Cursor bind_eq_ok_iff)

/-! ## Words by their number -/

/-- Word number `i` of the bytes, which count as 0 past the end. -/
def paddedWord (b : Bytes) (i : Nat) : UInt64 :=
  UInt64.ofNat (ofLittleEndian ((List.range 8).map fun j => b.getD (8 * i + j) 0))

theorem map_getD_range (n : Nat) (b : Bytes) :
    (List.range n).map (b.getD · 0) = b.take n ++ List.replicate (n - b.length) 0 := by
  induction n generalizing b with
  | zero => simp
  | succ n ih =>
    rw [List.range_succ_eq_map, List.map_cons, List.map_map]
    cases b with
    | nil =>
      have hrest := ih []
      simp only [List.take_nil, List.nil_append, List.length_nil, Nat.sub_zero] at hrest ⊢
      rw [List.replicate_succ, ← hrest]
      rfl
    | cons x b =>
      rw [List.take_succ_cons, List.cons_append, List.length_cons, Nat.add_sub_add_right, ← ih b]
      rfl

theorem paddedWord_zero (b : Bytes) :
    paddedWord b 0 = UInt64.ofNat (ofLittleEndian (b.take 8)) := by
  have hpadded := map_getD_range 8 b
  simp only [paddedWord, Nat.mul_zero, Nat.zero_add]
  rw [hpadded, ofLittleEndian_append_zeros]

theorem paddedWord_drop (b : Bytes) (i : Nat) : paddedWord (b.drop 8) i = paddedWord b (i + 1) := by
  have hplace : ∀ j, 8 + (8 * i + j) = 8 * (i + 1) + j := fun j => by omega
  simp only [paddedWord, List.getD_eq_getElem?_getD, List.getElem?_drop, hplace]

theorem words_eq_map (n : Nat) (b : Bytes) : words n b = (List.range n).map (paddedWord b) := by
  induction n generalizing b with
  | zero => rfl
  | succ n ih =>
    rw [words, ih, List.range_succ_eq_map, List.map_cons, List.map_map, paddedWord_zero]
    exact congrArg _ (List.map_congr_left fun i _ => paddedWord_drop b i)

/-- The words of the base's encoding, the numbers sent added one by one. -/
def summed (base : Version) (codes : List UInt64) : List UInt64 :=
  codes.mapIdx fun i code => paddedWord base.bytes i + (ZigZag.decode code).toUInt64

theorem bytes_eq_summed (base : Version) (layout : List (GIndex × Nat)) (start : UInt64)
    (codes : List UInt64) :
    Payload.bytes ⟨layout, start, codes.map ZigZag.decode⟩ base =
      ((summed base codes).flatMap wordBytes).take (totalSize (layout.map Prod.snd)) := by
  have hwords : List.zipWith (fun word delta => word + delta.toUInt64)
      (words codes.length base.bytes) (codes.map ZigZag.decode) = summed base codes := by
    rw [words_eq_map]
    apply List.ext_getElem
    · simp [summed]
    · intro i hi hi'
      simp [summed]
  rw [Payload.bytes, Payload.total, List.length_map, hwords]

/-! ## What is accepted -/

theorem layoutField_of_read {base : Version} {layout : List (GIndex × Nat)} {c d : Cursor}
    (h : readLayout base c = .ok layout d) :
    ∃ front, LayoutField base layout front ∧ c.rest = front ++ d.rest := by
  rw [readLayout_apply] at h
  obtain ⟨tag, between, htag, h⟩ := bind_eq_ok_iff.1 h
  have hrest := (Exact.int htag).2
  unfold readTagged at h
  split at h
  · next hzero =>
    cases h
    exact ⟨_, .same, hzero ▸ hrest⟩
  · split at h
    · next hone =>
      have hlist := (Exact.list exact_readEntry h).2
      exact ⟨_, .explicit layout, by rw [hrest, hlist, hone]; exact (List.append_assoc ..).symm⟩
    · cases h

theorem deltas_of_readDeltas {layout : List (GIndex × Nat)} {start : UInt64} {payload : Payload}
    {c d : Cursor} (h : readDeltas layout start c = .ok payload d) :
    ∃ deltas, payload = ⟨layout, start, deltas⟩ ∧ c.rest = deltas.flatMap Wire.signed ∧
      deltas.length = wordCount (totalSize (layout.map Prod.snd)) := by
  rw [readDeltas_apply] at h
  split at h
  · cases h
  · split at h
    · cases h
    · obtain ⟨deltas, between, hdeltas, h⟩ := bind_eq_ok_iff.1 h
      obtain ⟨_, _, hfinish, h⟩ := bind_eq_ok_iff.1 h
      cases h
      obtain ⟨hlength, -, hrest⟩ := Exact.times_eq_ok Exact.signed hdeltas
      rw [Wire.rest_of_finish hfinish, List.append_nil] at hrest
      exact ⟨deltas, rfl, hrest, hlength⟩

theorem fields_of_run_read {base : Version} {payload : Bytes} {p : Payload}
    (h : (read base).run payload = .ok p) :
    ∃ front, LayoutField base p.layout front ∧
      payload = front ++ (Wire.int p.start ++ p.deltas.flatMap Wire.signed) ∧
      p.deltas.length = wordCount p.total := by
  unfold Wire.Reader.run at h
  split at h
  · next hread =>
    cases h
    rw [read_eq] at hread
    obtain ⟨layout, _, hlayout, hread⟩ := bind_eq_ok_iff.1 hread
    obtain ⟨start, _, hstart, hread⟩ := bind_eq_ok_iff.1 hread
    obtain ⟨front, hfield, hrest⟩ := layoutField_of_read hlayout
    obtain ⟨deltas, rfl, hdeltas, hlength⟩ := deltas_of_readDeltas hread
    refine ⟨front, hfield, ?_, hlength⟩
    rw [← hdeltas, ← (Exact.int hstart).2]
    exact hrest
  · cases h

/-- The payload consists of these fields and nothing else, and they are such that a version can
have the layout behind the start. -/
structure Says (base : Version) (payload : Bytes) (layout : List (GIndex × Nat)) (start : UInt64)
    (codes : List UInt64) : Prop where
  written : ∃ front, LayoutField base layout front ∧
    payload = front ++ (Wire.int start ++ codes.flatMap Wire.int)
  words : codes.length = wordCount (totalSize (layout.map Prod.snd))
  nodesNonzero : ∀ entry ∈ layout, entry.1 ≠ 0
  lengthsNonzero : ∀ entry ∈ layout, entry.2 ≠ 0
  distinct : (layout.map Prod.fst).Nodup
  fits : start.toNat + totalSize (layout.map Prod.snd) < offsetBound

/-- The version has this layout and encoding, and this start unless it is empty. -/
structure Fills (v : Version) (entries : List (GIndex × Nat)) (offset : UInt64)
    (encoding : Bytes) : Prop where
  layout : v.layout = entries
  start : entries ≠ [] → v.start = offset
  bytes : v.bytes = encoding

theorem fills_iff {v : Version} {entries : List (GIndex × Nat)} {offset : UInt64}
    {encoding : Bytes} (h : encoding.length = totalSize (entries.map Prod.snd)) :
    Fills v entries offset encoding ↔ v.slices = layOut offset (cut encoding entries) := by
  constructor
  · rintro ⟨rfl, hstart, rfl⟩
    rw [v.cut_layout]
    cases hslices : v.slices with
    | nil =>
      rw [Version.parts, hslices]
      rfl
    | cons s rest =>
      have hne : v.layout ≠ [] := by simp [Version.layout, hslices]
      rw [← hstart hne, v.layOut_parts, hslices]
  · intro hslices
    have hparts : v.parts = cut encoding entries := by
      rw [Version.parts, hslices, map_part_layOut]
    refine ⟨?_, fun hne => ?_, ?_⟩
    · have hlayout := layout_cut (Nat.le_of_eq h.symm)
      rw [← hparts, Version.parts, List.map_map] at hlayout
      exact hlayout
    · cases entries with
      | nil => exact absurd rfl hne
      | cons entry entries =>
        rw [Version.start, hslices]
        rfl
    · rw [← v.flatMap_bytes_parts, hparts, flatMap_cut, ← h, List.take_length]

/-- A payload that is read leads to the version that its content fills. -/
theorem replay_eq_ok_iff {base v : Version} {payload : Bytes} {p : Payload}
    (hread : (read base).run payload = .ok p) (hlength : p.deltas.length = wordCount p.total) :
    replay base payload = .ok v ↔ Fills v p.layout p.start (p.bytes base) := by
  rw [fills_iff (length_bytes hlength base), ← Version.assemble_eq_ok_iff, replay, hread]
  cases hassemble : Version.assemble p.start (cut (p.bytes base) p.layout) with
  | ok w => simp [hassemble]
  | error e => simp [hassemble]

namespace Says

variable {base : Version} {payload : Bytes} {layout : List (GIndex × Nat)} {start : UInt64}
  {codes : List UInt64}

theorem total_lt (h : Says base payload layout start codes) :
    totalSize (layout.map Prod.snd) < offsetBound :=
  Nat.lt_of_le_of_lt (Nat.le_add_left ..) h.fits

/-- No entry is of length zero, so there are no more entries than bytes. -/
theorem bounded (h : Says base payload layout start codes) :
    layout.length < UInt64.size ∧ ∀ entry ∈ layout, entry.2 < UInt64.size := by
  have hle := length_le_totalSize (List.forall_mem_map.2 h.lengthsNonzero)
  rw [List.length_map] at hle
  exact ⟨Nat.lt_of_le_of_lt hle h.total_lt, fun entry hentry =>
    Nat.lt_of_le_of_lt (le_totalSize (List.mem_map_of_mem hentry)) h.total_lt⟩

theorem run_read (h : Says base payload layout start codes) :
    (read base).run payload = .ok ⟨layout, start, codes.map ZigZag.decode⟩ := by
  obtain ⟨front, hfield, rfl⟩ := h.written
  obtain ⟨hcount, hlengths⟩ := h.bounded
  have hwords := h.words
  have hsigned : codes.flatMap Wire.int = (codes.map ZigZag.decode).flatMap Wire.signed := by
    rw [List.flatMap_map]
    exact List.flatMap_congr fun code _ => by rw [Wire.signed, ZigZag.encode_decode]
  rw [← List.length_map (f := ZigZag.decode)] at hwords
  rw [hsigned]
  exact (hfield.finishes_read hcount hlengths h.total_lt hwords).run

end Says

/-- Replaying begins with reading. -/
theorem exists_run_read_of_replay {base v : Version} {payload : Bytes}
    (h : replay base payload = .ok v) : ∃ p, (read base).run payload = .ok p := by
  unfold replay at h
  split at h
  · cases h
  · next p hread => exact ⟨p, hread⟩

/-- A payload that leads to a version has the form, and its fields are the ones read. -/
theorem says_of_replay {base v : Version} {payload : Bytes} {p : Payload}
    (hread : (read base).run payload = .ok p) (h : replay base payload = .ok v) :
    Says base payload p.layout p.start (p.deltas.map ZigZag.encode) := by
  obtain ⟨front, hfield, hpayload, hlength⟩ := fields_of_run_read hread
  have hsize : totalSize (p.layout.map Prod.snd) = (p.bytes base).length :=
    (length_bytes hlength base).symm
  have hslices := (fills_iff hsize.symm).1 ((replay_eq_ok_iff hread hlength).1 h)
  obtain ⟨hnodes, hlengths, hdistinct, hfits⟩ :=
    (wellFormed_cut_iff (Nat.le_of_eq hsize)).1 (hslices ▸ v.wellFormed)
  have hcodes : (p.deltas.map ZigZag.encode).flatMap Wire.int = p.deltas.flatMap Wire.signed :=
    List.flatMap_map ..
  exact {
    written := ⟨front, hfield, hcodes ▸ hpayload⟩
    words := by rw [List.length_map, hlength, Payload.total]
    nodesNonzero := hnodes
    lengthsNonzero := hlengths
    distinct := hdistinct
    fits := hfits }

namespace Says

variable {base v : Version} {payload : Bytes} {layout : List (GIndex × Nat)} {start : UInt64}
  {codes : List UInt64}

/-- The bytes that a payload of this form makes of the base. -/
theorem replay_eq_ok_iff (h : Says base payload layout start codes) :
    replay base payload = .ok v ↔
      Fills v layout start
        (((summed base codes).flatMap wordBytes).take (totalSize (layout.map Prod.snd))) := by
  rw [← bytes_eq_summed base layout start codes]
  exact WordDelta.replay_eq_ok_iff h.run_read ((List.length_map _).trans h.words)

theorem exists_replay (h : Says base payload layout start codes) :
    ∃ v, replay base payload = .ok v := by
  have hlength := length_bytes (p := ⟨layout, start, codes.map ZigZag.decode⟩)
    ((List.length_map _).trans h.words) base
  have hwf : WellFormed (layOut start (cut (Payload.bytes
      ⟨layout, start, codes.map ZigZag.decode⟩ base) layout)) :=
    (wellFormed_cut_iff (Nat.le_of_eq hlength.symm)).2
      ⟨h.nodesNonzero, h.lengthsNonzero, h.distinct, h.fits⟩
  obtain ⟨v, hv⟩ := Version.exists_assemble_eq_ok_iff.2 hwf
  exact ⟨v, by simp only [replay, h.run_read, hv]⟩

end Says

end SszArchive.WordDelta

namespace SszArchive

open WordDelta

/-- **What word deltas accept.** A payload leads from a base to some version exactly if it is a tag
0, or a tag 1 with a layout, then a start and a number for each word that the layout takes, with
nothing after, and a version can have that layout behind that start. The version is then the one
with that layout and start that holds the base's words with the numbers added, cut to its length. -/
theorem Schema.wordDelta_apply_eq_ok_iff (base : Version) (payload : Bytes) :
    ((∃ v, Schema.wordDelta.apply base payload = .ok v) ↔
      ∃ layout start codes, Says base payload layout start codes) ∧
    ∀ layout start codes v, Says base payload layout start codes →
      (Schema.wordDelta.apply base payload = .ok v ↔
        Fills v layout start
          (((summed base codes).flatMap wordBytes).take (totalSize (layout.map Prod.snd)))) := by
  refine ⟨⟨?_, ?_⟩, fun layout start codes v hform => hform.replay_eq_ok_iff⟩
  · rintro ⟨v, h⟩
    obtain ⟨p, hread⟩ := exists_run_read_of_replay h
    exact ⟨_, _, _, says_of_replay hread h⟩
  · rintro ⟨layout, start, codes, hform⟩
    exact hform.exists_replay

/-- One word, with every bit set. -/
def fullWord : Version :=
  ⟨[⟨5, 10, [255, 255, 255, 255, 255, 255, 255, 255]⟩], firstFault_eq_none_iff.1 rfl⟩

/-- One byte more than a word. -/
def nineBytes : Version :=
  ⟨[⟨7, 3, [0, 0, 0, 0, 0, 0, 0, 0, 255]⟩], firstFault_eq_none_iff.1 rfl⟩

/-- The first word wraps around, the second is past the base's end, and one byte of it stays. -/
theorem Schema.wordDelta_apply_fullWord :
    Says fullWord [1, 1, 7, 9, 3, 2, 1] [(7, 9)] 3 [2, 1] ∧
      Schema.wordDelta.apply fullWord [1, 1, 7, 9, 3, 2, 1] = .ok nineBytes := by
  have hform : Says fullWord [1, 1, 7, 9, 3, 2, 1] [(7, 9)] 3 [2, 1] := {
    written := ⟨_, .explicit [(7, 9)], by decide +kernel⟩
    words := rfl
    nodesNonzero := by decide
    lengthsNonzero := by decide
    distinct := by decide
    fits := by decide }
  have hfills : Fills nineBytes [(7, 9)] 3
      (((summed fullWord [2, 1]).flatMap wordBytes).take 9) := {
    layout := rfl
    start := fun _ => rfl
    bytes := by decide +kernel }
  exact ⟨hform, ((Schema.wordDelta_apply_eq_ok_iff _ _).2 _ _ _ _ hform).2 hfills⟩

end SszArchive
