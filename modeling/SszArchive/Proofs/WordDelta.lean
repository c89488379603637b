import SszArchive.Proofs.Identity
import SszArchive.Proofs.Machine.WordDelta
import SszArchive.Proofs.RoundTrip

/-!
Word deltas read back. The words of both encodings are filled up with zeros, differences wrap, and
the last word is cut to the length of the target; every target comes out of its own payload.
-/

namespace SszArchive

/-! ## Words of bytes -/

/-- Bytes come back from their number, with zeros behind them. -/
theorem littleEndian_ofLittleEndian {k : Nat} {b : Bytes} (h : b.length ≤ k) :
    littleEndian k (ofLittleEndian b) = b ++ List.replicate (k - b.length) 0 := by
  induction k generalizing b with
  | zero =>
    rw [List.length_eq_zero_iff.1 (Nat.le_zero.1 h)]
    rfl
  | succ k ih =>
    cases b with
    | nil =>
      have hzeros := ih (b := []) (Nat.zero_le _)
      rw [List.nil_append] at hzeros
      simp only [ofLittleEndian] at hzeros
      simp [littleEndian, ofLittleEndian, hzeros, List.replicate_succ]
    | cons x b =>
      have hx := x.toNat_lt
      simp only [List.length_cons] at h
      have hfirst : UInt8.ofNat (x.toNat + 256 * ofLittleEndian b) = x := by
        apply UInt8.toNat_inj.1
        rw [UInt8.toNat_ofNat']
        omega
      have hrest : (x.toNat + 256 * ofLittleEndian b) / 256 = ofLittleEndian b := by omega
      rw [ofLittleEndian, littleEndian, hfirst, hrest, ih (by omega), List.cons_append,
        List.length_cons, Nat.add_sub_add_right]

theorem ofLittleEndian_lt (b : Bytes) : ofLittleEndian b < 256 ^ b.length := by
  induction b with
  | nil => decide
  | cons x b ih =>
    have hx := x.toNat_lt
    rw [ofLittleEndian, List.length_cons, Nat.pow_succ]
    omega

namespace WordDelta

theorem wordBytes_take (b : Bytes) :
    wordBytes (UInt64.ofNat (ofLittleEndian (b.take 8))) =
      b.take 8 ++ List.replicate (8 - (b.take 8).length) 0 := by
  have hlength : (b.take 8).length ≤ 8 := by
    rw [List.length_take]
    omega
  have hlt : ofLittleEndian (b.take 8) < 2 ^ 64 := by
    have hpow : 256 ^ (b.take 8).length ≤ 256 ^ 8 := Nat.pow_le_pow_right (by decide) hlength
    have := ofLittleEndian_lt (b.take 8)
    omega
  rw [wordBytes, UInt64.toNat_ofNat', Nat.mod_eq_of_lt hlt, littleEndian_ofLittleEndian hlength]

/-- The words hold the bytes, with zeros behind them. -/
theorem take_words {n : Nat} {b : Bytes} (h : b.length ≤ 8 * n) :
    ((words n b).flatMap wordBytes).take b.length = b := by
  induction n generalizing b with
  | zero =>
    rw [List.length_eq_zero_iff.1 (Nat.le_zero.1 h)]
    rfl
  | succ n ih =>
    rw [words, List.flatMap_cons, wordBytes_take]
    by_cases hshort : b.length ≤ 8
    · rw [List.take_of_length_le hshort, List.append_assoc, List.take_left]
    · have htake : (b.take 8).length = 8 := by
        rw [List.length_take]
        omega
      have hdrop : (b.drop 8).length = b.length - 8 := List.length_drop
      have hrest := ih (b := b.drop 8) (by omega)
      rw [hdrop] at hrest
      rw [htake, Nat.sub_self, List.replicate_zero, List.append_nil,
        List.take_append, htake, hrest, List.take_of_length_le (by omega), List.take_append_drop]

/-- Differences to the old words lead back to the new ones. -/
theorem add_differences {new old : List UInt64} (h : new.length = old.length) :
    List.zipWith (fun word delta => word + delta.toUInt64) old
      (List.zipWith (fun new old => (new - old).toInt64) new old) = new := by
  induction new generalizing old with
  | nil => simp
  | cons n new ih =>
    cases old with
    | nil => cases h
    | cons o old =>
      have hlength : new.length = old.length := by simpa using h
      have hrest := ih hlength
      have hword : o + (n - o).toInt64.toUInt64 = n := by
        rw [UInt64.toUInt64_toInt64, UInt64.add_comm, UInt64.sub_add_cancel]
      simp only [List.zipWith_cons_cons, hrest, hword]

/-! ## Reading back -/

theorem length_deltas (base target : Version) :
    (deltas base target).length = wordCount target.totalLength := by
  simp [deltas, length_words]

theorem totalSize_layout (v : Version) : totalSize (v.layout.map Prod.snd) = v.totalLength := by
  simp [Version.layout, Version.totalLength, Function.comp_def]

theorem reads_entry {entry : GIndex × Nat} (h : entry.2 < UInt64.size) :
    Wire.Reads readEntry (encodeEntry entry) entry :=
  (Wire.Reads.int entry.1).bind ((Wire.Reads.count h).map fun length => (entry.1, length))

/-- How a payload says which layout it is for: the base's, or one that is written out. -/
inductive LayoutField (base : Version) : List (GIndex × Nat) → Bytes → Prop
  | same : LayoutField base base.layout (Wire.int 0)
  | explicit (layout : List (GIndex × Nat)) :
      LayoutField base layout
        (Wire.int 1 ++ (Wire.count layout.length ++ layout.flatMap encodeEntry))

theorem layoutField_encode (base target : Version) :
    LayoutField base target.layout (encodeLayout base target) := by
  have hsize : target.layout.length = target.size := List.length_map ..
  rw [encodeLayout]
  split
  · next hsame => exact hsame ▸ .same
  · rw [List.append_assoc, ← hsize]
    exact .explicit _

theorem LayoutField.reads {base : Version} {layout : List (GIndex × Nat)} {front : Bytes}
    (h : LayoutField base layout front) (hcount : layout.length < UInt64.size)
    (hlengths : ∀ entry ∈ layout, entry.2 < UInt64.size) :
    Wire.Reads (readLayout base) front layout := by
  intro position rest
  rw [readLayout_apply]
  cases h with
  | same =>
    have htagged : Wire.Reads (readTagged base position 0) [] base.layout := by
      rw [readTagged, if_pos rfl]
      exact .pure _
    have hread := (Wire.Reads.int 0).bind htagged
    rw [List.append_nil] at hread
    exact hread position rest
  | explicit =>
    have hlist := Wire.Reads.list hcount fun entry hentry => reads_entry (hlengths entry hentry)
    have htagged : Wire.Reads (readTagged base position 1)
        (Wire.count layout.length ++ layout.flatMap encodeEntry) layout := by
      rw [readTagged, if_neg (by decide), if_pos rfl]
      exact hlist
    exact ((Wire.Reads.int 1).bind htagged) position rest

/-- Every word takes a byte, so that the length declared is there to be read. -/
theorem length_le_flatMap_signed (deltas : List Int64) :
    deltas.length ≤ (deltas.flatMap Wire.signed).length := by
  induction deltas with
  | nil => exact Nat.le_refl _
  | cons delta deltas ih =>
    have hdelta : 0 < (Wire.signed delta).length :=
      List.length_pos_iff.2 (Varint.encode_ne_nil _)
    rw [List.flatMap_cons, List.length_append, List.length_cons]
    omega

theorem finishes_readDeltas {layout : List (GIndex × Nat)} {start : UInt64}
    {deltas : List Int64} (hfits : totalSize (layout.map Prod.snd) < offsetBound)
    (hlength : deltas.length = wordCount (totalSize (layout.map Prod.snd))) :
    Wire.Finishes (readDeltas layout start) (deltas.flatMap Wire.signed)
      ⟨layout, start, deltas⟩ := by
  intro position
  have hbytes := length_le_flatMap_signed deltas
  rw [readDeltas_apply, if_neg (Nat.not_le.2 hfits),
    if_neg (by simp only [Wire.Cursor.remaining]; omega), ← hlength]
  have hdeltas : Wire.Reads (Wire.Reader.times Wire.Reader.signed deltas.length)
      (deltas.flatMap Wire.signed) deltas := .times fun delta _ => .signed delta
  have hread : Wire.Finishes (Wire.Reader.times Wire.Reader.signed deltas.length >>=
      fun deltas => Wire.Reader.finish >>= fun _ => pure (Payload.mk layout start deltas))
      (deltas.flatMap Wire.signed ++ []) ⟨layout, start, deltas⟩ := .bind hdeltas (.finish _)
  rw [List.append_nil] at hread
  exact hread position

/-- A payload is read field by field. -/
theorem LayoutField.finishes_read {base : Version} {layout : List (GIndex × Nat)} {front : Bytes}
    (h : LayoutField base layout front) {start : UInt64} {deltas : List Int64}
    (hcount : layout.length < UInt64.size) (hlengths : ∀ entry ∈ layout, entry.2 < UInt64.size)
    (hfits : totalSize (layout.map Prod.snd) < offsetBound)
    (hlength : deltas.length = wordCount (totalSize (layout.map Prod.snd))) :
    Wire.Finishes (read base) (front ++ (Wire.int start ++ deltas.flatMap Wire.signed))
      ⟨layout, start, deltas⟩ := by
  rw [read_eq]
  exact .bind (h.reads hcount hlengths)
    (.bind (Wire.Reads.int start) (finishes_readDeltas hfits hlength))

theorem finishes_read (base target : Version) :
    Wire.Finishes (read base) (encode base target)
      ⟨target.layout, target.start, deltas base target⟩ := by
  have hcount : target.layout.length < UInt64.size := by
    rw [Version.layout, List.length_map]
    exact target.size_lt
  have hlengths : ∀ entry ∈ target.layout, entry.2 < UInt64.size :=
    List.forall_mem_map.2 fun s hs => Version.length_lt hs
  rw [encode, List.append_assoc]
  refine (layoutField_encode base target).finishes_read hcount hlengths ?_ ?_
  · rw [totalSize_layout]
    exact target.totalLength_lt
  · rw [totalSize_layout, length_deltas]

/-! ## Replaying -/

theorem bytes_deltas (base target : Version) :
    Payload.bytes ⟨target.layout, target.start, deltas base target⟩ base = target.bytes := by
  have hlength := target.length_bytes
  have htotal : Payload.total ⟨target.layout, target.start, deltas base target⟩ =
      target.bytes.length := by
    rw [hlength]
    exact totalSize_layout target
  have hwords : target.bytes.length ≤ 8 * wordCount target.totalLength := by
    rw [hlength, wordCount]
    omega
  rw [Payload.bytes, htotal]
  simp only [length_deltas]
  rw [deltas, add_differences (by simp only [length_words]), take_words hwords]

theorem replay_encode (base target : Version) : replay base (encode base target) = .ok target := by
  simp only [replay, (finishes_read base target).run, bytes_deltas, target.cut_layout,
    target.assemble_parts]

end WordDelta

theorem Schema.wordDelta_roundTrips : Schema.wordDelta.RoundTrips :=
  fun base target => ⟨_, rfl, WordDelta.replay_encode base target⟩

/-- **Word deltas are exact.** Between any two versions they can be written, and what was written
makes the second version of the first: its layout, its start and every byte, also where the words
lie across slices, wrap around or are filled up with zeros. -/
theorem Schema.wordDelta_exact (base target : Version) :
    (Schema.wordDelta.compute base target >>= Schema.wordDelta.apply base) = .ok target := by
  obtain ⟨payload, hcompute, happly⟩ := Schema.wordDelta_roundTrips base target
  rw [hcompute]
  exact happly

end SszArchive
