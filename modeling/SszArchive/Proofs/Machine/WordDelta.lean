import SszArchive.Proofs.Delimited
import SszArchive.Proofs.Machine.Indexed
import SszArchive.Proofs.Machine.Reading

/-!
Replaying word deltas on a version in memory. The lengths of the layout come from the payload and
are summed up with a check; every later sum and piece is bounded by that total, and the words read
of the base by the buffer that the new words have been written to.
-/

namespace SszArchive

theorem ofLittleEndian_append_zeros (b : Bytes) (n : Nat) :
    ofLittleEndian (b ++ List.replicate n 0) = ofLittleEndian b := by
  induction b with
  | nil =>
    induction n with
    | zero => rfl
    | succ n ih =>
      rw [List.nil_append] at ih ⊢
      rw [List.replicate_succ]
      simp only [ofLittleEndian, ih]
      rfl
  | cons x b ih => rw [List.cons_append, ofLittleEndian, ofLittleEndian, ih]

theorem length_flatMap_wordBytes (ws : List UInt64) :
    (ws.flatMap wordBytes).length = 8 * ws.length := by
  induction ws with
  | nil => rfl
  | cons w ws ih =>
    rw [List.flatMap_cons, List.length_append, ih, wordBytes, length_littleEndian,
      List.length_cons]
    omega

namespace WordDelta

theorem length_words (n : Nat) (b : Bytes) : (words n b).length = n := by
  induction n generalizing b with
  | zero => rfl
  | succ n ih => rw [words, List.length_cons, ih]

/-- There are bytes for the whole layout when there are deltas for it. -/
theorem length_bytes {p : Payload} (h : p.deltas.length = wordCount p.total) (base : Version) :
    (p.bytes base).length = p.total := by
  rw [Payload.bytes, List.length_take, length_flatMap_wordBytes, List.length_zipWith, length_words,
    Nat.min_self, h, wordCount]
  omega

end WordDelta

namespace Machine

open Wire (Reader Cursor bufferBound bufferBound_lt)
open WordDelta (wordCount words Payload)

/-! ## Words -/

/-- Word number `i` of the bytes, zero past the end. -/
def wordAt (b : Bytes) (i : Nat) : Exec ε UInt64 := do
  let start ← mul i 8
  if b.length ≤ start then return 0
  else
    let stop ← add start 8
    let stop := min stop b.length
    let n ← sub stop start
    let taken ← piece b start stop
    let word ← fill (List.replicate 8 0) n taken
    return UInt64.ofNat (ofLittleEndian word)

/-- In a buffer that starts below the bound the word does not reach the end of the address
space. -/
theorem wordAt_eq (b : Bytes) {i : Nat} (h : 8 * i < bufferBound) :
    (wordAt b i : Exec ε UInt64) =
      .ok (UInt64.ofNat (ofLittleEndian ((b.drop (8 * i)).take 8))) := by
  have hbound : 8 * i + 8 < UInt64.size := by
    simp only [bufferBound, UInt64.size, Nat.shiftLeft_eq] at h ⊢
    omega
  rw [wordAt, mul_of_lt (by omega), Nat.mul_comm i 8, ok_bind]
  by_cases hshort : b.length ≤ 8 * i
  · rw [if_pos hshort, List.drop_of_length_le hshort]
    rfl
  · have hpiece : (b.take (min (8 * i + 8) b.length)).drop (8 * i) = (b.drop (8 * i)).take 8 := by
      rw [List.drop_take]
      have hmin : min (8 * i + 8) b.length - 8 * i = min 8 (b.drop (8 * i)).length := by
        rw [List.length_drop]
        omega
      rw [hmin, ← List.take_eq_take_min]
    have hlength : ((b.drop (8 * i)).take 8).length = min (8 * i + 8) b.length - 8 * i := by
      rw [List.length_take, List.length_drop]
      omega
    rw [if_neg hshort, add_of_lt hbound, ok_bind]
    dsimp only
    rw [sub_of_le (by omega), ok_bind, piece_of_le (by omega) (by omega), ok_bind, hpiece,
      fill_of_le (by rw [List.length_replicate]; omega) hlength, ok_bind, List.drop_replicate,
      ofLittleEndian_append_zeros]
    rfl

/-- Appends the next new word. -/
def extend (old : Bytes) (i : Nat) (new : Bytes) (delta : Int64) : Exec ε Bytes := do
  let word ← wordAt old i
  reserve (new.length + 8)
  return new ++ wordBytes (word + delta.toUInt64)

/-- The new words from number `i` on, behind those in `new`. -/
def addDeltas (old : Bytes) (i : Nat) : Nat → Bytes → Scan Bytes
  | 0, new => return new
  | n + 1, new => fun s => do
      let (delta, s) ← Scan.signed s
      let new ← extend old i new delta
      addDeltas old (i + 1) n new s

/-- The new words so far fill a buffer, and so the next one starts in range. -/
theorem follows_addDeltas {limit : Nat} {scarce : Prop} (old : Bytes) {n i : Nat} {new : Bytes}
    (hnew : new.length = 8 * i) (hroom : new.length < bufferBound)
    (hscarce : bufferBound ≤ 8 * (i + n) → scarce) :
    Follows limit scarce
      (fun b deltas => deltas.length = n ∧
        b = new ++ (List.zipWith (fun word delta : _ => word + Int64.toUInt64 delta)
          (words n (old.drop (8 * i))) deltas).flatMap wordBytes)
      (addDeltas old i n new) (Reader.times Reader.signed n) := by
  induction n generalizing i new with
  | zero => exact .pure ⟨rfl, (List.append_nil new).symm⟩
  | succ n ih =>
    refine Follows.bind (f := fun delta s => do
      let new ← extend old i new delta
      addDeltas old (i + 1) n new s) .signed ?_
    rintro delta _ rfl s c hs
    have hword := wordAt_eq (ε := Wire.Fault) old (hnew ▸ hroom)
    by_cases hlt : new.length + 8 < bufferBound
    · have hextend : (extend old i new delta : Exec Wire.Fault Bytes) = .ok (new ++ wordBytes
          (UInt64.ofNat (ofLittleEndian ((old.drop (8 * i)).take 8)) + delta.toUInt64)) := by
        rw [extend, hword, ok_bind, reserve_of_lt hlt]
        rfl
      simp only [hextend, ok_bind]
      refine Follows.mapRight (ih ?_ ?_ ?_) ?_ hs
      · rw [List.length_append, hnew, wordBytes, length_littleEndian]
        omega
      · rwa [List.length_append, wordBytes, length_littleEndian]
      · rwa [Nat.add_assoc, Nat.add_comm 1 n]
      · rintro b deltas ⟨rfl, rfl⟩
        refine ⟨rfl, ?_⟩
        rw [words, List.drop_drop, List.zipWith_cons_cons, List.flatMap_cons, List.append_assoc]
        rfl
    · have hextend : (extend old i new delta : Exec Wire.Fault Bytes) = .error .outOfMemory := by
        rw [extend, hword, ok_bind, reserve_of_ge (Nat.not_lt.1 hlt), error_bind]
      simp only [hextend, error_bind]
      exact .outOfMemory (hscarce (by omega))

/-! ## Reading -/

def readEntry : Scan (GIndex × Nat) := do
  let node ← Scan.int
  let length ← Scan.count
  return (node, length)

/-- What follows the tag at `offset`. -/
def readTagged (base : Indexed) (offset : Nat) (tag : UInt64) : Scan (List (GIndex × Nat)) :=
  if tag = 0 then return base.slices.map fun s => (s.node, s.length)
  else if tag = 1 then Scan.list readEntry
  else fun _ => report (.unknownTag offset tag.toNat)

def readLayout (base : Indexed) : Scan (List (GIndex × Nat)) := fun s =>
  (Scan.int >>= readTagged base s.position) s

/-- A layout with the start and all the bytes of the target. -/
structure Content where
  layout : List (GIndex × Nat)
  start : UInt64
  bytes : Bytes

/-- The content that the deltas make of the bytes `old`. -/
def fillContent (layout : List (GIndex × Nat)) (start : UInt64) (old : Bytes) : Scan Content := do
  let total := totalSize (layout.map Prod.snd)
  let new ← addDeltas old 0 (wordCount total) []
  Scan.finish
  return ⟨layout, start, new.take total⟩

def readContent (base : Indexed) (layout : List (GIndex × Nat)) (start : UInt64) :
    Scan Content := fun s => do
  let total := totalSize (layout.map Prod.snd)
  if offsetBound ≤ total then report (.lengthOverflow (offsetBound - 1))
  else
    let available ← s.remaining
    if available < wordCount total then
      report (.shortPayload s.position (wordCount total) available)
    else
      let old ← base.bytes
      fillContent layout start old s

def readWords (base : Indexed) : Scan Content := do
  let layout ← readLayout base
  let start ← Scan.int
  readContent base layout start

variable {limit : Nat} {scarce : Prop} {x : Indexed} {v : Version}

theorem follows_readEntry : Follows limit scarce (· = ·) readEntry WordDelta.readEntry :=
  .bind .int fun _ _ hnode => .bind .count fun _ _ hlength =>
    .pure (congrArg₂ Prod.mk hnode hlength)

theorem follows_readTagged (h : x.Represents v) (offset : Nat) (tag : UInt64) :
    Follows limit scarce (· = ·) (readTagged x offset tag) (WordDelta.readTagged v offset tag) := by
  rw [readTagged, WordDelta.readTagged]
  split
  · exact .pure (by rw [h.slices, Version.layout])
  · split
    · exact .list follows_readEntry
    · exact fun _ _ _ => .fault _ _

theorem follows_readLayout (h : x.Represents v) :
    Follows limit scarce (· = ·) (readLayout x) (WordDelta.readLayout v) := by
  intro s c hs
  rw [WordDelta.readLayout_apply, hs.position]
  exact Follows.bind .int (fun tag _ htag => htag ▸ follows_readTagged h s.position tag) hs

/-- The sizes from which on a buffer may be too long: the bytes of the version are put into one,
and so are the new words, of which each takes a byte of the payload. -/
def Scarce (v : Version) (size : Nat) : Prop :=
  bufferBound ≤ v.totalLength ∨ bufferBound ≤ 8 * size

theorem Scarce.mono {w : Version} {size size' : Nat} (h : Scarce w size)
    (hversion : w.totalLength ≤ v.totalLength) (hsize : size ≤ size') : Scarce v size' := by
  rcases h with h | h
  · exact .inl (by omega)
  · exact .inr (by omega)

/-- The content is what the payload stands for, and its bytes fill the layout. -/
structure Content.Of (v : Version) (content : Content) (p : Payload) : Prop where
  layout : content.layout = p.layout
  start : content.start = p.start
  bytes : content.bytes = p.bytes v
  length : content.bytes.length = p.total
  fits : p.total < offsetBound

theorem follows_fillContent (v : Version) (layout : List (GIndex × Nat)) (start : UInt64)
    (hfits : totalSize (layout.map Prod.snd) < offsetBound)
    (hscarce : bufferBound ≤ 8 * wordCount (totalSize (layout.map Prod.snd)) → scarce) :
    Follows limit scarce (Content.Of v) (fillContent layout start v.bytes)
      (Reader.times Reader.signed (wordCount (totalSize (layout.map Prod.snd))) >>=
        fun deltas => Reader.finish >>= fun _ => pure { layout, start, deltas }) := by
  rw [← Nat.zero_add (wordCount _)] at hscarce
  refine Follows.bind (follows_addDeltas v.bytes rfl (by decide) hscarce) ?_
  rintro _ deltas ⟨hlength, rfl⟩
  refine Follows.bind .finish fun _ _ _ => .pure ?_
  have hbytes : (([] : Bytes) ++ (List.zipWith (fun word delta : _ => word + Int64.toUInt64 delta)
      (words (wordCount (totalSize (layout.map Prod.snd))) (v.bytes.drop (8 * 0)))
      deltas).flatMap wordBytes).take (totalSize (layout.map Prod.snd)) =
        Payload.bytes ⟨layout, start, deltas⟩ v := by
    rw [List.nil_append, Payload.bytes, hlength]
    rfl
  refine ⟨rfl, rfl, hbytes, ?_, hfits⟩
  rw [hbytes]
  exact WordDelta.length_bytes hlength v

theorem follows_readContent (h : x.Represents v) (layout : List (GIndex × Nat)) (start : UInt64) :
    Follows limit (Scarce v limit) (Content.Of v) (readContent x layout start)
      (WordDelta.readDeltas layout start) := by
  intro s c hs
  rw [readContent, WordDelta.readDeltas_apply]
  by_cases hover : offsetBound ≤ totalSize (layout.map Prod.snd)
  · rw [if_pos hover, if_pos hover]
    exact .fault _ _
  rw [if_neg hover, if_neg hover, hs.remaining, ok_bind]
  by_cases hshort : c.remaining < wordCount (totalSize (layout.map Prod.snd))
  · rw [if_pos hshort, if_pos hshort, hs.position]
    exact .fault _ _
  rw [if_neg hshort, if_neg hshort]
  -- The payload has a byte for each word, and so it limits the words as well.
  have hwords : bufferBound ≤ 8 * wordCount (totalSize (layout.map Prod.snd)) → Scarce v limit := by
    have hremaining := hs.remaining_le
    intro hlarge
    exact .inr (by omega)
  have hold := h.bytes (ε := Wire.Fault)
  revert hold
  generalize (x.bytes : Exec Wire.Fault Bytes) = old
  intro hold
  cases hold with
  | outOfMemory htotal => exact .outOfMemory (.inl htotal)
  | ok hold =>
    subst hold
    rw [ok_bind]
    exact follows_fillContent v layout start (Nat.not_le.1 hover) hwords hs

theorem follows_readWords (h : x.Represents v) :
    Follows limit (Scarce v limit) (Content.Of v) (readWords x) (WordDelta.read v) := by
  rw [WordDelta.read_eq]
  refine (follows_readLayout h).bind ?_
  rintro layout _ rfl
  refine Follows.int.bind ?_
  rintro start _ rfl
  exact follows_readContent h layout start

/-! ## Replay -/

/-- Cuts `b` from `offset` on by the lengths of the layout. -/
def cutFrom (b : Bytes) (offset : Nat) : List (GIndex × Nat) → Exec ε (List Part)
  | [] => .ok []
  | (g, n) :: rest => do
      let stop ← add offset n
      let taken ← piece b offset stop
      let next ← add offset n
      let more ← cutFrom b next rest
      return ⟨g, taken⟩ :: more

theorem cutFrom_eq {b : Bytes} {offset : Nat} {layout : List (GIndex × Nat)}
    (hfits : offset + totalSize (layout.map Prod.snd) ≤ b.length) (hlt : b.length < UInt64.size) :
    (cutFrom b offset layout : Exec ε (List Part)) = .ok (cut (b.drop offset) layout) := by
  induction layout generalizing offset with
  | nil => rfl
  | cons entry layout ih =>
    obtain ⟨g, n⟩ := entry
    rw [List.map_cons, totalSize] at hfits
    rw [cutFrom, add_of_lt (by omega), ok_bind, piece_add (by omega), ok_bind, ok_bind,
      ih (by omega), cut, List.drop_drop]
    rfl

def replayWords (base : Indexed) (payload : Bytes) : Exec DiffFault Indexed := do
  let content ← mapFault .malformed ((readWords base).run payload)
  let parts ← cutFrom content.bytes 0 content.layout
  mapFault .invariant (assemble content.start parts)

theorem refines_replayWords (h : x.Represents v) {payload : Bytes}
    (hshort : payload.length < bufferBound) :
    Refines (Scarce v payload.length) Indexed.Represents
      (replayWords x payload) (WordDelta.replay v payload) := by
  have hreplay : WordDelta.replay v payload =
      ((WordDelta.read v).run payload).mapError .malformed >>= fun p =>
        (Version.assemble p.start (cut (p.bytes v) p.layout)).mapError .invariant := by
    rw [WordDelta.replay]
    cases (WordDelta.read v).run payload with
    | error e => rfl
    | ok p =>
      simp only [Except.mapError, bind, Except.bind]
      cases Version.assemble p.start (cut (p.bytes v) p.layout) <;> rfl
  rw [hreplay, replayWords]
  refine (((follows_readWords h).run (Nat.le_refl _) hshort).mapFault _).bind
    fun content p hp => ?_
  have hfits : 0 + totalSize (content.layout.map Prod.snd) ≤ content.bytes.length := by
    rw [Nat.zero_add, hp.length, hp.layout]
    exact Nat.le_refl _
  have hcut := cutFrom_eq (ε := DiffFault) hfits (by rw [hp.length]; exact hp.fits)
  rw [hcut, ok_bind, List.drop_zero, hp.bytes, hp.layout, hp.start]
  exact ((refines_assemble p.start _).mapFault _).mono False.elim

end Machine

end SszArchive
