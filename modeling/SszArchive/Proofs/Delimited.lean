import SszArchive.Proofs.Format
import SszArchive.Proofs.Payload
import SszArchive.Proofs.SchemaTree

/-!
Payloads say where they end. In every format a payload that is accepted becomes malformed when it
is cut anywhere and when anything is put behind it.
-/

namespace SszArchive

open Wire (Reader Cursor Reads Exact Framed Closed bind_of_ok bind_of_error bind_eq_ok_iff
  prefix_append_cases)

/-- What `read` accepts it refuses as malformed once it is cut or prolonged. -/
def Delimited (read : Bytes → Except DiffFault α) : Prop :=
  ∀ ⦃p : Bytes⦄ ⦃a : α⦄, read p = .ok a →
    (∀ q, q <+: p → q ≠ p → ∃ e, read q = .error (.malformed e)) ∧
      ∀ extra, extra ≠ [] → read (p ++ extra) = .error (.malformed (.trailingBytes extra.length))

/-- Whatever is done with what a closed reader reads, as long as its faults are passed on. -/
theorem Wire.Closed.delimited {r : Reader α} (hr : Closed r)
    {read : Bytes → Except DiffFault β}
    (hread : ∀ p e, r.run p = .error e → read p = .error (.malformed e)) : Delimited read := by
  intro p b h
  cases hp : r.run p with
  | error e =>
    rw [hread p e hp] at h
    cases h
  | ok a =>
    obtain ⟨hcut, hprolonged⟩ := hr.run hp
    constructor
    · intro q hq hne
      obtain ⟨e, hfail⟩ := hcut q hq hne
      exact ⟨e, hread q e hfail⟩
    · intro extra hne
      exact hread _ _ (hprolonged extra hne)

/-! ## Slices -/

theorem Diff.delimited_replayPayload (base : Version) : Delimited (replayPayload base) :=
  closed_read.delimited fun p e h => by simp only [replayPayload, decode, h]

/-! ## Word deltas -/

namespace WordDelta

theorem exact_readEntry : Exact readEntry encodeEntry := by
  intro c d entry h
  obtain ⟨node, _, hnode, h⟩ := bind_eq_ok_iff.1 h
  obtain ⟨length, _, hlength, h⟩ := bind_eq_ok_iff.1 h
  cases h
  have hread : Reads readEntry (encodeEntry (node, length)) (node, length) :=
    (Reads.int node).bind ((Reads.count (Exact.lt_of_count hlength)).map fun n => (node, n))
  refine ⟨hread, ?_⟩
  rw [(Exact.int hnode).2, (Exact.count hlength).2, encodeEntry, List.append_assoc]

/-- What follows the tag at `offset`. -/
def readTagged (base : Version) (offset : Nat) (tag : UInt64) : Reader (List (GIndex × Nat)) :=
  if tag = 0 then return base.layout
  else if tag = 1 then Reader.list readEntry
  else throw (.unknownTag offset tag.toNat)

theorem readLayout_apply (base : Version) (c : Cursor) :
    readLayout base c = (Reader.int >>= readTagged base c.position) c := rfl

/-- Only a fault tells where the tag stood. -/
theorem framed_readTagged {base : Version} {offset : Nat} {tag : UInt64} {c d : Cursor}
    {layout : List (GIndex × Nat)} (h : readTagged base offset tag c = .ok layout d) :
    ∃ b, (∀ offset, Reads (readTagged base offset tag) b layout) ∧ c.rest = b ++ d.rest := by
  unfold readTagged at h
  split at h
  · next htag =>
    obtain ⟨b, hreads, hrest⟩ := Framed.pure _ h
    refine ⟨b, fun offset => ?_, hrest⟩
    rwa [readTagged, if_pos htag]
  · next hzero =>
    split at h
    · next htag =>
      obtain ⟨b, hreads, hrest⟩ := (Exact.list exact_readEntry).framed h
      refine ⟨b, fun offset => ?_, hrest⟩
      rwa [readTagged, if_neg hzero, if_pos htag]
    · cases h

theorem framed_readLayout (base : Version) : Framed (readLayout base) := by
  intro c d layout h
  rw [readLayout_apply] at h
  obtain ⟨tag, between, htag, h⟩ := bind_eq_ok_iff.1 h
  obtain ⟨hint, hrest⟩ := Exact.int htag
  obtain ⟨b, htagged, hbetween⟩ := framed_readTagged h
  refine ⟨Wire.int tag ++ b, fun position rest => ?_, by rw [hrest, hbetween, List.append_assoc]⟩
  rw [readLayout_apply]
  exact hint.bind (htagged position) position rest

/-- What follows the start: the deltas, as many as the layout takes. -/
def readDeltas (layout : List (GIndex × Nat)) (start : UInt64) : Reader Payload := do
  let total := totalSize (layout.map Prod.snd)
  if offsetBound ≤ total then throw (.lengthOverflow (offsetBound - 1))
  let c ← get
  if c.remaining < wordCount total then
    throw (.shortPayload c.position (wordCount total) c.remaining)
  let deltas ← Reader.times Reader.signed (wordCount total)
  Reader.finish
  return { layout, start, deltas }

theorem read_eq (base : Version) :
    read base = readLayout base >>= fun layout => Reader.int >>= readDeltas layout := rfl

theorem readDeltas_apply (layout : List (GIndex × Nat)) (start : UInt64) (c : Cursor) :
    readDeltas layout start c =
      if offsetBound ≤ totalSize (layout.map Prod.snd) then
        .error (.lengthOverflow (offsetBound - 1)) c
      else if c.remaining < wordCount (totalSize (layout.map Prod.snd)) then
        .error (.shortPayload c.position (wordCount (totalSize (layout.map Prod.snd)))
          c.remaining) c
      else (Reader.times Reader.signed (wordCount (totalSize (layout.map Prod.snd))) >>=
        fun deltas => Reader.finish >>= fun _ => pure { layout, start, deltas }) c := by
  unfold readDeltas
  split
  · rfl
  · show (if c.remaining < wordCount (totalSize (layout.map Prod.snd)) then _ else _ :
      Reader _) c = _
    split <;> rfl

theorem closed_readDeltas (layout : List (GIndex × Nat)) (start : UInt64) :
    Closed (readDeltas layout start) := by
  intro c d payload h
  rw [readDeltas_apply] at h
  split at h
  · cases h
  · next hbound =>
    split at h
    · cases h
    · next hlong =>
      obtain ⟨hcut, hprolonged⟩ :=
        Closed.bind (Framed.signed.times _) (fun _ => Closed.finish _) h
      constructor
      · intro position q hq hne
        rw [readDeltas_apply, if_neg hbound]
        split
        · exact ⟨_, _, rfl⟩
        · exact hcut position q hq hne
      · intro position extra hne
        have hlonger : ¬ (⟨position, c.rest ++ extra⟩ : Cursor).remaining <
            wordCount (totalSize (layout.map Prod.snd)) := by
          simp only [Cursor.remaining, List.length_append] at hlong ⊢
          omega
        rw [readDeltas_apply, if_neg hbound, if_neg hlonger]
        exact hprolonged position extra hne

theorem closed_read (base : Version) : Closed (read base) := by
  rw [read_eq]
  exact .bind (framed_readLayout base) fun layout =>
    .bind Exact.int.framed (closed_readDeltas layout)

theorem delimited_replay (base : Version) : Delimited (replay base) :=
  (closed_read base).delimited fun p e h => by simp only [replay, h]

end WordDelta

/-! ## Composites -/

namespace Composite

/-- The parts of a composite are framed: cut anywhere, one of them cannot be read. -/
theorem framed_applyParts {base : Version} {scopes : List Scope} {c d : Cursor}
    {slices : List Slice} (h : applyParts base scopes c = .ok (slices, d)) :
    ∃ b, c.rest = b ++ d.rest ∧
      (∀ position rest, applyParts base scopes ⟨position, b ++ rest⟩ =
        .ok (slices, ⟨position + b.length, rest⟩)) ∧
      ∀ position q, q <+: b → q ≠ b →
        ∃ e, applyParts base scopes ⟨position, q⟩ = .error (.malformed e) := by
  induction scopes generalizing c slices with
  | nil =>
    cases h
    exact ⟨[], rfl, fun _ _ => rfl, fun _ q hq hne => absurd (List.prefix_nil.1 hq) hne⟩
  | cons s scopes ih =>
    rw [applyParts] at h
    split at h
    · cases h
    · next part between hblock =>
      split at h
      · cases h
      · next mine hmine =>
        split at h
        · cases h
        · next more _ hmore =>
          cases h
          obtain ⟨b, hbetween, hreads, hcut⟩ := ih hmore
          obtain ⟨-, hrest⟩ := Exact.block hblock
          have hpart := Exact.lt_of_block hblock
          refine ⟨Wire.block part ++ b, ?_, ?_, ?_⟩
          · rw [hrest, hbetween, List.append_assoc]
          · intro position rest
            rw [List.append_assoc, applyParts_cons s scopes base hpart, hmine, Except.bind, hreads,
              Except.map, List.length_append, Nat.add_assoc]
          · intro position q hq hne
            rcases prefix_append_cases hq hne with ⟨hq, hne⟩ | ⟨tail, rfl, htail, hne⟩
            · obtain ⟨e, d, hfail⟩ :=
                Exact.block.framed.error_of_prefix (Reads.block hpart) hq hne position
              exact ⟨e, by rw [applyParts, hfail]⟩
            · obtain ⟨e, hfail⟩ := hcut _ tail htail hne
              rw [applyParts_cons s scopes base hpart, hmine, Except.bind, hfail]
              exact ⟨e, rfl⟩

theorem closed_readExtent : Closed readExtent := .bind Exact.range.framed fun _ => .finish _

theorem delimited_close {slices : List Slice} {c : Cursor} {v : Version}
    (h : close (slices, c) = .ok v) :
    (∀ position q, q <+: c.rest → q ≠ c.rest →
        ∃ e, close (slices, ⟨position, q⟩) = .error (.malformed e)) ∧
      ∀ position extra, extra ≠ [] →
        close (slices, ⟨position, c.rest ++ extra⟩) =
          .error (.malformed (.trailingBytes extra.length)) := by
  rw [close] at h
  split at h
  · cases h
  · next hextent =>
    obtain ⟨hcut, hprolonged⟩ := closed_readExtent hextent
    constructor
    · intro position q hq hne
      obtain ⟨e, d, hfail⟩ := hcut position q hq hne
      exact ⟨e, by rw [close, hfail]⟩
    · intro position extra hne
      obtain ⟨d, hfail⟩ := hprolonged position extra hne
      rw [close, hfail]

theorem apply_of_count {scopes : List Scope} {base : Version} {payload : Bytes} {c : Cursor}
    (h : Reader.count (Cursor.start payload) = .ok scopes.length c) :
    apply scopes base payload = (applyParts base scopes c).bind close := by
  rw [apply, h]
  simp only [ne_eq, not_true, if_false]
  generalize applyParts base scopes c = outcome
  cases outcome <;> rfl

theorem apply_eq_ok {scopes : List Scope} {base : Version} {payload : Bytes} {v : Version}
    (h : apply scopes base payload = .ok v) :
    ∃ c slices d, Reader.count (Cursor.start payload) = .ok scopes.length c ∧
      applyParts base scopes c = .ok (slices, d) ∧ close (slices, d) = .ok v := by
  cases hcount : Reader.count (Cursor.start payload) with
  | error e c =>
    rw [apply, hcount] at h
    cases h
  | ok n c =>
    by_cases hn : n = scopes.length
    · subst hn
      rw [apply_of_count hcount] at h
      cases hparts : applyParts base scopes c with
      | error e =>
        rw [hparts] at h
        cases h
      | ok outcome =>
        obtain ⟨slices, d⟩ := outcome
        rw [hparts] at h
        exact ⟨c, slices, d, rfl, hparts, h⟩
    · simp only [apply, hcount, ne_eq, hn, not_false_iff, if_true] at h
      cases h

theorem delimited_apply (scopes : List Scope) (base : Version) :
    Delimited (apply scopes base) := by
  intro p v h
  obtain ⟨c, slices, d, hcount, hparts, hclose⟩ := apply_eq_ok h
  obtain ⟨hreads, hp⟩ := Exact.count hcount
  obtain ⟨b, hc, happlies, hcut⟩ := framed_applyParts hparts
  obtain ⟨hcutExtent, hprolonged⟩ := delimited_close hclose
  rw [show p = _ from hp, hc]
  constructor
  · intro q hq hne
    rcases prefix_append_cases hq hne with ⟨hq, hne⟩ | ⟨tail, rfl, htail, hne⟩
    · obtain ⟨e, d, hfail⟩ := Exact.count.framed.error_of_prefix hreads hq hne 0
      exact ⟨e, by simp only [apply, Cursor.start, hfail]⟩
    · rw [apply_of_count (hreads 0 tail)]
      rcases prefix_append_cases htail hne with ⟨hb, hne⟩ | ⟨extent, rfl, hextent, hne⟩
      · obtain ⟨e, hfail⟩ := hcut (0 + (Wire.count scopes.length).length) tail hb hne
        exact ⟨e, by rw [hfail, Except.bind]⟩
      · obtain ⟨e, hfail⟩ := hcutExtent _ extent hextent hne
        exact ⟨e, by rw [happlies, Except.bind, hfail]⟩
  · intro extra hne
    rw [List.append_assoc, apply_of_count (hreads 0 _), List.append_assoc, happlies, Except.bind,
      hprolonged _ extra hne]

end Composite

/-! ## All formats -/

namespace Format

theorem delimited (f : Format) (base : Version) : Delimited (f.schema.apply base) := by
  cases f with
  | slices => exact Diff.delimited_replayPayload base
  | snapshot => exact Diff.delimited_replayPayload .empty
  | wordDelta => exact WordDelta.delimited_replay base
  | composite parts => exact Composite.delimited_apply _ base

/-- **Payloads say where they end**, in every format: one that is accepted is malformed as soon as
it is cut, and has trailing bytes as soon as anything follows it. -/
theorem malformed_of_cut_or_prolonged (f : Format) {base v : Version} {p : Bytes}
    (h : f.schema.apply base p = .ok v) :
    (∀ q, q <+: p → q ≠ p → ∃ e, f.schema.apply base q = .error (.malformed e)) ∧
      ∀ extra, extra ≠ [] →
        f.schema.apply base (p ++ extra) = .error (.malformed (.trailingBytes extra.length)) :=
  f.delimited base h

/-- Words under 2, and under 3 a composite of one part, which is a snapshot. -/
def mixed : Format :=
  .composite [(.subtree 2, .wordDelta), (.subtree 3, .composite [(.all, .snapshot)])]

def mixedPayload : Bytes :=
  [2, 14, 2, 7, 1, 10, 1, 8, 1, 2, 4, 1, 5, 1, 0, 0, 23, 1, 8, 1, 19, 1, 15, 1, 0, 1, 11, 1, 3, 2,
    9, 9, 0, 1, 3, 0, 0, 2, 0, 2, 7, 4]

open SchemaTree (shiftedBase interleavedTarget)

theorem apply_mixed : mixed.schema.apply shiftedBase mixedPayload = .ok interleavedTarget := by
  decide +kernel

theorem malformed_of_cut_or_prolonged_mixed :
    mixed.schema.apply shiftedBase mixedPayload = .ok interleavedTarget ∧
      (∀ q, q <+: mixedPayload → q ≠ mixedPayload →
        ∃ e, mixed.schema.apply shiftedBase q = .error (.malformed e)) ∧
      ∀ extra, extra ≠ [] → mixed.schema.apply shiftedBase (mixedPayload ++ extra) =
        .error (.malformed (.trailingBytes extra.length)) :=
  ⟨apply_mixed, mixed.malformed_of_cut_or_prolonged apply_mixed⟩

end Format

end SszArchive
