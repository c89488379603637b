import SszArchive.Diff.Payload
import SszArchive.Proofs.Framing

/-!
A diff payload is read back as the diff that was written, and no other payload is read as this
diff: reading accepts exactly what writing produces.
-/

namespace SszArchive.Diff

open Wire (Reader Reads Finishes Exact Closed Cursor bind_eq_ok_iff)

/-- What the numbers of a payload can say: counts and lengths that are 64-bit words, and no
addition behind node number 0, which stands for the front. -/
structure Writable (d : Diff) : Prop where
  changes : d.changes.length < UInt64.size
  bytes : ∀ c ∈ d.changes, c.bytes.length < UInt64.size
  removed : d.removed.length < UInt64.size
  added : d.added.length < UInt64.size
  anchors : ∀ a ∈ d.added, a.after ≠ some 0

theorem reads_change {c : Part} (h : c.bytes.length < UInt64.size) :
    Reads readChange (encodeChange c) c :=
  (Reads.int c.node).bind ((Reads.block h).map (Part.mk c.node))

theorem reads_addition {a : Addition} (h : a.after ≠ some 0) :
    Reads readAddition (encodeAddition a) a := by
  have hanchor : (if a.after.getD 0 = 0 then none else some (a.after.getD 0)) = a.after := by
    cases ha : a.after with
    | none => rfl
    | some g =>
      rw [ha] at h
      exact if_neg fun hg => h (congrArg some hg)
  have hread := (Reads.int (a.after.getD 0)).map fun anchor =>
    (⟨a.node, if anchor = 0 then none else some anchor⟩ : Addition)
  rw [hanchor] at hread
  exact (Reads.int a.node).bind hread

theorem finishes_read {d : Diff} (h : d.Writable) : Finishes read d.encode d := by
  have hchanges := Reads.list h.changes fun c hc => reads_change (h.bytes c hc)
  have hremoved := Reads.list h.removed fun g _ => Reads.int g
  have hadded := Reads.list h.added fun a ha => reads_addition (h.anchors a ha)
  have hrange := Reads.range d.start d.total
  have hread : Finishes read _ d :=
    .bind hchanges (.bind hremoved (.bind hadded (.bind hrange (.finish d))))
  simpa only [encode, List.append_assoc, List.append_nil] using hread

/-- **A payload says which diff it is.** -/
theorem decode_encode {d : Diff} (h : d.Writable) : decode d.encode = .ok d :=
  (finishes_read h).run

/-! ## Accepted payloads -/

theorem exact_readChange : Exact readChange encodeChange := by
  intro c d change h
  obtain ⟨node, _, hnode, h⟩ := bind_eq_ok_iff.1 h
  obtain ⟨bytes, _, hbytes, h⟩ := bind_eq_ok_iff.1 h
  cases h
  refine ⟨reads_change (Exact.lt_of_block hbytes), ?_⟩
  rw [(Exact.int hnode).2, (Exact.block hbytes).2, encodeChange, List.append_assoc]

/-- The front is read from 0, so 0 is never read as a node to follow. -/
theorem after_ne_of_readAddition {c d : Cursor} {a : Addition} (h : readAddition c = .ok a d) :
    a.after ≠ some 0 := by
  obtain ⟨node, _, -, h⟩ := bind_eq_ok_iff.1 h
  obtain ⟨anchor, _, -, h⟩ := bind_eq_ok_iff.1 h
  cases h
  by_cases hzero : anchor = 0
  · simp [hzero]
  · simp [hzero]

theorem exact_readAddition : Exact readAddition encodeAddition := by
  intro c d a h
  refine ⟨reads_addition (after_ne_of_readAddition h), ?_⟩
  obtain ⟨node, _, hnode, h⟩ := bind_eq_ok_iff.1 h
  obtain ⟨anchor, _, hanchor, h⟩ := bind_eq_ok_iff.1 h
  cases h
  have hback : (if anchor = 0 then none else some anchor).getD 0 = anchor := by
    by_cases hzero : anchor = 0
    · simp [hzero]
    · simp [hzero]
  rw [(Exact.int hnode).2, (Exact.int hanchor).2, encodeAddition, hback, List.append_assoc]

theorem closed_read : Closed read :=
  .bind (Exact.list exact_readChange).framed fun _ =>
    .bind (Exact.list Exact.int).framed fun _ =>
      .bind (Exact.list exact_readAddition).framed fun _ =>
        .bind Exact.range.framed fun _ => .finish _

theorem writable_of_decode {p : Bytes} {d : Diff} (h : decode p = .ok d) :
    d.Writable ∧ d.encode = p := by
  unfold decode Reader.run at h
  split at h
  · next hread =>
    cases h
    obtain ⟨changes, _, hchanges, hread⟩ := bind_eq_ok_iff.1 hread
    obtain ⟨removed, _, hremoved, hread⟩ := bind_eq_ok_iff.1 hread
    obtain ⟨added, _, hadded, hread⟩ := bind_eq_ok_iff.1 hread
    obtain ⟨⟨start, total⟩, _, hrange, hread⟩ := bind_eq_ok_iff.1 hread
    obtain ⟨_, _, hfinish, hread⟩ := bind_eq_ok_iff.1 hread
    cases hread
    obtain ⟨hchangesLt, hchange, hchanges⟩ := Exact.list_eq_ok exact_readChange hchanges
    obtain ⟨hremovedLt, -, hremoved⟩ := Exact.list_eq_ok Exact.int hremoved
    obtain ⟨haddedLt, haddition, hadded⟩ := Exact.list_eq_ok exact_readAddition hadded
    refine ⟨⟨hchangesLt, fun c hc => ?_, hremovedLt, haddedLt, fun a ha => ?_⟩, ?_⟩
    · obtain ⟨_, _, -, hbytes⟩ := bind_eq_ok_iff.1 (hchange c hc 0 [])
      obtain ⟨bytes, _, hbytes, hc⟩ := bind_eq_ok_iff.1 hbytes
      cases hc
      exact Exact.lt_of_block hbytes
    · exact after_ne_of_readAddition (haddition a ha 0 [])
    · have hp : p = _ := hchanges
      rw [hp, hremoved, hadded, (Exact.range hrange).2, Wire.rest_of_finish hfinish]
      simp only [encode, List.append_assoc, List.append_nil]
  · cases h

/-- **Reading accepts exactly what writing produces.** A payload that is accepted is, byte for
byte, the one that its diff is written as. -/
theorem decode_eq_ok_iff {p : Bytes} {d : Diff} :
    decode p = .ok d ↔ d.Writable ∧ d.encode = p :=
  ⟨writable_of_decode, fun ⟨hwritable, hp⟩ => hp ▸ decode_encode hwritable⟩

end SszArchive.Diff
