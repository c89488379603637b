import SszArchive.Proofs.CommitOrder
import SszArchive.Proofs.DirectoryRuns
import SszArchive.Proofs.MixedBackends

/-!
Archives over a store that stands for a memory. A commit and a reconstruction answer as they do over
that memory, and a commit leaves the store standing for the memory that it would leave. Directories
whose entries are packed by a built-in backend are such stores, as long as no file operation fails.
-/

namespace SszArchive

section

variable {σ : Type} {s : Store σ} {Holds : σ → Memory → Prop} {allowed : Bytes → Prop}
  {state : σ} {m : Memory}

/-- The store answers as the memory does, and saves payloads that it is allowed to save under new
identifiers. -/
structure Store.Refines (s : Store σ) (Holds : σ → Memory → Prop) (allowed : Bytes → Prop) :
    Prop where
  has : ∀ {state m} id, Holds state m → s.has id state = .ok (m.get? id).isSome
  load : ∀ {state m} id, Holds state m → s.load id state = Memory.store.load id m
  save : ∀ {state m} id payload, Holds state m → allowed payload → m.get? id = none →
    (s.save id payload state).answer = .ok () ∧
      Holds (s.save id payload state).state (m.insert id payload)

namespace Store.Refines

theorem commit (hs : s.Refines Holds allowed) (r : CommitRequest) (h : Holds state m)
    (hallowed : ∀ id payload, r.answer = .ok (id, payload) → allowed payload) :
    (r.commit s state).answer = r.answer ∧
      Holds (r.commit s state).state (r.commit Memory.store m).state := by
  have hprepare : (r.archive s).prepare r.base r.target =
      (r.archive Memory.store).prepare r.base r.target := rfl
  have hanswer : r.answer = (r.archive Memory.store).prepare r.base r.target :=
    Archive.commit_answer_memory (a := r.archive Memory.store) rfl _ _ _
  simp only [CommitRequest.commit, Archive.commit, hprepare, hanswer]
  rw [hanswer] at hallowed
  rcases hprepared : (r.archive Memory.store).prepare r.base r.target with e | ⟨id, payload⟩
  · exact ⟨rfl, h⟩
  · simp only [CommitRequest.archive, hs.has id h, Memory.store]
    rcases hget : m.get? id with _ | bytes
    · obtain ⟨hsaved, hnext⟩ := hs.save id payload h (hallowed id payload hprepared) hget
      simp only [Option.isSome_none, hsaved]
      exact ⟨trivial, hnext⟩
    · exact ⟨rfl, h⟩

theorem replayFrom (hs : s.Refines Holds allowed) (h : Holds state m) (schema : Schema)
    (verify : Bool) (number : Nat) (current : Version) (chain : List DiffId) :
    (Archive.replayFrom ⟨s, schema, verify⟩ state number current chain).1 =
      (Archive.replayFrom ⟨Memory.store, schema, verify⟩ m number current chain).1 := by
  induction chain generalizing number current with
  | nil => rfl
  | cons id rest ih =>
    have hstep : Archive.step ⟨s, schema, verify⟩ state number current id =
        Archive.step ⟨Memory.store, schema, verify⟩ m number current id := by
      simp only [Archive.step, hs.load id h]
    rw [Archive.replayFrom, Archive.replayFrom, hstep]
    cases Archive.step ⟨Memory.store, schema, verify⟩ m number current id with
    | error e => rfl
    | ok next => exact ih (number + 1) next

theorem reconstruct (hs : s.Refines Holds allowed) (h : Holds state m) (schema : Schema)
    (verify : Bool) (anchor : Version) (chain : List DiffId) :
    (Archive.reconstruct ⟨s, schema, verify⟩ anchor chain state).answer =
      (Archive.reconstruct ⟨Memory.store, schema, verify⟩ anchor chain m).answer :=
  hs.replayFrom h schema verify 0 anchor chain

end Store.Refines

end

/-! ## Built-in backends -/

theorem Backend.exists_pack {b : Backend} {payload compressed : Bytes}
    (h : b.compress payload = .ok compressed) : ∃ entry, b.pack payload = .ok entry := by
  unfold pack
  rw [h]
  split
  · simp only
    split
    · exact ⟨_, rfl⟩
    · exact ⟨_, rfl⟩
  · exact ⟨_, rfl⟩

namespace Compression.BuiltIn

theorem compatible : Compression.Compatible {c | c.BuiltIn} where
  ownNumber b hb := absurd rfl (hb b)
  distinct b _ hb := absurd rfl (hb b)

variable [Codecs] {writer reader : Compression} {payload entry : Bytes}

theorem exists_pack (hw : writer.BuiltIn) (payload : Bytes) :
    ∃ entry, writer.backend.pack payload = .ok entry := by
  cases writer with
  | none => exact Backend.exists_pack rfl
  | lzma => exact Backend.exists_pack rfl
  | zlib level => exact Backend.exists_pack rfl
  | custom b => exact absurd rfl (hw b)

/-- What a built-in backend packs every built-in backend unpacks. -/
theorem unpack_of_pack (hw : writer.BuiltIn) (hr : reader.BuiltIn)
    (hundoes : writer.backend.UndoesOn payload)
    (hpack : writer.backend.pack payload = .ok entry) :
    reader.backend.unpack entry = .ok payload := by
  have hcommon : writer.backend.id = Backend.rawId ∨ writer.backend.id = Backend.lzmaId ∨
      writer.backend.id = Backend.zlibId := by
    cases writer with
    | none => exact .inl rfl
    | lzma => exact .inr (.inl rfl)
    | zlib level => exact .inr (.inr rfl)
    | custom b => exact absurd rfl (hw b)
  rcases Backend.pack_cases hpack with rfl | ⟨compressed, rfl, -⟩
  · exact compatible.unpack_of_pack hw hr hundoes hpack (.inr (.inl rfl))
  · exact compatible.unpack_of_pack hw hr hundoes hpack (.inr hcommon)

end Compression.BuiltIn

/-! ## Packed directories -/

variable [Codecs]

namespace Memory

variable {entries m : Memory} {id : DiffId} {entry payload : Bytes}

/-- Each entry unpacks to the payload in the other memory, whichever built-in backend reads it. -/
structure UnpacksTo (entries m : Memory) : Prop where
  same : ∀ id, (entries.get? id).isSome = (m.get? id).isSome
  unpacks : ∀ {id entry payload}, entries.get? id = some entry → m.get? id = some payload →
    ∀ c : Compression, c.BuiltIn → c.backend.unpack entry = .ok payload

namespace UnpacksTo

theorem empty : UnpacksTo .empty .empty where
  same _ := rfl
  unpacks h := nomatch h

theorem get?_eq_none (h : entries.UnpacksTo m) (hget : m.get? id = none) :
    entries.get? id = none := by
  have hsame := h.same id
  rw [hget, Option.isSome_none, Option.isSome_eq_false_iff, Option.isNone_iff_eq_none] at hsame
  exact hsame

theorem exists_entry (h : entries.UnpacksTo m) (hget : m.get? id = some payload) :
    ∃ entry, entries.get? id = some entry ∧
      ∀ c : Compression, c.BuiltIn → c.backend.unpack entry = .ok payload := by
  have hsame := h.same id
  rw [hget, Option.isSome_some] at hsame
  obtain ⟨entry, hentry⟩ := Option.isSome_iff_exists.1 hsame
  exact ⟨entry, hentry, h.unpacks hentry hget⟩

theorem insert (h : entries.UnpacksTo m) (id : DiffId)
    (hentry : ∀ c : Compression, c.BuiltIn → c.backend.unpack entry = .ok payload) :
    (entries.insert id entry).UnpacksTo (m.insert id payload) where
  same other := by
    simp only [get?_insert]
    split
    · rfl
    · exact h.same other
  unpacks hfound hpayload := by
    rw [get?_insert] at hfound hpayload
    split at hfound
    · next heq =>
      rw [if_pos heq] at hpayload
      cases hfound
      cases hpayload
      exact hentry
    · next hne =>
      rw [if_neg hne] at hpayload
      exact h.unpacks hfound hpayload

end UnpacksTo

end Memory

namespace Directory

/-- The directory holds the entries of `m` in packed form. -/
def HoldsPacked (l : Location) (root : Place) (t : FileTree) (m : Memory) : Prop :=
  ∃ entries, Holds l root t entries ∧ entries.UnpacksTo m

/-- A directory on which nothing fails refines a memory through every built-in backend, for the
payloads on which decompressing undoes compressing. -/
theorem refines_packed (d : Directory) (root : Place) (start : FileTree) {c : Compression}
    (hc : c.BuiltIn) :
    (d.store.packed c.backend).Refines
      (fun t m => HoldsPacked d.root root t m ∧ d.Calm t ∧ start.Within t)
      c.backend.UndoesOn where
  has id h := by
    obtain ⟨⟨entries, hentries, hunpacks⟩, hcalm, -⟩ := h
    simp only [Store.packed, hentries.has_eq (hcalm.fault?_location id), hunpacks.same id]
  load id h := by
    rename_i t m
    obtain ⟨⟨entries, hentries, hunpacks⟩, hcalm, -⟩ := h
    have hl := hcalm.fault?_location id
    rcases hget : m.get? id with _ | payload
    · simp only [Store.packed, hentries.load_eq hl, Memory.store, hget, hunpacks.get?_eq_none hget]
    · obtain ⟨entry, hentry, hread⟩ := hunpacks.exists_entry hget
      simp only [Store.packed, hentries.load_eq hl, Memory.store, hget, hentry, hread c hc]
  save id payload h hundoes hget := by
    obtain ⟨⟨entries, hentries, hunpacks⟩, hcalm, hwithin⟩ := h
    obtain ⟨entry, hpack⟩ := hc.exists_pack payload
    obtain ⟨hanswer, hnext, hadds⟩ := hentries.save_of_no_fault (hunpacks.get?_eq_none hget) entry
      (hcalm.operate (.call (.save id entry)))
    simp only [Store.packed, hpack]
    exact ⟨hanswer, ⟨_, hnext, hunpacks.insert id fun reader hr =>
      hc.unpack_of_pack hr hundoes hpack⟩, hcalm.call (.save id entry), hwithin.trans hadds⟩

end Directory

end SszArchive
