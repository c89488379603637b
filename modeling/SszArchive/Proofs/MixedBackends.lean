import Mathlib.Data.Set.Basic
import SszArchive.Proofs.Simulation

/-!
Packed stores of different backends over one inner store. Each may write what another one reads,
since an entry carries the number of the backend that compressed it. Main statement: what was
saved is loaded through every backend that knows the number, whoever wrote the entry. Of the codecs
for LZMA and zlib nothing is asked but that they undo themselves on what is saved.
-/

namespace SszArchive

/-! ## Backends side by side -/

namespace Backend

/-- A number is known to its own backend, and to all if it is one of the common ones. -/
def Knows (b : Backend) (tag : UInt8) : Prop :=
  tag = b.id ∨ tag = rawId ∨ tag = lzmaId ∨ tag = zlibId

/-- Decompressing undoes compressing for this payload, if it is compressed at all. -/
def UndoesOn (b : Backend) (payload : Bytes) : Prop :=
  b.worthwhile payload = true → ∀ {compressed}, b.compress payload = .ok compressed →
    b.decompress compressed = .ok payload

/-- The payload is worth compressing, gets shorter, and comes back. -/
def Shortens (b : Backend) (payload : Bytes) : Prop :=
  b.worthwhile payload = true ∧ ∃ compressed, b.compress payload = .ok compressed ∧
    compressed.length < payload.length ∧ b.decompress compressed = .ok payload

theorem Shortens.undoesOn {b : Backend} {payload : Bytes} (h : b.Shortens payload) :
    b.UndoesOn payload := by
  obtain ⟨-, compressed, hcompress, -, hback⟩ := h
  intro _ again hagain
  rw [hcompress] at hagain
  cases hagain
  exact hback

theorem Shortens.pack {b : Backend} {payload : Bytes} (h : b.Shortens payload) :
    ∃ compressed, compressed.length < payload.length ∧
      b.pack payload = .ok (b.id :: compressed) := by
  obtain ⟨hworthwhile, compressed, hcompress, hshorter, -⟩ := h
  refine ⟨compressed, hshorter, ?_⟩
  simp only [Backend.pack, hworthwhile, hcompress, hshorter, if_true]

/-- An entry is the payload behind the number 0, or a shorter form behind the backend's own. -/
theorem pack_cases {b : Backend} {payload entry : Bytes} (h : b.pack payload = .ok entry) :
    entry = rawId :: payload ∨
      ∃ compressed, entry = b.id :: compressed ∧ b.worthwhile payload = true ∧
        b.compress payload = .ok compressed ∧ compressed.length < payload.length := by
  unfold pack at h
  split at h
  · next hworthwhile =>
    split at h
    · cases h
    · next compressed hcompress =>
      split at h
      · next hshorter =>
        cases h
        exact .inr ⟨compressed, rfl, hworthwhile, hcompress, hshorter⟩
      · cases h
        exact .inl rfl
  · cases h
    exact .inl rfl

/-- Packing adds one byte at most. -/
theorem length_pack_le {b : Backend} {payload entry : Bytes} (h : b.pack payload = .ok entry) :
    entry.length ≤ payload.length + 1 := by
  rcases pack_cases h with rfl | ⟨compressed, rfl, -, -, hshorter⟩
  · simp
  · simp only [List.length_cons]
    omega

end Backend

namespace Compression

open Backend

/-- Backends that can share a store: those that are not built in have numbers of their own. -/
structure Compatible (among : Set Compression) : Prop where
  ownNumber : ∀ b, custom b ∈ among → b.id ≠ rawId ∧ b.id ≠ lzmaId ∧ b.id ≠ zlibId
  distinct : ∀ b c, custom b ∈ among → custom c ∈ among → b.id = c.id → b = c

/-- Known to every store by its number. -/
def BuiltIn (c : Compression) : Prop := ∀ b, c ≠ custom b

variable [Codecs] {among : Set Compression} {writer reader : Compression}

theorem BuiltIn.ofId (h : writer.BuiltIn) :
    ∃ b, Backend.ofId writer.backend.id = .ok b ∧ b.decompress = writer.backend.decompress := by
  cases writer with
  | none => exact ⟨.raw, rfl, rfl⟩
  | lzma => exact ⟨.lzma, rfl, rfl⟩
  | zlib level => exact ⟨.zlib usualLevel, rfl, rfl⟩
  | custom b => exact absurd rfl (h b)

theorem Compatible.ofId_custom (h : Compatible among) {b : Backend} (hb : custom b ∈ among) :
    Backend.ofId b.id = .error (.unsupported b.id) := by
  obtain ⟨hraw, hlzma, hzlib⟩ := h.ownNumber b hb
  simp only [Backend.ofId, hraw, hlzma, hzlib, if_false]

/-- The number of a backend tells how to decompress. -/
theorem Compatible.decompress_eq (h : Compatible among) (hw : writer ∈ among)
    (hr : reader ∈ among) (hid : writer.backend.id = reader.backend.id) :
    reader.backend.decompress = writer.backend.decompress := by
  by_cases hwriter : writer.BuiltIn
  · obtain ⟨b, hfound, hb⟩ := hwriter.ofId
    rw [hid] at hfound
    by_cases hreader : reader.BuiltIn
    · obtain ⟨c, hagain, hc⟩ := hreader.ofId
      rw [hfound] at hagain
      cases hagain
      exact hc.symm.trans hb
    · obtain ⟨c, rfl⟩ : ∃ c, reader = custom c := by simpa [BuiltIn] using hreader
      rw [show (custom c).backend.id = c.id from rfl, h.ofId_custom hr] at hfound
      cases hfound
  · obtain ⟨b, rfl⟩ : ∃ b, writer = custom b := by simpa [BuiltIn] using hwriter
    by_cases hreader : reader.BuiltIn
    · obtain ⟨c, hfound, -⟩ := hreader.ofId
      rw [← hid, show (custom b).backend.id = b.id from rfl, h.ofId_custom hw] at hfound
      cases hfound
    · obtain ⟨c, rfl⟩ : ∃ c, reader = custom c := by simpa [BuiltIn] using hreader
      exact congrArg decompress (h.distinct b c hw hr hid).symm

/-- What a store takes for the backend of an entry that it knows decompresses as the writer. -/
theorem Compatible.exists_reader (h : Compatible among) (hw : writer ∈ among)
    (hr : reader ∈ among) (hknows : reader.backend.Knows writer.backend.id) :
    ∃ b, (if writer.backend.id = reader.backend.id then .ok reader.backend
        else Backend.ofId writer.backend.id) = .ok b ∧
      b.decompress = writer.backend.decompress := by
  by_cases hid : writer.backend.id = reader.backend.id
  · exact ⟨reader.backend, if_pos hid, h.decompress_eq hw hr hid⟩
  · rw [if_neg hid]
    have hcommon := hknows.resolve_left hid
    refine BuiltIn.ofId fun b hb => ?_
    subst hb
    obtain ⟨hraw, hlzma, hzlib⟩ := h.ownNumber b hw
    exact absurd hcommon (not_or.2 ⟨hraw, not_or.2 ⟨hlzma, hzlib⟩⟩)

/-- **Any backend reads what any other packed**, if it knows the number in front. -/
theorem Compatible.unpack_of_pack (h : Compatible among) (hw : writer ∈ among)
    (hr : reader ∈ among) {payload body : Bytes} {tag : UInt8}
    (hundoes : writer.backend.UndoesOn payload)
    (hpack : writer.backend.pack payload = .ok (tag :: body)) (hknows : reader.backend.Knows tag) :
    reader.backend.unpack (tag :: body) = .ok payload := by
  rcases pack_cases hpack with hraw | ⟨compressed, hentry, hworthwhile, hcompress, -⟩
  · rw [hraw]
    exact unpack_rawId reader.backend payload
  · cases hentry
    obtain ⟨b, hb, hdecompress⟩ := h.exists_reader hw hr hknows
    have hnotRaw : writer.backend.id ≠ rawId := by
      intro hzero
      cases writer with
      | none => cases hworthwhile
      | lzma => cases hzero
      | zlib level => cases hzero
      | custom b => exact (h.ownNumber b hw).1 hzero
    simp only [unpack, hnotRaw, if_false, hb, hdecompress, hundoes hworthwhile hcompress]

end Compression

/-! ## Runs -/

/-- A call through a packed store. -/
structure PackedCall where
  via : Compression
  call : StoreCall

section

variable [Codecs] {σ : Type} {s : Store σ} {Holds : σ → Memory → Prop} {calls run : List PackedCall}
  {state : σ} {entries : Memory}

/-- Calls one after the other, each packing in its own way: their replies, and the last state. -/
def Store.runPacked (s : Store σ) : List PackedCall → σ → List StoreReply × σ
  | [], state => ([], state)
  | c :: rest, state =>
    let (reply, next) := (s.packed c.via.backend).call state c.call
    let (replies, final) := s.runPacked rest next
    (reply :: replies, final)

/-- A save that succeeds leaves what the store inside makes of the packed entry. -/
theorem Store.runPacked_save {via : Compression} {id : DiffId} {payload entry : Bytes}
    (hpack : via.backend.pack payload = .ok entry)
    (hsaved : (s.save id entry state).answer = .ok ()) :
    s.runPacked (⟨via, .save id payload⟩ :: run) state =
      (.saved (.ok ()) :: (s.runPacked run (s.save id entry state).state).1,
        (s.runPacked run (s.save id entry state).state).2) := by
  simp only [Store.runPacked, Store.call, Store.packed, hpack, hsaved]

/-- Every entry was packed by one of the calls. -/
def PackedBy (calls : List PackedCall) (entries : Memory) : Prop :=
  ∀ id entry, entries.get? id = some entry →
    ∃ via payload, ⟨via, .save id payload⟩ ∈ calls ∧ via.backend.pack payload = .ok entry

theorem PackedBy.insert (h : PackedBy calls entries) {via : Compression} {id : DiffId}
    {payload entry : Bytes} (hcall : ⟨via, .save id payload⟩ ∈ calls)
    (hpack : via.backend.pack payload = .ok entry) : PackedBy calls (entries.insert id entry) := by
  intro other found hfound
  rw [Memory.get?_insert] at hfound
  split at hfound
  · next heq =>
    cases hfound
    exact heq ▸ ⟨via, payload, hcall, hpack⟩
  · exact h other found hfound

/-- What one call does: the entries stay packed by the calls, none goes away, and a save that
succeeds leaves an entry. -/
theorem Store.Simulates.call_packed (hs : s.Simulates Holds) {c : PackedCall} (hc : c ∈ calls)
    (h : Holds state entries) (hpacked : PackedBy calls entries) :
    ∃ next, Holds ((s.packed c.via.backend).call state c.call).2 next ∧ PackedBy calls next ∧
      (∀ id, (entries.get? id).isSome → (next.get? id).isSome) ∧
      ∀ id payload, c.call = .save id payload →
        ((s.packed c.via.backend).call state c.call).1 = .saved (.ok ()) → (next.get? id).isSome := by
  obtain ⟨via, call⟩ := c
  cases call with
  | has id => exact ⟨entries, h, hpacked, fun _ hid => hid, by simp⟩
  | load id => exact ⟨entries, h, hpacked, fun _ hid => hid, by simp⟩
  | save id payload =>
    simp only [Store.call, Store.packed]
    cases hpack : via.backend.pack payload with
    | error e => exact ⟨entries, h, hpacked, fun _ hid => hid, by simp⟩
    | ok entry =>
      rcases hs.save id entry h with ⟨hanswer, hnext⟩ | ⟨hanswer, hpresent, hnext⟩ | ⟨⟨e, hanswer⟩, hnext⟩
      · refine ⟨entries.insert id entry, hnext, hpacked.insert hc hpack,
          fun other hother => Memory.isSome_get?_insert hother, ?_⟩
        rintro other bytes heq -
        cases heq
        simp [Memory.get?_insert_self]
      · refine ⟨entries, hnext, hpacked, fun _ hid => hid, ?_⟩
        rintro other bytes heq -
        cases heq
        exact hpresent
      · refine ⟨entries, hnext, hpacked, fun _ hid => hid, ?_⟩
        intro other bytes heq hreply
        simp [hanswer] at hreply

theorem Store.Simulates.runPacked (hs : s.Simulates Holds) (hrun : run ⊆ calls)
    (h : Holds state entries) (hpacked : PackedBy calls entries) :
    ∃ final, Holds (s.runPacked run state).2 final ∧ PackedBy calls final ∧
      (∀ id, (entries.get? id).isSome → (final.get? id).isSome) ∧
      ∀ via id payload, (⟨via, .save id payload⟩, .saved (.ok ())) ∈
          run.zip (s.runPacked run state).1 → (final.get? id).isSome := by
  induction run generalizing state entries with
  | nil => exact ⟨entries, h, hpacked, fun _ hid => hid, by simp⟩
  | cons c rest ih =>
    obtain ⟨hc, hrest⟩ := List.cons_subset.1 hrun
    obtain ⟨next, hnext, hnextPacked, hkept, hsaved⟩ := hs.call_packed hc h hpacked
    obtain ⟨final, hfinal, hfinalPacked, hlater, hsavedLater⟩ := ih hrest hnext hnextPacked
    refine ⟨final, hfinal, hfinalPacked, fun id hid => hlater id (hkept id hid), ?_⟩
    intro via id payload hmem
    simp only [Store.runPacked, List.zip_cons_cons, List.mem_cons, Prod.mk.injEq] at hmem
    rcases hmem with ⟨rfl, hreply⟩ | hmem
    · exact hlater id (hsaved id payload rfl hreply.symm)
    · exact hsavedLater via id payload hmem

/-- **Packed stores read what any of them wrote.** The store inside starts out empty, and each
identifier is always saved with the same payload. After a save that succeeded, its identifier is
loaded as that payload through every backend that knows the number in front of the entry, which is
0 or that of a backend that was called. No entry is longer than its payload by more than a byte. -/
theorem load_of_saved (s : Store σ) {Holds : σ → Memory → Prop} (hs : s.Simulates Holds)
    {among : Set Compression} (hamong : Compression.Compatible among) (calls : List PackedCall)
    (hvia : ∀ c ∈ calls, c.via ∈ among)
    (hundoes : ∀ via id payload, ⟨via, .save id payload⟩ ∈ calls → via.backend.UndoesOn payload)
    (hsame : ∀ via other id payload again, ⟨via, .save id payload⟩ ∈ calls →
      ⟨other, .save id again⟩ ∈ calls → payload = again)
    {start : σ} (hstart : Holds start .empty) :
    (∀ via id payload, (⟨via, .save id payload⟩, .saved (.ok ())) ∈
        calls.zip (s.runPacked calls start).1 →
      ∃ tag body, s.load id (s.runPacked calls start).2 = .ok (tag :: body) ∧
        (tag = Backend.rawId ∨ ∃ c ∈ calls, tag = c.via.backend.id) ∧
        ∀ reader ∈ among, reader.backend.Knows tag →
          (s.packed reader.backend).load id (s.runPacked calls start).2 = .ok payload) ∧
      ∀ id entry, s.load id (s.runPacked calls start).2 = .ok entry →
        ∃ via payload, ⟨via, .save id payload⟩ ∈ calls ∧ entry.length ≤ payload.length + 1 := by
  obtain ⟨entries, hfinal, hpacked, -, hsaved⟩ :=
    hs.runPacked (List.Subset.refl calls) hstart (by simp [PackedBy, Memory.empty, Memory.get?])
  constructor
  · intro via id payload hmem
    obtain ⟨entry, hentry⟩ := Option.isSome_iff_exists.1 (hsaved via id payload hmem)
    obtain ⟨writer, again, hcall, hpack⟩ := hpacked id entry hentry
    obtain rfl := hsame _ _ _ _ _ hcall (List.of_mem_zip hmem).1
    have hload : s.load id (s.runPacked calls start).2 = .ok entry := by
      rw [hs.load id hfinal, Memory.load_eq_ok_iff, hentry]
    have hnumber : ∃ tag body, entry = tag :: body ∧
        (tag = Backend.rawId ∨ tag = writer.backend.id) := by
      rcases Backend.pack_cases hpack with rfl | ⟨compressed, rfl, -⟩
      · exact ⟨_, _, rfl, .inl rfl⟩
      · exact ⟨_, _, rfl, .inr rfl⟩
    obtain ⟨tag, body, rfl, htag⟩ := hnumber
    refine ⟨tag, body, hload, htag.imp_right fun h => ⟨_, hcall, h⟩, ?_⟩
    intro reader hreader hknows
    have hunpack := hamong.unpack_of_pack (hvia _ hcall) hreader (hundoes _ _ _ hcall) hpack hknows
    simp only [Store.packed, hload, hunpack]
  · intro id entry hload
    rw [hs.load id hfinal, Memory.load_eq_ok_iff] at hload
    obtain ⟨via, payload, hcall, hpack⟩ := hpacked id entry hload
    exact ⟨via, payload, hcall, Backend.length_pack_le hpack⟩

end

/-- Compresses nothing but zeros, of which it writes the number. -/
def zerosOnly : Backend where
  id := 42
  compress data :=
    if data = List.replicate data.length 0 ∧ data.length < 256 then .ok [UInt8.ofNat data.length]
    else .error (.other "not zeros")
  decompress
    | [n] => .ok (List.replicate n.toNat 0)
    | _ => .error (.corrupt "Zeros" "no number")

/-- All that is built in, and one backend more. -/
def withZeros : Set Compression := fun c => c.BuiltIn ∨ c = .custom zerosOnly

theorem compatible_withZeros : Compression.Compatible withZeros := by
  have honly : ∀ b, .custom b ∈ withZeros → b = zerosOnly := by
    rintro b (h | h)
    · exact absurd rfl (h b)
    · exact Compression.custom.inj h
  constructor
  · intro b hb
    rw [honly b hb]
    decide
  · intro b c hb hc _
    rw [honly b hb, honly c hc]

/-- Three payloads that get shorter, each in another way. One of them is saved as it is before. -/
def mixedCalls : List PackedCall :=
  [⟨.custom zerosOnly, .save (sampleId 1) (List.replicate 40 0)⟩,
    ⟨.none, .save (sampleId 2) (List.replicate 40 7)⟩,
    ⟨.zlib 9, .save (sampleId 2) (List.replicate 40 7)⟩,
    ⟨.lzma, .save (sampleId 3) (List.replicate 54 0)⟩, ⟨.zlib 0, .load (sampleId 1)⟩,
    ⟨.none, .has (sampleId 4)⟩]

theorem shortens_zerosOnly : zerosOnly.Shortens (List.replicate 40 0) :=
  ⟨rfl, _, rfl, by decide +kernel⟩

theorem shortens_zlib : (Backend.zlib 9).Shortens (List.replicate 40 7) :=
  ⟨rfl, _, rfl, by decide +kernel⟩

set_option maxRecDepth 20000 in
theorem shortens_lzma : Backend.lzma.Shortens (List.replicate 54 0) :=
  ⟨rfl, _, rfl, by decide +kernel⟩

theorem sampleId_ne : sampleId 1 ≠ sampleId 2 ∧ sampleId 1 ≠ sampleId 3 ∧
    sampleId 2 ≠ sampleId 3 := by decide

theorem via_mixedCalls : ∀ c ∈ mixedCalls, c.via ∈ withZeros := by
  have hbuiltIn : ∀ {c : Compression}, c.BuiltIn → c ∈ withZeros := fun h => .inl h
  simp only [mixedCalls, List.forall_mem_cons]
  exact ⟨.inr rfl, hbuiltIn nofun, hbuiltIn nofun, hbuiltIn nofun, hbuiltIn nofun,
    hbuiltIn nofun, nofun⟩

theorem undoes_mixedCalls : ∀ via id payload, ⟨via, .save id payload⟩ ∈ mixedCalls →
    via.backend.UndoesOn payload := by
  intro via id payload hcall
  simp only [mixedCalls, List.mem_cons, PackedCall.mk.injEq, StoreCall.save.injEq, reduceCtorEq,
    and_false, List.not_mem_nil, or_false] at hcall
  rcases hcall with ⟨rfl, -, rfl⟩ | ⟨rfl, -, rfl⟩ | ⟨rfl, -, rfl⟩ | ⟨rfl, -, rfl⟩
  · exact shortens_zerosOnly.undoesOn
  · exact nofun
  · exact shortens_zlib.undoesOn
  · exact shortens_lzma.undoesOn

theorem same_mixedCalls : ∀ via other id payload again, ⟨via, .save id payload⟩ ∈ mixedCalls →
    ⟨other, .save id again⟩ ∈ mixedCalls → payload = again := by
  intro via other id payload again h hagain
  simp only [mixedCalls, List.mem_cons, PackedCall.mk.injEq, StoreCall.save.injEq, reduceCtorEq,
    and_false, List.not_mem_nil, or_false] at h hagain
  generalize List.replicate 40 (0 : UInt8) = forty at h hagain
  generalize List.replicate 40 (7 : UInt8) = sevens at h hagain
  generalize List.replicate 54 (0 : UInt8) = zeros at h hagain
  have hdifferent := sampleId_ne
  grind

/-- The first four calls succeed. At the end every identifier has the entry saved last. -/
theorem runPacked_mixedCalls {short₁ short₂ short₃ : Bytes}
    (hzeros : (Compression.custom zerosOnly).backend.pack (List.replicate 40 0) =
      .ok (zerosOnly.id :: short₁))
    (hzlib : (Compression.zlib 9).backend.pack (List.replicate 40 7) =
      .ok (Backend.zlibId :: short₂))
    (hlzma : Compression.lzma.backend.pack (List.replicate 54 0) =
      .ok (Backend.lzmaId :: short₃)) :
    ∃ more, Memory.store.runPacked mixedCalls .empty =
      (List.replicate 4 (.saved (.ok ())) ++ more,
        (((Memory.empty.insert (sampleId 1) (zerosOnly.id :: short₁)).insert (sampleId 2)
          (Backend.rawId :: List.replicate 40 7)).insert (sampleId 2)
            (Backend.zlibId :: short₂)).insert (sampleId 3) (Backend.lzmaId :: short₃)) := by
  have hraw : Compression.none.backend.pack (List.replicate 40 7) =
      .ok (Backend.rawId :: List.replicate 40 7) := rfl
  rw [mixedCalls, Store.runPacked_save hzeros rfl, Store.runPacked_save hraw rfl,
    Store.runPacked_save hzlib rfl, Store.runPacked_save hlzma rfl]
  exact ⟨_, rfl⟩

/-- At the end the identifier has an entry with this number that is shorter than the payload, and
every backend that knows the number loads the payload. -/
def LoadsShort (id : DiffId) (tag : UInt8) (payload : Bytes) : Prop :=
  ∃ body, body.length < payload.length ∧
    Memory.store.load id (Memory.store.runPacked mixedCalls .empty).2 = .ok (tag :: body) ∧
    ∀ reader ∈ withZeros, reader.backend.Knows tag →
      (Memory.store.packed reader.backend).load id
        (Memory.store.runPacked mixedCalls .empty).2 = .ok payload

/-- A backend of its own, zlib and LZMA make their payloads shorter, and all of them are loaded. -/
theorem load_of_saved_mixedCalls :
    (∀ c ∈ mixedCalls, c.via ∈ withZeros) ∧
      LoadsShort (sampleId 1) zerosOnly.id (List.replicate 40 0) ∧
      LoadsShort (sampleId 2) Backend.zlibId (List.replicate 40 7) ∧
      LoadsShort (sampleId 3) Backend.lzmaId (List.replicate 54 0) := by
  obtain ⟨hload, -⟩ := load_of_saved Memory.store Memory.simulates compatible_withZeros mixedCalls
    via_mixedCalls undoes_mixedCalls same_mixedCalls rfl
  have hloads : ∀ {via id payload tag short}, (⟨via, .save id payload⟩, .saved (.ok ())) ∈
        mixedCalls.zip (Memory.store.runPacked mixedCalls .empty).1 →
      (Memory.store.runPacked mixedCalls .empty).2.get? id = some (tag :: short) →
        short.length < payload.length → LoadsShort id tag payload := by
    intro via id payload tag short hmem hget hshort
    obtain ⟨found, body, hentry, -, hread⟩ := hload via id payload hmem
    have hfound := Memory.load_eq_ok_iff.2 hget
    rw [hentry] at hfound
    cases hfound
    exact ⟨short, hshort, hentry, hread⟩
  obtain ⟨short₁, hshort₁, hpack₁⟩ := shortens_zerosOnly.pack
  obtain ⟨short₂, hshort₂, hpack₂⟩ := shortens_zlib.pack
  obtain ⟨short₃, hshort₃, hpack₃⟩ := shortens_lzma.pack
  obtain ⟨more, hrun⟩ := runPacked_mixedCalls hpack₁ hpack₂ hpack₃
  rw [hrun] at hloads
  have hdifferent := sampleId_ne
  refine ⟨via_mixedCalls, ?_, ?_, ?_⟩
  · exact hloads (.head _) (by simp [Memory.get?_insert, hdifferent]) hshort₁
  · exact hloads (.tail _ (.tail _ (.head _))) (by simp [Memory.get?_insert, hdifferent]) hshort₂
  · exact hloads (.tail _ (.tail _ (.tail _ (.head _)))) (by simp [Memory.get?_insert]) hshort₃

end SszArchive
