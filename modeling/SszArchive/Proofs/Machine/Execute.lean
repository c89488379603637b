import SszArchive.Proofs.Machine.Replay
import SszArchive.Proofs.Machine.WordDelta

/-!
Executing payloads of every format, composites of any depth included. Whatever the payload says,
no step leaves its range, the outcome is that of the format's schema, and a result is a version
with an exact position map.
-/

namespace SszArchive.Machine

open Wire (Reader Cursor bufferBound)

/-! ## Scopes -/

def readRun : Scan Run := do
  let (start, count) ← Scan.range
  return ⟨start, count.toNat⟩

def readPart : Scan (List Run × Bytes) := do
  let runs ← Scan.list readRun
  let inner ← Scan.block
  Scan.finish
  return (runs, inner)

/-- Applies a part by `run` on the projection. -/
def executePart (run : Indexed → Bytes → Exec DiffFault Indexed) (selector : Selector)
    (base : Indexed) (part : Bytes) : Exec DiffFault (List Slice) := do
  let (runs, inner) ← mapFault .malformed (readPart.run part)
  let projected ← base.select selector
  let produced ← run projected inner
  mapFault .baseMismatch (placeRuns selector runs produced.slices)

section

variable {limit : Nat} {scarce : Prop}

theorem follows_readRun : Follows limit scarce (· = ·) readRun Scope.readRun :=
  .bind .range fun _ _ h => .pure (by rw [h])

theorem follows_readPart :
    Follows limit scarce (fun a b => a = b ∧ b.2.length ≤ limit) readPart Scope.readPart :=
  .bind (.list follows_readRun) fun _ _ hruns => .bind .block fun _ _ hinner =>
    .bind .finish fun _ _ _ => .pure ⟨congrArg₂ Prod.mk hruns hinner.1, hinner.2⟩

end

variable {x : Indexed} {v : Version}

theorem refines_executePart {run : Indexed → Bytes → Exec DiffFault Indexed} {s : Scope}
    (hrun : ∀ {y : Indexed} {w : Version} {inner : Bytes}, y.Represents w →
      inner.length < bufferBound →
        Refines (Scarce w inner.length) Indexed.Represents (run y inner) (s.inner.apply w inner))
    (h : x.Represents v) {part : Bytes} (hshort : part.length < bufferBound) :
    Refines (Scarce v part.length) (· = ·) (executePart run s.selector x part)
      (s.applyPart v part) := by
  have happly : s.applyPart v part = (Scope.readPart.run part).mapError .malformed >>=
      fun read => s.inner.apply (v.select s.selector) read.2 >>= fun produced =>
        (Scope.placeRuns s.selector read.1 produced.slices).mapError .baseMismatch := by
    rw [Scope.applyPart]
    cases Scope.readPart.run part with
    | error e => rfl
    | ok read =>
      obtain ⟨runs, inner⟩ := read
      simp only [Except.mapError, bind, Except.bind]
      cases s.inner.apply (v.select s.selector) inner with
      | error e => rfl
      | ok produced =>
        simp only []
        cases Scope.placeRuns s.selector runs produced.slices <;> rfl
  obtain ⟨projected, hselect, hprojected⟩ := h.select (ε := DiffFault) s.selector
  rw [happly, executePart]
  refine ((follows_readPart.run (Nat.le_refl _) hshort).mapFault _).bind ?_
  rintro ⟨runs, inner⟩ _ ⟨rfl, hinner⟩
  dsimp only
  rw [hselect, ok_bind]
  have hproduced := (hrun hprojected (Nat.lt_of_le_of_lt hinner hshort)).mono fun hscarce =>
    hscarce.mono (v.totalLength_select_le s.selector) hinner
  refine hproduced.bind fun y w hy => ?_
  rw [hy.slices, placeRuns_eq]
  exact (Refines.checked _).mapFault _

/-! ## Composites -/

/-- The slices as a version of the given extent. -/
def merge (slices : List Slice) (start total : UInt64) : Exec DiffFault Indexed := do
  let merged ← mapFault .invariant (build (Composite.sortByOffset slices))
  let length ← merged.totalLength
  if merged.start = start ∧ length = total.toNat then return merged
  else report (.baseMismatch (.coverage length merged.start.toNat total.toNat start.toNat))

theorem refines_merge (slices : List Slice) (start total : UInt64) :
    Refines False Indexed.Represents (merge slices start total)
      (Composite.merge slices start total) := by
  have hmerge : Composite.merge slices start total =
      (Version.ofSlices (Composite.sortByOffset slices)).mapError .invariant >>= fun merged =>
        if merged.start = start ∧ merged.totalLength = total.toNat then .ok merged
        else .error (.baseMismatch
          (.coverage merged.totalLength merged.start.toNat total.toNat start.toNat)) := by
    rw [Composite.merge]
    cases Version.ofSlices (Composite.sortByOffset slices) <;> rfl
  rw [hmerge, merge]
  refine ((refines_build _).mapFault _).bind fun y w hy => ?_
  rw [hy.totalLength, ok_bind, hy.start]
  split
  · exact .ok hy
  · exact .fault _

def readExtent : Scan (UInt64 × UInt64) := do
  let extent ← Scan.range
  Scan.finish
  return extent

theorem follows_readExtent {limit : Nat} {scarce : Prop} :
    Follows limit scarce (· = ·) readExtent Composite.readExtent :=
  .bind .range fun _ _ h => .bind .finish fun _ _ _ => .pure h

/-! ## All formats -/

mutual

/-- Applies a payload of the format to a version in memory. -/
def execute : Format → Indexed → Bytes → Exec DiffFault Indexed
  | .slices, base, payload => replayPayload base payload
  | .snapshot, _, payload => replayPayload .empty payload
  | .wordDelta, base, payload => replayWords base payload
  | .composite parts, base, payload => do
      let (count, s) ← mapFault .malformed (Scan.count (.start payload))
      if count ≠ parts.length then report (.baseMismatch (.partCount count parts.length))
      else
        let (slices, s) ← executeParts parts base s
        let ((start, total), _) ← mapFault .malformed (readExtent s)
        merge slices start total

/-- Every part is applied before the next one is read. -/
def executeParts : List (Selector × Format) → Indexed → Scanner →
    Exec DiffFault (List Slice × Scanner)
  | [], _, s => return ([], s)
  | (selector, format) :: rest, base, s => do
      let (part, s) ← mapFault .malformed (Scan.block s)
      let slices ← executePart (execute format) selector base part
      let (more, s) ← executeParts rest base s
      return (slices ++ more, s)

end

/-- A reading step in the form that the rest of a composite has. -/
def outcome : EStateM.Result Wire.Fault Cursor α → Except DiffFault (α × Cursor)
  | .ok a c => .ok (a, c)
  | .error e _ => .error (.malformed e)

theorem Tracks.outcome {limit : Nat} {scarce : Prop} {R : α → β → Prop}
    {step : Exec Wire.Fault (α × Scanner)} {r : EStateM.Result Wire.Fault Cursor β}
    (h : Tracks limit scarce R step r) :
    Refines scarce (fun p q => R p.1 q.1 ∧ Scanner.At limit p.2 q.2) (mapFault .malformed step)
      (Machine.outcome r) := by
  cases h with
  | ok h hs => exact .ok ⟨h, hs⟩
  | fault e _ => exact .fault _
  | outOfMemory h => exact .outOfMemory h

theorem applyParts_cons (v : Version) (s : Scope) (rest : List Scope) (c : Cursor) :
    Composite.applyParts v (s :: rest) c = outcome (Reader.block c) >>= fun read =>
      s.applyPart v read.1 >>= fun slices =>
        Composite.applyParts v rest read.2 >>= fun more => .ok (slices ++ more.1, more.2) := by
  rw [Composite.applyParts]
  cases Reader.block c with
  | error e _ => rfl
  | ok part c =>
    simp only [outcome, bind, Except.bind]
    cases s.applyPart v part with
    | error e => rfl
    | ok slices =>
      simp only []
      cases Composite.applyParts v rest c <;> rfl

theorem apply_composite (v : Version) (scopes : List Scope) (payload : Bytes) :
    Composite.apply scopes v payload =
      outcome (Reader.count (Cursor.start payload)) >>= fun read =>
        if read.1 ≠ scopes.length then .error (.baseMismatch (.partCount read.1 scopes.length))
        else Composite.applyParts v scopes read.2 >>= fun parts =>
          outcome (Composite.readExtent parts.2) >>= fun extent =>
            Composite.merge parts.1 extent.1.1 extent.1.2 := by
  rw [Composite.apply]
  cases Reader.count (Cursor.start payload) with
  | error e _ => rfl
  | ok count c =>
    simp only [outcome, bind, Except.bind]
    split
    · rfl
    · cases Composite.applyParts v scopes c with
      | error e => rfl
      | ok parts =>
        obtain ⟨slices, c⟩ := parts
        simp only []
        cases Composite.readExtent c <;> rfl

theorem length_scopes (parts : List (Selector × Format)) :
    (SchemaTree.scopes (Format.trees parts)).length = parts.length := by
  induction parts with
  | nil => rfl
  | cons part parts ih => exact congrArg Nat.succ ih

mutual

/-- **Executing a payload** does what the schema of the format does. -/
theorem refines_execute (f : Format) {x : Indexed} {v : Version} (h : x.Represents v)
    {payload : Bytes} (hshort : payload.length < bufferBound) :
    Refines (Scarce v payload.length) Indexed.Represents (execute f x payload)
      (f.schema.apply v payload) := by
  cases f with
  | slices => exact (refines_replayPayload h hshort).mono False.elim
  | snapshot => exact (refines_replayPayload Indexed.represents_empty hshort).mono False.elim
  | wordDelta => exact refines_replayWords h hshort
  | composite parts =>
    show Refines _ _ _ (Composite.apply (SchemaTree.scopes (Format.trees parts)) v payload)
    rw [apply_composite, execute, length_scopes]
    have hstart := Scanner.at_start (Nat.le_refl payload.length) hshort
    refine (Follows.count hstart).outcome.bind ?_
    rintro ⟨count, s⟩ ⟨_, c⟩ ⟨rfl, hs⟩
    simp only []
    split
    · exact .fault _
    · refine (refines_executeParts parts h hs).bind ?_
      rintro ⟨slices, s⟩ ⟨_, c⟩ ⟨rfl, hs⟩
      refine (follows_readExtent hs).outcome.bind ?_
      rintro ⟨extent, s⟩ ⟨_, c⟩ ⟨rfl, hs⟩
      exact (refines_merge slices extent.1 extent.2).mono False.elim

theorem refines_executeParts (parts : List (Selector × Format)) {x : Indexed} {v : Version}
    (h : x.Represents v) {limit : Nat} {s : Scanner} {c : Cursor} (hs : Scanner.At limit s c) :
    Refines (Scarce v limit) (fun p q => p.1 = q.1 ∧ Scanner.At limit p.2 q.2)
      (executeParts parts x s)
      (Composite.applyParts v (SchemaTree.scopes (Format.trees parts)) c) := by
  cases parts with
  | nil => exact .ok ⟨rfl, hs⟩
  | cons part rest =>
    obtain ⟨selector, format⟩ := part
    rw [Format.trees, SchemaTree.scopes, applyParts_cons, executeParts]
    refine (Follows.block hs).outcome.bind ?_
    rintro ⟨part, s⟩ ⟨_, c⟩ ⟨⟨rfl, hpart⟩, hs⟩
    have happly := refines_executePart (s := ⟨selector, format.tree.schema⟩)
      (fun hy hinner => refines_execute format hy hinner) h
      (Nat.lt_of_le_of_lt hpart hs.limit_lt)
    refine (happly.mono fun hscarce => hscarce.mono (Nat.le_refl _) hpart).bind ?_
    rintro slices _ rfl
    refine (refines_executeParts rest h hs).bind ?_
    rintro ⟨more, s⟩ ⟨_, c⟩ ⟨rfl, hs⟩
    exact .ok ⟨rfl, hs⟩

end

/-- **Hostile payloads do no harm.** Whatever a payload says, no step of executing it leaves its
range. A result is valid, position map included, and has the slices that the schema of the format
computes; a fault is the schema's. Memory runs out at the sizes of `Scarce` only. -/
theorem execute_in_range (f : Format) {x : Indexed} (hx : x.Valid) {payload : Bytes}
    (hshort : payload.length < bufferBound) :
    execute f x payload ≠ .error .outOfRange ∧
      (∀ y, execute f x payload = .ok y → y.Valid ∧
        ∃ v, f.schema.apply ⟨x.slices, hx.wellFormed⟩ payload = .ok v ∧ y.slices = v.slices) ∧
      (∀ e, execute f x payload = .error (.fault e) →
        f.schema.apply ⟨x.slices, hx.wellFormed⟩ payload = .error e) ∧
      (execute f x payload = .error .outOfMemory →
        Scarce ⟨x.slices, hx.wellFormed⟩ payload.length) := by
  have h := refines_execute f hx.represents hshort
  refine ⟨h.ne_outOfRange, ?_, ?_, ?_⟩
  all_goals
    revert h
    generalize execute f x payload = result
    generalize f.schema.apply ⟨x.slices, hx.wellFormed⟩ payload = r
    intro h
  · rintro y rfl
    cases h with
    | ok h => exact ⟨h.valid, _, rfl, h.slices⟩
  · rintro e rfl
    cases h with
    | fault => rfl
  · rintro rfl
    cases h with
    | outOfMemory h => exact h

open SchemaTree (shiftedBase interleavedTarget)

def shiftedInMemory : Indexed :=
  ⟨shiftedBase.slices, indexOf (shiftedBase.slices.map Slice.node)⟩

theorem valid_shiftedInMemory : shiftedInMemory.Valid :=
  (Indexed.represents_indexOf shiftedBase).valid

/-- Words below one node and a nested snapshot below another. -/
theorem execute_in_range_mixed :
    shiftedInMemory.Valid ∧ Format.mixedPayload.length < bufferBound ∧
      ∃ y, execute Format.mixed shiftedInMemory Format.mixedPayload = .ok y ∧ y.Valid ∧
        y.slices = interleavedTarget.slices := by
  have hshort : Format.mixedPayload.length < bufferBound := by decide
  obtain ⟨hrange, hok, hfault, hmemory⟩ :=
    execute_in_range Format.mixed valid_shiftedInMemory hshort
  refine ⟨valid_shiftedInMemory, hshort, ?_⟩
  cases hresult : execute Format.mixed shiftedInMemory Format.mixedPayload with
  | ok y =>
    obtain ⟨hvalid, v, happly, hslices⟩ := hok y hresult
    cases Format.apply_mixed.symm.trans happly
    exact ⟨y, rfl, hvalid, hslices⟩
  | error stop =>
    cases stop with
    | fault e => cases Format.apply_mixed.symm.trans (hfault e hresult)
    | outOfRange => exact absurd hresult hrange
    | outOfMemory => exact absurd (hmemory hresult) (by unfold Scarce; decide)

end SszArchive.Machine
