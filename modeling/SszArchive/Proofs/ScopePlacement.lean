import SszArchive.Proofs.RoundTrip
import SszArchive.Proofs.Scope

/-!
What a scope makes of a payload, whoever wrote it. The runs that a payload names may be wrong in
any way: longer or shorter than what the inner schema produces, overlapping, or close to the last
offset. Main statement: a scope that reads a payload has placed every produced slice once, in its
order, run by run, and refuses whatever cannot be placed so; in particular it gives back what it
wrote.
-/

namespace SszArchive.Scope

/-! ## Placing -/

/-- The parts run after run, those of one run back to back from its start. -/
def spread : List Run → List Part → List Slice
  | [], _ => []
  | r :: rest, parts => layOut r.start (parts.take r.count) ++ spread rest (parts.drop r.count)

theorem map_part_spread {runs : List Run} {parts : List Part}
    (h : totalSize (runs.map Run.count) = parts.length) :
    (spread runs parts).map Slice.part = parts := by
  induction runs generalizing parts with
  | nil => exact (List.eq_nil_of_length_eq_zero h.symm).symm
  | cons r rest ih =>
    have hrest : totalSize (rest.map Run.count) = (parts.drop r.count).length := by
      rw [List.map_cons, totalSize] at h
      rw [List.length_drop]
      omega
    rw [spread, List.map_append, map_part_layOut, ih hrest, List.take_append_drop]

/-- The slices are picked and end inside the offset space. -/
def Fits (selector : Selector) (placed : List Slice) : Prop :=
  ∀ s ∈ placed, selector.selects s.node = true ∧ s.stop < offsetBound

theorem fits_cons_iff {selector : Selector} {s : Slice} {placed : List Slice} :
    Fits selector (s :: placed) ↔
      (selector.selects s.node = true ∧ s.stop < offsetBound) ∧ Fits selector placed :=
  List.forall_mem_cons

theorem fits_append_iff {selector : Selector} {placed more : List Slice} :
    Fits selector (placed ++ more) ↔ Fits selector placed ∧ Fits selector more :=
  List.forall_mem_append

theorem placeRun_eq_ok_iff {selector : Selector} {count : Nat} {offset : UInt64}
    {produced placed left : List Slice} :
    placeRun selector count offset produced = .ok (placed, left) ↔
      count ≤ produced.length ∧ left = produced.drop count ∧
        placed = layOut offset ((produced.take count).map Slice.part) ∧ Fits selector placed := by
  induction count generalizing offset produced placed with
  | zero =>
    simp only [placeRun, Except.ok.injEq, Prod.mk.injEq]
    constructor
    · rintro ⟨rfl, rfl⟩
      exact ⟨Nat.zero_le _, rfl, rfl, fun s hs => by cases hs⟩
    · rintro ⟨-, rfl, rfl, -⟩
      exact ⟨rfl, rfl⟩
  | succ count ih =>
    cases produced with
    | nil => simp [placeRun]
    | cons s produced =>
      rw [placeRun_succ_eq_ok_iff]
      constructor
      · rintro ⟨hs, more, hmore, rfl⟩
        obtain ⟨hcount, hleft, rfl, hfits⟩ := ih.1 hmore
        exact ⟨Nat.succ_le_succ hcount, hleft, rfl, fits_cons_iff.2 ⟨hs, hfits⟩⟩
      · rintro ⟨hcount, hleft, rfl, hfits⟩
        obtain ⟨hs, hfits⟩ := fits_cons_iff.1 hfits
        exact ⟨hs, _, ih.2 ⟨Nat.le_of_succ_le_succ hcount, hleft, rfl, hfits⟩, rfl⟩

/-- The runs take up exactly what was produced, and nothing that does not fit. -/
theorem placeRuns_eq_ok_iff {selector : Selector} {runs : List Run} {produced out : List Slice} :
    placeRuns selector runs produced = .ok out ↔
      totalSize (runs.map Run.count) = produced.length ∧
        out = spread runs (produced.map Slice.part) ∧ Fits selector out := by
  induction runs generalizing produced out with
  | nil =>
    cases produced with
    | nil =>
      rw [placeRuns, Except.ok.injEq]
      constructor
      · rintro rfl
        exact ⟨rfl, rfl, fun s hs => by cases hs⟩
      · exact fun h => h.2.1.symm
    | cons s produced => simp [placeRuns, totalSize]
  | cons r rest ih =>
    rw [placeRuns_cons_eq_ok_iff, List.map_cons, totalSize, spread, ← List.map_take,
      ← List.map_drop]
    constructor
    · rintro ⟨placed, left, more, hplaced, hmore, rfl⟩
      obtain ⟨hcount, rfl, rfl, hfits⟩ := placeRun_eq_ok_iff.1 hplaced
      obtain ⟨htotal, rfl, hrest⟩ := ih.1 hmore
      rw [List.length_drop] at htotal
      exact ⟨by omega, rfl, fits_append_iff.2 ⟨hfits, hrest⟩⟩
    · rintro ⟨htotal, rfl, hfits⟩
      obtain ⟨hfits, hrest⟩ := fits_append_iff.1 hfits
      have hleft : totalSize (rest.map Run.count) = (produced.drop r.count).length := by
        rw [List.length_drop]
        omega
      exact ⟨_, _, _, placeRun_eq_ok_iff.2 ⟨by omega, rfl, rfl, hfits⟩, ih.2 ⟨hleft, rfl, hrest⟩,
        rfl⟩

/-! ## Payloads -/

/-- `out` is all of `produced`, moved to where the runs say. -/
structure Places (selector : Selector) (runs : List Run) (produced : Version)
    (out : List Slice) : Prop where
  /-- Every produced slice once, in its order. -/
  parts : out.map Slice.part = produced.parts
  selected : ∀ s ∈ out, selector.selects s.node = true
  bounded : ∀ s ∈ out, s.stop < offsetBound
  /-- No run is cut short and nothing stays behind. -/
  count : totalSize (runs.map Run.count) = produced.size
  placed : out = spread runs produced.parts

theorem placeRuns_eq_ok_iff_places {selector : Selector} {runs : List Run} {produced : Version}
    {out : List Slice} :
    placeRuns selector runs produced.slices = .ok out ↔ Places selector runs produced out := by
  rw [placeRuns_eq_ok_iff]
  constructor
  · rintro ⟨htotal, hout, hfits⟩
    have hparts : totalSize (runs.map Run.count) = produced.parts.length := by
      rw [htotal, Version.parts, List.length_map]
    exact ⟨hout ▸ map_part_spread hparts, fun s hs => (hfits s hs).1, fun s hs => (hfits s hs).2,
      htotal, hout⟩
  · exact fun h => ⟨h.count, h.placed, fun s hs => ⟨h.selected s hs, h.bounded s hs⟩⟩

theorem applyPart_eq_ok_iff {s : Scope} {base : Version} {payload : Bytes} {out : List Slice} :
    s.applyPart base payload = .ok out ↔
      ∃ runs inner produced, readPart.run payload = .ok (runs, inner) ∧
        s.inner.apply (base.select s.selector) inner = .ok produced ∧
        Places s.selector runs produced out := by
  simp only [applyPart, ← placeRuns_eq_ok_iff_places]
  cases readPart.run payload with
  | error e => simp
  | ok read =>
    obtain ⟨runs, inner⟩ := read
    cases hinner : s.inner.apply (base.select s.selector) inner with
    | error e => simp [hinner]
    | ok produced =>
      cases hplace : placeRuns s.selector runs produced.slices with
      | error e => simp [hinner, hplace]
      | ok slices => simp [hinner, hplace]

/-- **A scope places exactly what it should.** Where the inner schema gives back the picked nodes of
the target, the payload of the target is read as the slices that the selector picks from it, at
their offsets. And from whatever payload, what is read is every slice that the inner schema
produces, once and in its order, all of them picked and inside the offset space; a payload whose
runs allow no such placing is refused. -/
theorem applyPart_places (s : Scope) :
    (∀ base target inner,
      s.inner.compute (base.select s.selector) (target.select s.selector) = .ok inner →
      s.inner.apply (base.select s.selector) inner = .ok (target.select s.selector) →
      ∃ payload, s.computePart base target = .ok payload ∧
        (payload.length < Wire.bufferBound →
          s.applyPart base payload = .ok (target.picked s.selector))) ∧
    ∀ base payload out, s.applyPart base payload = .ok out ↔
      ∃ runs inner produced, readPart.run payload = .ok (runs, inner) ∧
        s.inner.apply (base.select s.selector) inner = .ok produced ∧
        Places s.selector runs produced out := by
  refine ⟨fun base target inner hcompute happly => ?_, fun _ _ _ => applyPart_eq_ok_iff⟩
  refine ⟨_, computePart_of_ok hcompute, fun hshort => applyPart_of_ok ?_ happly⟩
  have hinner := length_lt_framePart s.selector target inner
  exact Nat.lt_trans (Nat.lt_trans hinner hshort) Wire.bufferBound_lt

/-- Two runs of nodes below node 3, with node 2 between them. -/
def twoRuns : Version :=
  ⟨[⟨6, 0, [0x78]⟩, ⟨2, 1, [0x79, 0x79]⟩, ⟨7, 3, [0x7a]⟩, ⟨14, 4, [0x77]⟩],
    firstFault_eq_none_iff.1 rfl⟩

theorem applyPart_places_twoRuns :
    ∃ payload runs inner produced,
      computePart ⟨.successors 3, .slices⟩ .empty twoRuns = .ok payload ∧
        payload.length < Wire.bufferBound ∧
        applyPart ⟨.successors 3, .slices⟩ .empty payload =
          .ok [⟨6, 0, [0x78]⟩, ⟨7, 3, [0x7a]⟩, ⟨14, 4, [0x77]⟩] ∧
        readPart.run payload = .ok (runs, inner) ∧
        Places (.successors 3) runs produced
          [⟨6, 0, [0x78]⟩, ⟨7, 3, [0x7a]⟩, ⟨14, 4, [0x77]⟩] := by
  obtain ⟨hwritten, hread⟩ := applyPart_places ⟨.successors 3, .slices⟩
  obtain ⟨inner, hinner, happly⟩ := Schema.slices_roundTrips
    (Version.empty.select (.successors 3)) (twoRuns.select (.successors 3))
  obtain ⟨payload, hcompute, happlied⟩ := hwritten .empty twoRuns inner hinner happly
  have hlength : (computePart ⟨.successors 3, .slices⟩ .empty twoRuns).map List.length =
      .ok 26 := by cbv
  rw [hcompute] at hlength
  have hshort : payload.length < Wire.bufferBound := by
    rw [Except.ok.inj hlength]
    decide
  have hplaced := happlied hshort
  obtain ⟨runs, inner, produced, hpayload, -, hplaces⟩ := (hread .empty payload _).1 hplaced
  exact ⟨payload, runs, inner, produced, hcompute, hshort, hplaced, hpayload, hplaces⟩

end SszArchive.Scope
