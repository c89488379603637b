import SszArchive.Proofs.Version
import SszArchive.Proofs.Wire
import SszArchive.Schema.Scope

/-!
A scope puts the picked slices of the target back where they were: the runs it writes down are
read back, and placing them gives every picked slice its old offset.
-/

namespace SszArchive

namespace Scope

open Wire (Reader Reads Finishes)

/-! ## Runs -/

/-- A picked slice either joins the run of the slice behind it or starts a run of its own. -/
theorem runs_cons {selector : Selector} {s : Slice} (rest : List Slice)
    (hs : selector.selects s.node = true) :
    (∃ t after r more, rest = t :: after ∧ runs selector rest = r :: more ∧
      r.start = t.offset ∧ runs selector (s :: rest) = ⟨s.offset, r.count + 1⟩ :: more) ∨
    runs selector (s :: rest) = ⟨s.offset, 1⟩ :: runs selector rest := by
  induction rest generalizing s with
  | nil => exact .inr (by simp [runs, hs])
  | cons t after ih =>
    by_cases ht : selector.selects t.node = true
    · have hruns : ∃ r more, runs selector (t :: after) = r :: more ∧ r.start = t.offset := by
        rcases ih ht with ⟨_, _, _, _, -, -, -, he⟩ | he
        · exact ⟨_, _, he, rfl⟩
        · exact ⟨_, _, he, rfl⟩
      obtain ⟨r, more, he, hstart⟩ := hruns
      refine .inl ⟨t, after, r, more, rfl, he, hstart, ?_⟩
      rw [runs, if_pos hs, he]
      simp [ht]
    · refine .inr ?_
      rw [runs, if_pos hs]
      simp [ht]

theorem runs_cons_of_not {selector : Selector} {s : Slice} (rest : List Slice)
    (hs : ¬ selector.selects s.node = true) : runs selector (s :: rest) = runs selector rest := by
  rw [runs, if_neg hs]

/-- There are no more runs than slices, and none is longer than all of them. -/
theorem runs_bounded (selector : Selector) (slices : List Slice) :
    (runs selector slices).length ≤ slices.length ∧
      ∀ r ∈ runs selector slices, r.count ≤ slices.length := by
  induction slices with
  | nil => simp [runs]
  | cons s rest ih =>
    obtain ⟨hlength, hcount⟩ := ih
    by_cases hs : selector.selects s.node = true
    · rcases runs_cons rest hs with ⟨t, after, r, more, -, hrest, -, he⟩ | he
      · rw [hrest] at hlength hcount
        have hr := hcount r (List.mem_cons_self ..)
        rw [he]
        simp only [List.length_cons, List.mem_cons, forall_eq_or_imp] at hlength ⊢
        refine ⟨by omega, by omega, fun q hq => ?_⟩
        have hq := hcount q (List.mem_cons_of_mem _ hq)
        omega
      · rw [he]
        simp only [List.length_cons, List.mem_cons, forall_eq_or_imp]
        refine ⟨by omega, by omega, fun q hq => ?_⟩
        have hq := hcount q hq
        omega
    · rw [runs_cons_of_not rest hs, List.length_cons]
      exact ⟨by omega, fun r hr => Nat.le_succ_of_le (hcount r hr)⟩

/-! ## Placing -/

theorem placeRuns_cons_eq_ok_iff {selector : Selector} {r : Run} {rest : List Run}
    {produced slices : List Slice} :
    placeRuns selector (r :: rest) produced = .ok slices ↔
      ∃ placed left more, placeRun selector r.count r.start produced = .ok (placed, left) ∧
        placeRuns selector rest left = .ok more ∧ placed ++ more = slices := by
  rw [placeRuns]
  cases placeRun selector r.count r.start produced with
  | error e => simp
  | ok first =>
    obtain ⟨placed, left⟩ := first
    simp only [Except.ok.injEq, Prod.mk.injEq]
    constructor
    · intro h
      cases hrest : placeRuns selector rest left with
      | error e =>
        rw [hrest] at h
        cases h
      | ok more =>
        rw [hrest] at h
        exact ⟨placed, left, more, ⟨rfl, rfl⟩, hrest, Except.ok.inj h⟩
    · rintro ⟨_, _, more, ⟨rfl, rfl⟩, hmore, rfl⟩
      rw [hmore]

theorem placeRun_succ_eq_ok_iff {selector : Selector} {count : Nat} {offset : UInt64} {s : Slice}
    {produced placed left : List Slice} :
    placeRun selector (count + 1) offset (s :: produced) = .ok (placed, left) ↔
      (selector.selects s.node = true ∧ offset.toNat + s.length < offsetBound) ∧
        ∃ more, placeRun selector count (addOffset offset s.length) produced = .ok (more, left) ∧
          ⟨s.node, offset, s.bytes⟩ :: more = placed := by
  rw [placeRun]
  by_cases hs : selector.selects s.node = true
  · by_cases hfits : offsetBound ≤ offset.toNat + s.length
    · simp [hs, hfits, Nat.not_lt.2 hfits]
    · rw [if_neg (by simp [hs]), if_neg hfits]
      cases hrest : placeRun selector count (addOffset offset s.length) produced with
      | error e => simp
      | ok rest =>
        obtain ⟨more, back⟩ := rest
        simp only [Except.ok.injEq, Prod.mk.injEq]
        constructor
        · rintro ⟨rfl, rfl⟩
          exact ⟨⟨hs, Nat.lt_of_not_le hfits⟩, more, ⟨rfl, rfl⟩, rfl⟩
        · rintro ⟨-, _, ⟨rfl, rfl⟩, rfl⟩
          exact ⟨rfl, rfl⟩
  · simp [hs]

/-- A produced slice with the part of `s`, placed at the offset of `s`, is `s`. -/
theorem placeRun_succ {selector : Selector} {s p : Slice} {count : Nat}
    {produced placed left : List Slice} (hs : selector.selects s.node = true)
    (hbounded : s.stop < offsetBound) (hpart : p.part = s.part)
    (h : placeRun selector count (addOffset s.offset s.length) produced = .ok (placed, left)) :
    placeRun selector (count + 1) s.offset (p :: produced) = .ok (s :: placed, left) := by
  have hnode : p.node = s.node := congrArg Part.node hpart
  have hbytes : p.bytes = s.bytes := congrArg Part.bytes hpart
  have hlength : p.length = s.length := congrArg List.length hbytes
  rw [placeRun_succ_eq_ok_iff, hnode, hbytes, hlength]
  exact ⟨⟨hs, hbounded⟩, placed, h, rfl⟩

theorem placeRuns_runs {selector : Selector} {slices : List Slice} (hcontiguous : Contiguous slices)
    (hbounded : ∀ s ∈ slices, s.stop < offsetBound) {produced : List Slice}
    (hproduced : produced.map Slice.part =
      (slices.filter fun s => selector.selects s.node).map Slice.part) :
    placeRuns selector (runs selector slices) produced =
      .ok (slices.filter fun s => selector.selects s.node) := by
  induction slices generalizing produced with
  | nil =>
    rw [List.map_eq_nil_iff.1 hproduced]
    rfl
  | cons s rest ih =>
    have hrest := @ih hcontiguous.tail fun t ht => hbounded t (List.mem_cons_of_mem _ ht)
    by_cases hs : selector.selects s.node = true
    · have hstop := hbounded s (List.mem_cons_self ..)
      have hfilter : ((s :: rest).filter fun t => selector.selects t.node) =
          s :: rest.filter fun t => selector.selects t.node := by simp [hs]
      rw [hfilter, List.map_cons] at hproduced
      obtain ⟨p, produced, rfl, hpart, htail⟩ := List.map_eq_cons_iff.1 hproduced
      rw [hfilter]
      rcases runs_cons rest hs with ⟨t, after, r, more, rfl, hruns, hstart, he⟩ | he
      · -- The run of `s` goes on where the run behind it starts.
        have hnext : addOffset s.offset s.length = r.start := by
          apply UInt64.toNat_inj.1
          rw [addOffset_toNat hstop, hstart, hcontiguous.1, Slice.stop]
        have hplace := hrest htail
        rw [hruns, placeRuns_cons_eq_ok_iff] at hplace
        obtain ⟨placed, left, others, hfirst, hothers, hall⟩ := hplace
        rw [he, placeRuns_cons_eq_ok_iff]
        rw [← hnext] at hfirst
        exact ⟨s :: placed, left, others, placeRun_succ hs hstop hpart hfirst, hothers,
          by rw [List.cons_append, hall]⟩
      · rw [he, placeRuns_cons_eq_ok_iff]
        exact ⟨[s], produced, _, placeRun_succ hs hstop hpart rfl, hrest htail, rfl⟩
    · have hfilter : ((s :: rest).filter fun t => selector.selects t.node) =
          rest.filter fun t => selector.selects t.node := by simp [hs]
      rw [hfilter] at hproduced ⊢
      rw [runs_cons_of_not rest hs]
      exact hrest hproduced

/-! ## Payloads -/

/-- The part of a payload: where the picked slices of the target lie, and what the inner schema
wrote. -/
def framePart (selector : Selector) (target : Version) (inner : Bytes) : Bytes :=
  Wire.count (runs selector target.slices).length ++
    (runs selector target.slices).flatMap encodeRun ++ Wire.block inner

theorem length_lt_framePart (selector : Selector) (target : Version) (inner : Bytes) :
    inner.length < (framePart selector target inner).length := by
  have hblock := Wire.length_lt_block inner
  rw [framePart, List.length_append]
  omega

theorem reads_run {r : Run} (h : r.count < UInt64.size) : Reads readRun (encodeRun r) r := by
  have hread := (Reads.range r.start (UInt64.ofNat r.count)).map fun range =>
    (⟨range.1, range.2.toNat⟩ : Run)
  simp only [UInt64.toNat_ofNat', Nat.mod_eq_of_lt h] at hread
  exact hread

theorem readPart_framePart (selector : Selector) (target : Version) {inner : Bytes}
    (hinner : inner.length < UInt64.size) :
    readPart.run (framePart selector target inner) =
      .ok (runs selector target.slices, inner) := by
  obtain ⟨hlength, hcount⟩ := runs_bounded selector target.slices
  have hlt : ∀ {n}, n ≤ target.slices.length → n < UInt64.size :=
    fun hn => Nat.lt_of_le_of_lt hn target.size_lt
  have hruns := Reads.list (hlt hlength) fun r hr => reads_run (hlt (hcount r hr))
  have hread : Finishes readPart _ (runs selector target.slices, inner) :=
    .bind hruns (.bind (.block hinner) (.finish _))
  rw [List.append_nil] at hread
  exact hread.run

variable {s : Scope} {base target : Version} {inner : Bytes}

theorem computePart_of_ok
    (h : s.inner.compute (base.select s.selector) (target.select s.selector) = .ok inner) :
    s.computePart base target = .ok (framePart s.selector target inner) := by
  rw [computePart, h]
  rfl

theorem applyPart_of_ok (hinner : inner.length < UInt64.size)
    (h : s.inner.apply (base.select s.selector) inner = .ok (target.select s.selector)) :
    s.applyPart base (framePart s.selector target inner) = .ok (target.picked s.selector) := by
  have hparts : (target.select s.selector).slices.map Slice.part =
      (target.picked s.selector).map Slice.part := map_part_layOut 0 _
  have hplace := placeRuns_runs target.wellFormed.contiguous target.wellFormed.bounded hparts
  simp only [applyPart, readPart_framePart s.selector target hinner, h, hplace]
  rfl

theorem applyPart_of_error (hinner : inner.length < UInt64.size) {e : DiffFault}
    (h : s.inner.apply (base.select s.selector) inner = .error e) :
    s.applyPart base (framePart s.selector target inner) = .error e := by
  simp only [applyPart, readPart_framePart s.selector target hinner, h]

end Scope

end SszArchive
