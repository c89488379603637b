import SszArchive.Proofs.Machine.Construction
import SszArchive.Proofs.WordPayload

/-!
Splitting a full encoding by a layout. The declared lengths are added up with a check at every
step, so that a cursor over the encoding cannot pass its end; entries of length 0 name no slice.
Main statement: which encodings and layouts fit together, what comes of them, and that the
encoding and the layout of a version lead back to it, moved to offset 0.
-/

namespace SszArchive

/-! ## Moving to offset 0 -/

/-- The slice `n` bytes further to the front. -/
def Slice.back (s : Slice) (n : UInt64) : Slice := ⟨s.node, s.offset - n, s.bytes⟩

theorem Slice.toNat_offset_back {s : Slice} {n : UInt64} (h : n.toNat ≤ s.offset.toNat) :
    (s.back n).offset.toNat = s.offset.toNat - n.toNat :=
  UInt64.toNat_sub_of_le _ _ (UInt64.le_iff_toNat_le.2 h)

theorem Slice.stop_back {s : Slice} {n : UInt64} (h : n.toNat ≤ s.offset.toNat) :
    (s.back n).stop = s.stop - n.toNat := by
  rw [stop, toNat_offset_back h, stop]
  show s.offset.toNat - n.toNat + s.length = _
  omega

theorem Contiguous.back {slices : List Slice} {n : UInt64} (h : Contiguous slices)
    (hle : ∀ s ∈ slices, n.toNat ≤ s.offset.toNat) : Contiguous (slices.map (·.back n)) := by
  induction slices with
  | nil => exact h
  | cons s rest ih =>
    obtain ⟨hs, hrest⟩ := List.forall_mem_cons.1 hle
    obtain ⟨hnext, htail⟩ := contiguous_cons_iff.1 h
    refine contiguous_cons_iff.2 ⟨fun t ht => ?_, ih htail hrest⟩
    rw [List.head?_map, Option.map_eq_some_iff] at ht
    obtain ⟨t, ht, rfl⟩ := ht
    rw [Slice.toNat_offset_back (hrest t (List.mem_of_head? ht)), Slice.stop_back hs, hnext t ht]

namespace Version

/-- The same parts from offset 0 on. -/
def toOrigin (v : Version) : Version where
  slices := v.slices.map (·.back v.start)
  wellFormed := {
    nodeNonzero := List.forall_mem_map.2 v.wellFormed.nodeNonzero
    nonempty := List.forall_mem_map.2 v.wellFormed.nonempty
    bounded := List.forall_mem_map.2 fun s hs => by
      rw [Slice.stop_back (start_le hs)]
      exact Nat.lt_of_le_of_lt (Nat.sub_le ..) (v.wellFormed.bounded s hs)
    distinct := by
      rw [List.map_map]
      exact v.wellFormed.distinct
    contiguous := v.wellFormed.contiguous.back fun _ hs => start_le hs }

theorem layout_toOrigin (v : Version) : v.toOrigin.layout = v.layout := List.map_map ..

theorem bytes_toOrigin (v : Version) : v.toOrigin.bytes = v.bytes := List.flatMap_map ..

theorem start_toOrigin (v : Version) : v.toOrigin.start = 0 := by
  rw [start, toOrigin, List.head?_map]
  cases hfirst : v.slices.head? with
  | none => rfl
  | some s =>
    have hoffset : s.offset = v.start := UInt64.toNat_inj.1 (offset_of_head? hfirst)
    show s.offset - v.start = 0
    rw [hoffset, UInt64.sub_self]

/-! ## Splitting -/

variable {encoding : Bytes} {layout : List (GIndex × Nat)}

/-- The lengths cover the encoding, and their sum is a word. -/
def Covers (encoding : Bytes) (layout : List (GIndex × Nat)) : Prop :=
  totalSize (layout.map Prod.snd) = encoding.length ∧ totalSize (layout.map Prod.snd) < offsetBound

theorem ofLayout_of_covers (h : Covers encoding layout) :
    ofLayout encoding layout = assemble 0 (cut encoding (layout.filter (0 < ·.2))) :=
  if_pos h

theorem covers_of_ofLayout {w : Version} (h : ofLayout encoding layout = .ok w) :
    Covers encoding layout := by
  unfold ofLayout at h
  simp only at h
  split at h
  · next hcovers => exact hcovers
  · cases h

/-- Of the entries only those that name a slice have to name a node, each another one. -/
theorem exists_ofLayout_eq_ok_iff :
    (∃ w, ofLayout encoding layout = .ok w) ↔
      Covers encoding layout ∧ (∀ entry ∈ layout, entry.2 ≠ 0 → entry.1 ≠ 0) ∧
        ((layout.filter (0 < ·.2)).map Prod.fst).Nodup := by
  by_cases hcovers : Covers encoding layout
  · have htotal : totalSize ((layout.filter (0 < ·.2)).map Prod.snd) = encoding.length :=
      (totalSize_filter_pos layout).trans hcovers.1
    have hfits : (0 : UInt64).toNat + totalSize ((layout.filter (0 < ·.2)).map Prod.snd) <
        offsetBound := by
      rw [UInt64.toNat_zero, Nat.zero_add, totalSize_filter_pos]
      exact hcovers.2
    have hmem : ∀ entry, entry ∈ layout.filter (0 < ·.2) ↔ entry ∈ layout ∧ entry.2 ≠ 0 := by
      simp [Nat.pos_iff_ne_zero]
    rw [ofLayout_of_covers hcovers, exists_assemble_eq_ok_iff,
      wellFormed_cut_iff (Nat.le_of_eq htotal)]
    constructor
    · rintro ⟨hnodes, -, hdistinct, -⟩
      exact ⟨hcovers, fun entry he hne => hnodes entry ((hmem entry).2 ⟨he, hne⟩), hdistinct⟩
    · rintro ⟨-, hnodes, hdistinct⟩
      refine ⟨fun entry he => ?_, fun entry he => ((hmem entry).1 he).2, hdistinct, hfits⟩
      obtain ⟨he, hne⟩ := (hmem entry).1 he
      exact hnodes entry he hne
  · exact iff_of_false (fun ⟨_, h⟩ => hcovers (covers_of_ofLayout h)) fun h => hcovers h.1

theorem ofLayout_eq_ok_iff {w : Version} :
    ofLayout encoding layout = .ok w ↔
      Covers encoding layout ∧ w.bytes = encoding ∧ w.start = 0 ∧
        w.layout = layout.filter (0 < ·.2) := by
  by_cases hcovers : Covers encoding layout
  · have htotal : encoding.length = totalSize ((layout.filter (0 < ·.2)).map Prod.snd) :=
      ((totalSize_filter_pos layout).trans hcovers.1).symm
    rw [ofLayout_of_covers hcovers, assemble_eq_ok_iff]
    constructor
    · intro hslices
      have hfills := (WordDelta.fills_iff htotal).2 hslices
      refine ⟨hcovers, hfills.bytes, ?_, hfills.layout⟩
      rw [start, hslices]
      cases cut encoding (layout.filter (0 < ·.2)) <;> rfl
    · rintro ⟨-, hbytes, hstart, hlayout⟩
      exact (WordDelta.fills_iff htotal).1 ⟨hlayout, fun _ => hstart, hbytes⟩
  · exact iff_of_false (fun h => hcovers (covers_of_ofLayout h)) fun h => hcovers h.1

/-- The encoding and the layout of a version lead back to it, but for its start. -/
theorem ofLayout_bytes_layout (v : Version) : ofLayout v.bytes v.layout = .ok v.toOrigin := by
  have htotal := WordDelta.totalSize_layout v
  have hpos : v.layout.filter (0 < ·.2) = v.layout := by
    refine List.filter_eq_self.2 (List.forall_mem_map.2 fun s hs => ?_)
    exact decide_eq_true (List.length_pos_iff.2 (v.wellFormed.nonempty s hs))
  refine ofLayout_eq_ok_iff.2 ⟨⟨?_, ?_⟩, v.bytes_toOrigin, v.start_toOrigin, ?_⟩
  · rw [htotal, v.length_bytes]
  · rw [htotal]
    exact v.totalLength_lt
  · rw [hpos, v.layout_toOrigin]

end Version

namespace Machine

open Wire (bufferBound)

/-! ## Splitting on a machine -/

/-- The sum of the sizes behind `total`, unless a step of adding them up leaves the words. -/
def addUp (total : Nat) : List Nat → Option Nat
  | [] => some total
  | n :: sizes => if total + n < UInt64.size then addUp (total + n) sizes else none

/-- Some step overflows exactly when the whole sum does. -/
theorem addUp_eq {total : Nat} {sizes : List Nat} (h : total < UInt64.size) :
    addUp total sizes =
      if total + totalSize sizes < UInt64.size then some (total + totalSize sizes) else none := by
  induction sizes generalizing total with
  | nil => rw [addUp, totalSize, Nat.add_zero, if_pos h]
  | cons n sizes ih =>
    rw [addUp, totalSize, ← Nat.add_assoc]
    by_cases hstep : total + n < UInt64.size
    · rw [if_pos hstep, ih hstep]
    · rw [if_neg hstep, if_neg (by omega)]

/-- What runs: the sum has to be the length of the encoding, and a sum that no word holds is
reported as the greatest word. -/
theorem ofLayout_eq (encoding : Bytes) (layout : List (GIndex × Nat)) :
    ofLayout encoding layout =
      if addUp 0 (layout.map Prod.snd) = some encoding.length then do
        let parts ← cutFrom encoding 0 (layout.filter (0 < ·.2))
        assemble 0 parts
      else
        report (.lengthMismatch ((addUp 0 (layout.map Prod.snd)).getD (UInt64.size - 1))
          encoding.length) := by
  rw [ofLayout, addUp_eq (by decide), Nat.zero_add]
  simp only [offsetBound]
  by_cases hlt : totalSize (layout.map Prod.snd) < UInt64.size
  · have hmin : min (totalSize (layout.map Prod.snd)) (UInt64.size - 1) =
        totalSize (layout.map Prod.snd) := by omega
    simp only [hlt, and_true, if_true, Option.some.injEq, Option.getD_some, hmin]
  · have hmin : min (totalSize (layout.map Prod.snd)) (UInt64.size - 1) = UInt64.size - 1 := by
      omega
    simp only [hlt, and_false, if_false, reduceCtorEq, Option.getD_none, hmin]

/-- **Splitting is exact.** It succeeds exactly when the lengths add up to the length of the
encoding without leaving the words and the entries that are not of length 0 have real and distinct
nodes. Then the slices are these entries in their order, from offset 0 on, and together they are
the encoding. The encoding of a version is split by the version's own layout into the version
moved to offset 0. -/
theorem splitting_exact (encoding : Bytes) (layout : List (GIndex × Nat)) :
    (Refines False Indexed.Represents (ofLayout encoding layout)
        (Version.ofLayout encoding layout) ∧
      ofLayout encoding layout =
        if addUp 0 (layout.map Prod.snd) = some encoding.length then do
          let parts ← cutFrom encoding 0 (layout.filter (0 < ·.2))
          assemble 0 parts
        else
          report (.lengthMismatch ((addUp 0 (layout.map Prod.snd)).getD (UInt64.size - 1))
            encoding.length)) ∧
    ((∃ y, ofLayout encoding layout = .ok y) ↔
      (totalSize (layout.map Prod.snd) = encoding.length ∧
          totalSize (layout.map Prod.snd) < UInt64.size) ∧
        (∀ entry ∈ layout, entry.2 ≠ 0 → entry.1 ≠ 0) ∧
        ((layout.filter (0 < ·.2)).map Prod.fst).Nodup) ∧
    (∀ y, ofLayout encoding layout = .ok y →
      (encoding.length < bufferBound → (y.bytes : Exec InvariantFault Bytes) = .ok encoding) ∧
        y.slices.flatMap Slice.bytes = encoding ∧ y.start = 0 ∧
        y.slices.map (fun s => (s.node, s.length)) = layout.filter (0 < ·.2)) ∧
    ∀ (x : Indexed) (v : Version), x.Represents v →
      Version.ofLayout v.bytes v.layout = .ok v.toOrigin ∧
        Refines (bufferBound ≤ v.totalLength) Indexed.Represents
          (do
            let whole ← x.bytes
            ofLayout whole (x.slices.map fun s => (s.node, s.length)))
          (.ok v.toOrigin) := by
  have hrefines := refines_ofLayout encoding layout
  refine ⟨⟨hrefines, ofLayout_eq encoding layout⟩, ?_, fun y hy => ?_, fun x v hx => ?_⟩
  · rw [hrefines.exists_ok_iff]
    exact Version.exists_ofLayout_eq_ok_iff
  · obtain ⟨w, hw, hrepresents⟩ := (hy ▸ hrefines).of_ok
    obtain ⟨-, rfl, hstart, hlayout⟩ := Version.ofLayout_eq_ok_iff.1 hw
    rw [w.length_bytes, hrepresents.slices, hrepresents.start]
    exact ⟨fun hroom => hrepresents.bytes.eq_ok (Nat.not_le.2 hroom), rfl, hstart, hlayout⟩
  · have hback := v.ofLayout_bytes_layout
    refine ⟨hback, ?_⟩
    have hsplit : Refines (bufferBound ≤ v.totalLength) Indexed.Represents
        (x.bytes >>= fun whole => ofLayout whole v.layout)
        (Except.ok v.bytes >>= fun whole => Version.ofLayout whole v.layout) := by
      refine hx.bytes.bind fun whole whole' hwhole => ?_
      rw [hwhole]
      exact (refines_ofLayout whole' v.layout).mono False.elim
    rw [ok_bind, hback] at hsplit
    rw [hx.slices]
    exact hsplit

/-- Two slices from offset 7 on. -/
def laterSlices : Version :=
  ⟨[⟨2, 7, [1, 2]⟩, ⟨3, 9, [3]⟩], firstFault_eq_none_iff.1 rfl⟩

/-- Entries of length 0 may repeat a node and name none. -/
theorem splitting_exact_laterSlices :
    (∃ y, ofLayout [1, 2, 3] [(2, 2), (0, 0), (2, 0), (3, 1)] = .ok y ∧
      (y.bytes : Exec InvariantFault Bytes) = .ok [1, 2, 3] ∧
        y.slices.map (fun s => (s.node, s.length)) = [(2, 2), (3, 1)]) ∧
      Version.ofLayout [1, 2, 3] [(2, 2), (3, 1)] = .ok laterSlices.toOrigin := by
  obtain ⟨-, hsuccess, hslices, hback⟩ :=
    splitting_exact [1, 2, 3] [(2, 2), (0, 0), (2, 0), (3, 1)]
  obtain ⟨y, hy⟩ := hsuccess.2 ⟨by decide, by decide, by decide⟩
  obtain ⟨hbytes, -, -, hlayout⟩ := hslices y hy
  exact ⟨⟨y, hy, hbytes (by decide), hlayout⟩,
    (hback _ laterSlices (Indexed.represents_indexOf laterSlices)).1⟩

end Machine

end SszArchive
