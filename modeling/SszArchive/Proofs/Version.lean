import SszArchive.Version.Select

/-!
Versions rebuilt from their own slices and parts, what slices and parts must be like to form one,
and the sizes and places that the 64-bit offsets bound.
-/

namespace SszArchive

theorem layOut_map_part {s : Slice} {rest : List Slice} (hcontiguous : Contiguous (s :: rest))
    (hbounded : ∀ t ∈ s :: rest, t.stop < offsetBound) :
    layOut s.offset ((s :: rest).map Slice.part) = s :: rest := by
  induction rest generalizing s with
  | nil => rfl
  | cons t rest ih =>
    have hnext : addOffset s.offset s.length = t.offset := by
      have hs := hbounded s (List.mem_cons_self ..)
      apply UInt64.toNat_inj.1
      rw [addOffset_toNat hs, hcontiguous.1, Slice.stop]
    have htail := ih hcontiguous.2 fun u hu => hbounded u (List.mem_cons_of_mem _ hu)
    show s :: layOut (addOffset s.offset s.length) ((t :: rest).map Slice.part) = _
    rw [hnext, htail]

theorem map_length_layOut (start : UInt64) (parts : List Part) :
    (layOut start parts).map Slice.length = parts.map (·.bytes.length) := by
  rw [← map_part_layOut start parts, List.map_map, map_part_layOut]
  rfl

/-- The parts form a version exactly when their nodes are real and distinct, none is empty and
they fit the offsets. -/
theorem wellFormed_layOut_iff {start : UInt64} {parts : List Part} :
    WellFormed (layOut start parts) ↔
      (∀ p ∈ parts, p.node ≠ 0) ∧ (∀ p ∈ parts, p.bytes ≠ []) ∧ (parts.map Part.node).Nodup ∧
        start.toNat + totalSize (parts.map (·.bytes.length)) < offsetBound := by
  constructor
  · intro h
    have hslice : ∀ p ∈ parts, ∃ s ∈ layOut start parts, s.part = p := fun p hp => by
      rw [← map_part_layOut start parts] at hp
      exact List.mem_map.1 hp
    refine ⟨fun p hp => ?_, fun p hp => ?_, map_node_layOut start parts ▸ h.distinct, ?_⟩
    · obtain ⟨s, hs, rfl⟩ := hslice p hp
      exact h.nodeNonzero s hs
    · obtain ⟨s, hs, rfl⟩ := hslice p hp
      exact h.nonempty s hs
    · cases parts with
      | nil => exact start.toNat_lt
      | cons p parts =>
        have hstop := Version.stop_lt ⟨_, h⟩
        rwa [Version.stop, Version.totalLength, map_length_layOut] at hstop
  · rintro ⟨hnodes, hbytes, hdistinct, hfits⟩
    exact wellFormed_layOut hnodes hbytes hdistinct hfits

/-! ## Total sizes -/

theorem totalSize_append (a b : List Nat) : totalSize (a ++ b) = totalSize a + totalSize b := by
  induction a with
  | nil => exact (Nat.zero_add _).symm
  | cons n a ih => rw [List.cons_append, totalSize, totalSize, ih, Nat.add_assoc]

theorem totalSize_perm {a b : List Nat} (h : a.Perm b) : totalSize a = totalSize b := by
  induction h with
  | nil => rfl
  | cons n _ ih => simp only [totalSize, ih]
  | swap m n l =>
    simp only [totalSize]
    omega
  | trans _ _ ih ih' => exact ih.trans ih'

theorem totalSize_le_of_sublist {a b : List Nat} (h : a.Sublist b) :
    totalSize a ≤ totalSize b := by
  induction h with
  | slnil => exact Nat.le_refl _
  | cons n _ ih =>
    simp only [totalSize]
    omega
  | cons_cons n _ ih =>
    simp only [totalSize]
    omega

theorem le_totalSize {sizes : List Nat} {n : Nat} (h : n ∈ sizes) : n ≤ totalSize sizes :=
  totalSize_le_of_sublist (List.singleton_sublist.2 h)

theorem length_le_totalSize {sizes : List Nat} (h : ∀ n ∈ sizes, n ≠ 0) :
    sizes.length ≤ totalSize sizes := by
  induction sizes with
  | nil => exact Nat.le_refl _
  | cons n sizes ih =>
    have hn := h n (List.mem_cons_self ..)
    have hrest := ih fun m hm => h m (List.mem_cons_of_mem _ hm)
    simp only [List.length_cons, totalSize]
    omega

/-- Leaving out a slice that is not empty shows in the total size. -/
theorem eq_of_sublist_of_totalSize {some all : List Slice} (h : some.Sublist all)
    (hnonempty : ∀ s ∈ all, s.bytes ≠ [])
    (hsize : totalSize (some.map Slice.length) = totalSize (all.map Slice.length)) :
    some = all := by
  induction h with
  | slnil => rfl
  | cons s h _ =>
    have hs : 0 < s.length := List.length_pos_iff.2 (hnonempty s (List.mem_cons_self ..))
    have hle := totalSize_le_of_sublist (h.map Slice.length)
    simp only [List.map_cons, totalSize] at hsize
    omega
  | cons_cons s _ ih =>
    simp only [List.map_cons, totalSize] at hsize
    rw [ih (fun t ht => hnonempty t (List.mem_cons_of_mem _ ht)) (by omega)]

/-! ## Slices without gaps -/

theorem contiguous_cons_iff {s : Slice} {rest : List Slice} :
    Contiguous (s :: rest) ↔
      (∀ t, rest.head? = some t → t.offset.toNat = s.stop) ∧ Contiguous rest := by
  cases rest with
  | nil => simp [Contiguous]
  | cons t rest => simp [Contiguous]

namespace Contiguous

variable {s : Slice} {slices front rest : List Slice}

theorem tail (h : Contiguous (s :: rest)) : Contiguous rest := (contiguous_cons_iff.1 h).2

/-- Every slice starts behind all those before it. -/
theorem stops_le (h : Contiguous slices) :
    slices.Pairwise fun a b => a.stop ≤ b.offset.toNat := by
  induction slices with
  | nil => exact .nil
  | cons s rest ih =>
    cases rest with
    | nil => exact List.pairwise_singleton _ s
    | cons t rest =>
      have hrest := ih h.2
      have hst : s.stop ≤ t.offset.toNat := Nat.le_of_eq h.1.symm
      refine hrest.cons fun u hu => ?_
      rcases List.mem_cons.1 hu with rfl | hu
      · exact hst
      · have htu := (List.pairwise_cons.1 hrest).1 u hu
        rw [Slice.stop] at htu
        omega

/-- No offset comes twice. -/
theorem offsets_lt (h : Contiguous slices) (hnonempty : ∀ s ∈ slices, s.bytes ≠ []) :
    slices.Pairwise fun a b => a.offset.toNat < b.offset.toNat := by
  refine h.stops_le.imp_of_mem fun {a _} ha _ hle => ?_
  have hlength : 0 < a.length := List.length_pos_iff.2 (hnonempty a ha)
  rw [Slice.stop] at hle
  omega

/-- A slice starts where the lengths before it add up to, counted from the first offset. -/
theorem offset_eq {start : Nat} (h : Contiguous (front ++ s :: rest))
    (hstart : ∀ first, (front ++ s :: rest).head? = some first → first.offset.toNat = start) :
    s.offset.toNat = start + totalSize (front.map Slice.length) := by
  induction front generalizing start with
  | nil => exact hstart s rfl
  | cons a front ih =>
    obtain ⟨hnext, hrest⟩ := contiguous_cons_iff.1 h
    have ha : a.offset.toNat = start := hstart a rfl
    have hs := ih hrest hnext
    rw [hs, Slice.stop, ha, List.map_cons, totalSize, Nat.add_assoc]

/-- Every offset up to the end lies in a slice. -/
theorem exists_covering {start n : Nat} (h : Contiguous slices)
    (hstart : ∀ first, slices.head? = some first → first.offset.toNat = start) (hlow : start ≤ n)
    (hhigh : n < start + totalSize (slices.map Slice.length)) :
    ∃ s ∈ slices, s.offset.toNat ≤ n ∧ n < s.stop := by
  induction slices generalizing start with
  | nil =>
    simp only [List.map_nil, totalSize] at hhigh
    omega
  | cons s rest ih =>
    obtain ⟨hnext, hrest⟩ := contiguous_cons_iff.1 h
    have hs : s.offset.toNat = start := hstart s rfl
    rw [List.map_cons, totalSize] at hhigh
    by_cases hin : n < s.stop
    · exact ⟨s, List.mem_cons_self .., by omega, hin⟩
    · obtain ⟨t, ht, hcovers⟩ := ih hrest hnext (by omega) (by rw [Slice.stop]; omega)
      exact ⟨t, List.mem_cons_of_mem _ ht, hcovers⟩

/-- The last slice ends where all of them do. -/
theorem stop_getLast {last : Slice} {start : Nat} (h : Contiguous slices)
    (hstart : ∀ first, slices.head? = some first → first.offset.toNat = start)
    (hlast : slices.getLast? = some last) :
    last.stop = start + totalSize (slices.map Slice.length) := by
  obtain ⟨front, rfl⟩ := List.getLast?_eq_some_iff.1 hlast
  rw [Slice.stop, h.offset_eq hstart, List.map_append, totalSize_append, List.map_singleton]
  simp only [totalSize]
  omega

end Contiguous

/-- It is enough that the last slice ends inside the offset space. -/
theorem wellFormed_iff_last {slices : List Slice} :
    WellFormed slices ↔
      (∀ s ∈ slices, s.node ≠ 0) ∧ (slices.map Slice.node).Nodup ∧ (∀ s ∈ slices, s.bytes ≠ []) ∧
        Contiguous slices ∧ ∀ last, slices.getLast? = some last → last.stop < offsetBound := by
  constructor
  · intro h
    exact ⟨h.nodeNonzero, h.distinct, h.nonempty, h.contiguous, fun last hlast =>
      h.bounded last (List.mem_of_getLast? hlast)⟩
  · rintro ⟨hnodes, hdistinct, hbytes, hcontiguous, hlast⟩
    refine ⟨hnodes, hbytes, fun s hs => ?_, hdistinct, hcontiguous⟩
    obtain ⟨last, hlast'⟩ :=
      Option.isSome_iff_exists.1 (List.getLast?_isSome.2 (List.ne_nil_of_mem hs))
    have hstop := hlast last hlast'
    obtain ⟨front, rfl⟩ := List.getLast?_eq_some_iff.1 hlast'
    rcases List.mem_append.1 hs with hs | hs
    · have hle := (List.pairwise_append.1 hcontiguous.stops_le).2.2 s hs last
        (List.mem_singleton_self last)
      rw [Slice.stop] at hstop
      omega
    · rwa [List.mem_singleton.1 hs]

namespace Version

/-- **Validation changes nothing**: it lets exactly the well-formed slices through, as they are. -/
theorem ofSlices_eq_ok_iff {slices : List Slice} {v : Version} :
    ofSlices slices = .ok v ↔ v.slices = slices := by
  unfold ofSlices
  split
  · next h =>
    constructor
    · rintro ⟨⟩
      rfl
    · rintro rfl
      rfl
  · next fault h =>
    constructor
    · rintro ⟨⟩
    · rintro rfl
      rw [firstFault_eq_none_iff.2 v.wellFormed] at h
      cases h

theorem exists_ofSlices_eq_ok_iff {slices : List Slice} :
    (∃ v, ofSlices slices = .ok v) ↔ WellFormed slices := by
  constructor
  · rintro ⟨v, hv⟩
    rw [← ofSlices_eq_ok_iff.1 hv]
    exact v.wellFormed
  · exact fun h => ⟨⟨_, h⟩, ofSlices_eq_ok_iff.2 rfl⟩

theorem assemble_eq_ok_iff {start : UInt64} {parts : List Part} {v : Version} :
    assemble start parts = .ok v ↔ v.slices = layOut start parts :=
  ofSlices_eq_ok_iff

theorem exists_assemble_eq_ok_iff {start : UInt64} {parts : List Part} :
    (∃ v, assemble start parts = .ok v) ↔ WellFormed (layOut start parts) :=
  exists_ofSlices_eq_ok_iff

theorem layOut_parts (v : Version) : layOut v.start v.parts = v.slices := by
  obtain ⟨slices, wf⟩ := v
  cases slices with
  | nil => rfl
  | cons s rest => exact layOut_map_part wf.contiguous wf.bounded

theorem assemble_parts (v : Version) : assemble v.start v.parts = .ok v := by
  rw [assemble, ofSlices_eq_ok_iff, layOut_parts]

/-! ## Sizes -/

theorem length_lt {v : Version} {s : Slice} (h : s ∈ v.slices) : s.length < UInt64.size := by
  have hstop := v.wellFormed.bounded s h
  rw [Slice.stop, offsetBound] at hstop
  omega

theorem totalLength_lt (v : Version) : v.totalLength < UInt64.size := by
  have hstop := v.stop_lt
  rw [stop, offsetBound] at hstop
  omega

theorem toNat_totalLength (v : Version) : (UInt64.ofNat v.totalLength).toNat = v.totalLength := by
  rw [UInt64.toNat_ofNat', Nat.mod_eq_of_lt v.totalLength_lt]

/-- No slice is empty, so there are no more of them than bytes. -/
theorem size_lt (v : Version) : v.slices.length < UInt64.size := by
  have hlengths : ∀ n ∈ v.slices.map Slice.length, n ≠ 0 :=
    List.forall_mem_map.2 fun s hs => mt List.length_eq_zero_iff.1 (v.wellFormed.nonempty s hs)
  have hle := length_le_totalSize hlengths
  rw [List.length_map] at hle
  exact Nat.lt_of_le_of_lt hle v.totalLength_lt

/-! ## Offsets -/

theorem offset_of_head? {v : Version} {s : Slice} (h : v.slices.head? = some s) :
    s.offset.toNat = v.start.toNat := by
  rw [start, h]
  rfl

theorem offset_eq {v : Version} {s : Slice} {front back : List Slice}
    (h : v.slices = front ++ s :: back) :
    s.offset.toNat = v.start.toNat + totalSize (front.map Slice.length) :=
  (h ▸ v.wellFormed.contiguous).offset_eq fun _ hfirst => offset_of_head? (h ▸ hfirst)

theorem start_le {v : Version} {s : Slice} (h : s ∈ v.slices) :
    v.start.toNat ≤ s.offset.toNat := by
  obtain ⟨front, back, hsplit⟩ := List.append_of_mem h
  rw [offset_eq hsplit]
  exact Nat.le_add_right ..

theorem stop_le {v : Version} {s : Slice} (h : s ∈ v.slices) : s.stop ≤ v.stop := by
  obtain ⟨front, back, hsplit⟩ := List.append_of_mem h
  rw [Slice.stop, offset_eq hsplit, stop, totalLength, hsplit, List.map_append, totalSize_append,
    List.map_cons, totalSize]
  omega

/-! ## Encodings -/

theorem length_flatMap_bytes (slices : List Slice) :
    (slices.flatMap Slice.bytes).length = totalSize (slices.map Slice.length) := by
  induction slices with
  | nil => rfl
  | cons s slices ih =>
    rw [List.flatMap_cons, List.length_append, ih, List.map_cons, totalSize, Slice.length]

theorem length_bytes (v : Version) : v.bytes.length = v.totalLength :=
  length_flatMap_bytes v.slices

/-- An encoding is cut by its own layout into the parts. -/
theorem cut_layout (v : Version) : cut v.bytes v.layout = v.parts := by
  rw [bytes, layout, parts]
  induction v.slices with
  | nil => rfl
  | cons s slices ih =>
    rw [List.flatMap_cons, List.map_cons, List.map_cons, cut, Slice.length, List.take_left,
      List.drop_left, ih, Slice.part]

end Version

/-! ## Cutting -/

/-- The parts have the declared nodes and lengths when there are bytes for all of them. -/
theorem layout_cut {encoding : Bytes} {layout : List (GIndex × Nat)}
    (h : totalSize (layout.map Prod.snd) ≤ encoding.length) :
    (cut encoding layout).map (fun p => (p.node, p.bytes.length)) = layout := by
  induction layout generalizing encoding with
  | nil => rfl
  | cons entry layout ih =>
    rw [List.map_cons, totalSize] at h
    have hdrop : totalSize (layout.map Prod.snd) ≤ (encoding.drop entry.2).length := by
      rw [List.length_drop]
      omega
    have hfirst : (encoding.take entry.2).length = entry.2 := by
      rw [List.length_take]
      omega
    rw [cut, List.map_cons, ih hdrop, hfirst]

/-- What a layout has to be like so that its parts form a version. -/
theorem wellFormed_cut_iff {start : UInt64} {encoding : Bytes} {layout : List (GIndex × Nat)}
    (h : totalSize (layout.map Prod.snd) ≤ encoding.length) :
    WellFormed (layOut start (cut encoding layout)) ↔
      (∀ entry ∈ layout, entry.1 ≠ 0) ∧ (∀ entry ∈ layout, entry.2 ≠ 0) ∧
        (layout.map Prod.fst).Nodup ∧
        start.toNat + totalSize (layout.map Prod.snd) < offsetBound := by
  have hlayout := layout_cut h
  generalize cut encoding layout = parts at hlayout
  subst hlayout
  rw [wellFormed_layOut_iff, List.map_map, List.map_map]
  simp only [List.forall_mem_map, ne_eq, List.length_eq_zero_iff]
  rfl

/-- What is cut goes together again. -/
theorem flatMap_cut (encoding : Bytes) (layout : List (GIndex × Nat)) :
    (cut encoding layout).flatMap Part.bytes =
      encoding.take (totalSize (layout.map Prod.snd)) := by
  induction layout generalizing encoding with
  | nil => rfl
  | cons entry layout ih =>
    rw [cut, List.flatMap_cons, ih, List.map_cons, totalSize, List.take_add]

/-- Entries of length zero do not matter for the total. -/
theorem totalSize_filter_pos (layout : List (GIndex × Nat)) :
    totalSize ((layout.filter (0 < ·.2)).map Prod.snd) = totalSize (layout.map Prod.snd) := by
  induction layout with
  | nil => rfl
  | cons entry layout ih =>
    by_cases hlength : 0 < entry.2
    · rw [List.filter_cons_of_pos (by simpa using hlength), List.map_cons, totalSize, ih,
        List.map_cons, totalSize]
    · rw [List.filter_cons_of_neg (by simpa using hlength), ih, List.map_cons, totalSize]
      omega

namespace Version

theorem flatMap_bytes_parts (v : Version) : v.parts.flatMap Part.bytes = v.bytes :=
  List.flatMap_map ..

end Version

end SszArchive
