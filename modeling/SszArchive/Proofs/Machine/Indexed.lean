import Mathlib.Data.List.Nodup
import Mathlib.Tactic.Ring
import SszArchive.Proofs.Lookup
import SszArchive.Proofs.Machine.Selecting

/-!
Versions as a machine holds them: the slices, and beside them a hash map from each node to its
position. Both are plain data here, and what makes them a version is stated as `Valid`; the checks
and the projection are shown to establish it.
-/

namespace SszArchive

theorem Version.totalLength_select (v : Version) (selector : Selector) :
    (v.select selector).totalLength = totalSize ((v.picked selector).map Slice.length) := by
  rw [totalLength, select, map_length_layOut, List.map_map]
  rfl

/-- A projection is no longer than the version. -/
theorem Version.totalLength_select_le (v : Version) (selector : Selector) :
    (v.select selector).totalLength ≤ v.totalLength := by
  rw [totalLength_select]
  exact totalSize_le_of_sublist (List.filter_sublist.map _)

namespace Machine

open Wire (bufferBound)

/-! ## Positions -/

abbrev Positions := Std.HashMap GIndex Nat

/-- Enters nodes with their positions, which count from `i` on. -/
def enter (positions : Positions) (i : Nat) : List GIndex → Positions
  | [] => positions
  | g :: rest => enter (positions.insert g i) (i + 1) rest

def indexOf (nodes : List GIndex) : Positions := enter ∅ 0 nodes

theorem getElem?_enter {nodes : List GIndex} (h : nodes.Nodup) (positions : Positions) (i : Nat)
    (g : GIndex) : (enter positions i nodes)[g]? =
      ((nodes.findIdx? (· == g)).map (i + ·)).or positions[g]? := by
  induction nodes generalizing positions i with
  | nil => rfl
  | cons a nodes ih =>
    obtain ⟨ha, h⟩ := List.nodup_cons.1 h
    rw [enter, ih h, List.findIdx?_cons, Std.HashMap.getElem?_insert]
    by_cases hg : a = g
    · have hnone : nodes.findIdx? (· == g) = none := by
        rw [List.findIdx?_eq_none_iff]
        rintro b hb
        rw [beq_eq_false_iff_ne]
        rintro rfl
        exact ha (hg ▸ hb)
      simp [hg, hnone]
    · cases nodes.findIdx? (· == g) with
      | none => simp [hg]
      | some j =>
        simp only [beq_iff_eq, hg, if_false, Option.map_some, Option.some_or]
        congr 1
        omega

theorem getElem?_indexOf {nodes : List GIndex} (h : nodes.Nodup) (g : GIndex) :
    (indexOf nodes)[g]? = nodes.findIdx? (· == g) := by
  rw [indexOf, getElem?_enter h]
  cases nodes.findIdx? (· == g) <;> simp

/-! ## Versions in memory -/

structure Indexed where
  slices : List Slice
  positions : Positions

namespace Indexed

def empty : Indexed := ⟨[], ∅⟩

/-- What every version keeps to: the slices are well-formed, and the map knows the position of
each node and nothing else. -/
structure Valid (x : Indexed) : Prop where
  wellFormed : WellFormed x.slices
  exact : ∀ g i, x.positions[g]? = some i ↔ ∃ s : Slice, x.slices[i]? = some s ∧ s.node = g

structure Represents (x : Indexed) (v : Version) : Prop where
  slices : x.slices = v.slices
  positions : ∀ g, x.positions[g]? = v.position? g

theorem Valid.represents {x : Indexed} (h : x.Valid) : x.Represents ⟨x.slices, h.wellFormed⟩ :=
  ⟨rfl, fun g => Option.ext fun i => (h.exact g i).trans
    (Version.position?_eq_some_iff (v := ⟨x.slices, h.wellFormed⟩)).symm⟩

theorem represents_indexOf (v : Version) :
    Represents ⟨v.slices, indexOf (v.slices.map Slice.node)⟩ v := by
  refine ⟨rfl, fun g => ?_⟩
  rw [getElem?_indexOf v.wellFormed.distinct, List.findIdx?_map]
  rfl

theorem represents_empty : empty.Represents .empty := represents_indexOf .empty

variable {x : Indexed} {v : Version}

theorem Represents.valid (h : x.Represents v) : x.Valid := by
  refine ⟨h.slices ▸ v.wellFormed, fun g i => ?_⟩
  rw [h.positions, h.slices]
  exact Version.position?_eq_some_iff

theorem Represents.contains (h : x.Represents v) (g : GIndex) :
    x.positions.contains g = v.has g := by
  rw [Std.HashMap.contains_eq_isSome_getElem?, h.positions, v.has_eq_isSome]

end Indexed

/-- One past the last byte of a slice. -/
def stopOf (s : Slice) : Exec ε Nat := add s.offset.toNat s.length

theorem stopOf_of_lt {s : Slice} (h : s.stop < offsetBound) :
    (stopOf s : Exec ε Nat) = .ok s.stop :=
  add_of_lt h

/-! ## Checking -/

/-- Checks the slices from position `i` on and enters their nodes. -/
def checkFrom (all : List Slice) (positions : Positions) (i : Nat) :
    List Slice → Exec InvariantFault Positions
  | [] => .ok positions
  | s :: rest =>
    if s.node = 0 then report (.zeroGIndex i)
    else if s.bytes = [] then report (.emptySlice s.node)
    else if offsetBound ≤ s.offset.toNat + s.length then report (.offsetOverflow s.node)
    else if positions.contains s.node then report (.duplicateGIndex s.node)
    else if 0 < i then do
      let before ← sub i 1
      let previous ← item all before
      let expected ← stopOf previous
      if s.offset.toNat = expected then checkFrom all (positions.insert s.node i) (i + 1) rest
      else report (.notContiguous s.node expected s.offset.toNat)
    else checkFrom all (positions.insert s.node i) (i + 1) rest

def build (slices : List Slice) : Exec InvariantFault Indexed := do
  let positions ← checkFrom slices ∅ 0 slices
  return ⟨slices, positions⟩

/-- The slices passed so far end in range, so that looking back at the last one is safe. -/
theorem checkFrom_eq {all placed rest : List Slice} {positions : Positions}
    (hall : placed.reverse ++ rest = all) (hbounded : ∀ p ∈ placed, p.stop < offsetBound)
    (hpositions : ∀ g, positions.contains g = true ↔ g ∈ placed.map Slice.node) :
    checkFrom all positions placed.length rest =
      match firstFault placed rest with
      | none => .ok (enter positions placed.length (rest.map Slice.node))
      | some e => .error (.fault e) := by
  induction rest generalizing placed positions with
  | nil => rfl
  | cons s rest ih =>
    have hstop : s.offset.toNat + s.length = s.stop := rfl
    rw [checkFrom, firstFault, hstop]
    by_cases hzero : s.node = 0
    · rw [if_pos hzero, if_pos hzero]
      rfl
    rw [if_neg hzero, if_neg hzero]
    by_cases hempty : s.bytes = []
    · rw [if_pos hempty, if_pos hempty]
      rfl
    rw [if_neg hempty, if_neg hempty]
    by_cases hover : offsetBound ≤ s.stop
    · rw [if_pos hover, if_pos hover]
      rfl
    rw [if_neg hover, if_neg hover]
    by_cases htwice : s.node ∈ placed.map Slice.node
    · rw [if_pos htwice, if_pos ((hpositions _).2 htwice)]
      rfl
    rw [if_neg htwice, if_neg fun h => htwice ((hpositions _).1 h)]
    have hnext : checkFrom all (positions.insert s.node placed.length) (placed.length + 1) rest =
        match firstFault (s :: placed) rest with
        | none => .ok (enter positions placed.length ((s :: rest).map Slice.node))
        | some e => .error (.fault e) := by
      refine @ih (s :: placed) _ ?_ ?_ ?_
      · rw [List.reverse_cons, List.append_assoc, List.singleton_append, hall]
      · exact List.forall_mem_cons.2 ⟨Nat.not_le.1 hover, hbounded⟩
      · intro g
        rw [Std.HashMap.contains_insert, Bool.or_eq_true, hpositions, List.map_cons, List.mem_cons,
          beq_iff_eq, eq_comm]
    cases placed with
    | nil => exact hnext
    | cons p placed =>
      have hprevious : all[placed.length]? = some p := by
        rw [← hall, List.reverse_cons, List.append_assoc,
          List.getElem?_append_right (by rw [List.length_reverse])]
        simp
      have hp := hbounded p (List.mem_cons_self ..)
      rw [if_pos (by simp), sub_of_le (by simp), List.length_cons, Nat.add_sub_cancel, ok_bind,
        item_of_getElem? hprevious, ok_bind, stopOf_of_lt hp, ok_bind]
      simp only [List.head?_cons]
      split
      · exact hnext
      · rfl

theorem refines_build (slices : List Slice) :
    Refines False Indexed.Represents (build slices) (Version.ofSlices slices) := by
  have hcheck := @checkFrom_eq slices [] slices ∅ rfl nofun (by simp)
  rw [List.length_nil] at hcheck
  rw [build, hcheck]
  cases hfault : firstFault [] slices with
  | none =>
    have hof : Version.ofSlices slices = .ok ⟨slices, firstFault_eq_none_iff.1 hfault⟩ :=
      Version.ofSlices_eq_ok_iff.2 rfl
    rw [hof]
    exact .ok (Indexed.represents_indexOf ⟨slices, _⟩)
  | some e =>
    have hof : Version.ofSlices slices = .error e := by
      unfold Version.ofSlices
      split
      · next h => cases hfault.symm.trans h
      · next h => cases hfault.symm.trans h; rfl
    rw [hof]
    exact .fault e

/-- Lays the parts out and checks them. -/
def assemble (start : UInt64) (parts : List Part) : Exec InvariantFault Indexed :=
  build (layOut start parts)

theorem refines_assemble (start : UInt64) (parts : List Part) :
    Refines False Indexed.Represents (assemble start parts) (Version.assemble start parts) :=
  refines_build (layOut start parts)

/-! ## Sizes -/

namespace Indexed

def start (x : Indexed) : UInt64 := (x.slices.head?.map Slice.offset).getD 0

def stop (x : Indexed) : Exec ε Nat :=
  match x.slices.getLast? with
  | some s => stopOf s
  | none => .ok x.start.toNat

def totalLength (x : Indexed) : Exec ε Nat := do
  let stop ← x.stop
  sub stop x.start.toNat

/-- The full encoding; several slices are copied into a new buffer. -/
def bytes (x : Indexed) : Exec ε Bytes :=
  match x.slices with
  | [] => .ok []
  | [only] => .ok only.bytes
  | slices => do
    let total ← x.totalLength
    reserve total
    return slices.flatMap Slice.bytes

variable {x : Indexed} {v : Version}

theorem Represents.start (h : x.Represents v) : x.start = v.start := by
  rw [Indexed.start, Version.start, h.slices]

theorem Represents.stop (h : x.Represents v) : (x.stop : Exec ε Nat) = .ok v.stop := by
  rw [Indexed.stop, h.slices, h.start]
  cases hlast : v.slices.getLast? with
  | none =>
    rw [Version.stop, Version.totalLength, List.getLast?_eq_none_iff.1 hlast]
    rfl
  | some s =>
    have hstop := v.wellFormed.contiguous.stop_getLast (fun _ => Version.offset_of_head?) hlast
    have hbounded := v.wellFormed.bounded s (List.mem_of_getLast? hlast)
    exact (stopOf_of_lt hbounded).trans (congrArg Except.ok hstop)

theorem Represents.totalLength (h : x.Represents v) :
    (x.totalLength : Exec ε Nat) = .ok v.totalLength := by
  have hle : v.start.toNat ≤ v.stop := Nat.le_add_right ..
  have hlength : v.stop - v.start.toNat = v.totalLength := Nat.add_sub_cancel_left ..
  rw [Indexed.totalLength, h.stop, h.start, ok_bind, sub_of_le hle, hlength]

theorem Represents.bytes (h : x.Represents v) :
    Refines (bufferBound ≤ v.totalLength) (· = ·) (x.bytes : Exec ε Bytes) (.ok v.bytes) := by
  have hslices := h.slices
  have htotal := h.totalLength (ε := ε)
  rw [Indexed.bytes, Version.bytes, ← hslices]
  split
  · next hnil => exact .ok (by rw [hnil]; rfl)
  · next only hone => exact .ok (by rw [hone, List.flatMap_singleton])
  · rw [htotal, ok_bind]
    by_cases hlt : v.totalLength < bufferBound
    · rw [reserve_of_lt hlt]
      exact .ok rfl
    · rw [reserve_of_ge (Nat.not_lt.1 hlt)]
      exact .outOfMemory (Nat.not_lt.1 hlt)

end Indexed

/-! ## Projections -/

/-- The picked slices back to back from `offset`, entered with their positions from `i` on. -/
def selectFrom (selector : Selector) (offset i : Nat) (positions : Positions) :
    List Slice → Exec ε (List Slice × Positions)
  | [] => .ok ([], positions)
  | s :: rest => do
      let picked ← selects selector s.node
      if picked then
        let next ← add offset s.length
        let (more, positions) ← selectFrom selector next (i + 1) (positions.insert s.node i) rest
        return (⟨s.node, UInt64.ofNat offset, s.bytes⟩ :: more, positions)
      else selectFrom selector offset i positions rest

def Indexed.select (x : Indexed) (selector : Selector) : Exec ε Indexed := do
  let (slices, positions) ← selectFrom selector 0 0 ∅ x.slices
  return ⟨slices, positions⟩

theorem selectFrom_eq {selector : Selector} {offset i : Nat} {positions : Positions}
    {slices : List Slice}
    (hfits : offset + totalSize ((slices.filter (selector.selects ·.node)).map Slice.length) <
      offsetBound) :
    (selectFrom selector offset i positions slices : Exec ε (List Slice × Positions)) =
      .ok (layOut (UInt64.ofNat offset)
          ((slices.filter (selector.selects ·.node)).map Slice.part),
        enter positions i ((slices.filter (selector.selects ·.node)).map Slice.node)) := by
  induction slices generalizing offset i positions with
  | nil => rfl
  | cons s slices ih =>
    rw [selectFrom, selects_eq, ok_bind]
    by_cases hs : selector.selects s.node = true
    · have hfilter : (s :: slices).filter (selector.selects ·.node) =
          s :: slices.filter (selector.selects ·.node) := by simp [hs]
      rw [hfilter] at hfits ⊢
      simp only [List.map_cons, totalSize, offsetBound, UInt64.size] at hfits
      have hoffset : (UInt64.ofNat offset).toNat = offset := by
        rw [UInt64.toNat_ofNat', Nat.mod_eq_of_lt (by omega)]
      have hnext : addOffset (UInt64.ofNat offset) s.length = UInt64.ofNat (offset + s.length) := by
        rw [← UInt64.toNat_inj, addOffset_toNat, hoffset, UInt64.toNat_ofNat',
          Nat.mod_eq_of_lt (by omega)]
        rw [hoffset, offsetBound, UInt64.size]
        omega
      rw [if_pos hs, add_of_lt (by rw [UInt64.size]; omega), ok_bind,
        ih (by rw [offsetBound, UInt64.size]; omega), ok_bind, ← hnext]
      rfl
    · have hfilter : (s :: slices).filter (selector.selects ·.node) =
          slices.filter (selector.selects ·.node) := by simp [hs]
      rw [hfilter] at hfits ⊢
      rw [if_neg hs]
      exact ih hfits

theorem Indexed.Represents.select {x : Indexed} {v : Version} (h : x.Represents v)
    (selector : Selector) :
    ∃ y : Indexed, (x.select selector : Exec ε Indexed) = .ok y ∧
      y.Represents (v.select selector) := by
  have hfits : 0 + totalSize ((v.picked selector).map Slice.length) < offsetBound := by
    rw [← v.totalLength_select, Nat.zero_add]
    exact (v.select selector).totalLength_lt
  have hnodes : ((v.select selector).slices.map Slice.node) =
      (v.picked selector).map Slice.node := by
    rw [Version.select, map_node_layOut, List.map_map]
    rfl
  refine ⟨⟨_, _⟩, ?_, Indexed.represents_indexOf (v.select selector)⟩
  rw [Indexed.select, h.slices, selectFrom_eq hfits, hnodes]
  rfl

end Machine

end SszArchive
