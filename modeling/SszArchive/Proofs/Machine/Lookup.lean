import SszArchive.Proofs.Machine.Indexed

/-!
The look-ups of a version in memory: a binary search over the offsets and the map from nodes to
positions. The search halves a window until one element is left; what it keeps is that nothing
behind the window is low enough and that the window starts low enough, unless it is the first.
Main statement: both addressings find what they should, and they agree on it.
-/

namespace SszArchive.Machine

/-! ## Binary search -/

/-- Where a search ends: at an element that compares equal, or where one would have to be put. -/
inductive Sought where
  | found (position : Nat)
  | missing (position : Nat)

variable {compare : α → Ordering} {xs : List α}

/-- Halves a window of `size` elements from `base` on until it holds one. -/
def narrow (compare : α → Ordering) (xs : List α) (base size : Nat) : Exec ε Nat :=
  if 1 < size then do
    let middle ← add base (size / 2)
    let x ← item xs middle
    narrow compare xs (if compare x = .gt then base else middle) (size - size / 2)
  else .ok base
termination_by size
decreasing_by all_goals omega

def search (compare : α → Ordering) (xs : List α) : Exec ε Sought :=
  if xs.length = 0 then .ok (.missing 0)
  else do
    let base ← narrow compare xs 0 xs.length
    let x ← item xs base
    match compare x with
    | .eq => return .found base
    | .lt => do
        let next ← add base 1
        return .missing next
    | .gt => return .missing base

/-- The elements come in order and at most one of them compares equal. -/
def Ordered (compare : α → Ordering) (xs : List α) : Prop :=
  xs.Pairwise fun a b => compare a = .lt ∨ compare b = .gt

theorem Ordered.lt_or_gt (h : Ordered compare xs) {i j : Nat} {a b : α} (hi : xs[i]? = some a)
    (hj : xs[j]? = some b) (hij : i < j) : compare a = .lt ∨ compare b = .gt := by
  obtain ⟨hilt, rfl⟩ := List.getElem?_eq_some_iff.1 hi
  obtain ⟨hjlt, rfl⟩ := List.getElem?_eq_some_iff.1 hj
  exact List.pairwise_iff_getElem.1 h i j hilt hjlt hij

/-- What a window is known to hold back: everything behind it is above, and so is its first element
only when nothing comes before. -/
structure Window (compare : α → Ordering) (xs : List α) (base size : Nat) : Prop where
  inside : base + size ≤ xs.length
  behind : ∀ i x, base + size ≤ i → xs[i]? = some x → compare x = .gt
  front : ∀ x, 0 < base → xs[base]? = some x → compare x ≠ .gt

/-- One step of the search. -/
theorem Window.halve (hordered : Ordered compare xs) {base size : Nat}
    (h : Window compare xs base size) (hsize : 1 < size) {x : α}
    (hx : xs[base + size / 2]? = some x) :
    Window compare xs (if compare x = .gt then base else base + size / 2) (size - size / 2) := by
  have hinside := h.inside
  by_cases habove : compare x = .gt
  · rw [if_pos habove]
    refine ⟨by omega, fun i y hi hy => ?_, h.front⟩
    rcases Nat.eq_or_lt_of_le (show base + size / 2 ≤ i by omega) with rfl | hlt
    · rw [hx] at hy
      exact Option.some.inj hy ▸ habove
    · refine (hordered.lt_or_gt hx hy hlt).resolve_left fun hbelow => ?_
      rw [habove] at hbelow
      cases hbelow
  · rw [if_neg habove]
    refine ⟨by omega, fun i y hi hy => h.behind i y (by omega) hy, fun y _ hy => ?_⟩
    rw [hx] at hy
    exact Option.some.inj hy ▸ habove

/-- The window shrinks to one element, and no index leaves the list on the way. -/
theorem narrow_window (hordered : Ordered compare xs) (hlength : xs.length < UInt64.size)
    {base size : Nat} (h : Window compare xs base size) (hsize : 0 < size) :
    ∃ last, (narrow compare xs base size : Exec ε Nat) = .ok last ∧ Window compare xs last 1 := by
  induction size using Nat.strong_induction_on generalizing base with
  | _ size ih =>
    have hinside := h.inside
    rw [narrow]
    by_cases hone : 1 < size
    · have hmiddle : base + size / 2 < xs.length := by omega
      have hx := List.getElem?_eq_getElem hmiddle
      rw [if_pos hone, add_of_lt (by omega), ok_bind, item_of_getElem? hx, ok_bind]
      exact ih (size - size / 2) (by omega) (h.halve hordered hone hx) (by omega)
    · obtain rfl : size = 1 := by omega
      rw [if_neg hone]
      exact ⟨base, rfl, h⟩

/-- What a search has to answer. -/
inductive Sought.Right (compare : α → Ordering) (xs : List α) : Sought → Prop
  | found {i : Nat} {x : α} (hx : xs[i]? = some x) (heq : compare x = .eq) :
      Right compare xs (.found i)
  | missing {i : Nat} (hle : i ≤ xs.length)
      (hbelow : ∀ j x, j < i → xs[j]? = some x → compare x = .lt)
      (habove : ∀ j x, i ≤ j → xs[j]? = some x → compare x = .gt) : Right compare xs (.missing i)

/-- A last element that is too low has the place behind it. -/
theorem Window.right_of_lt (hordered : Ordered compare xs) {last : Nat} {x : α}
    (h : Window compare xs last 1) (hx : xs[last]? = some x) (hlt : compare x = .lt) :
    Sought.Right compare xs (.missing (last + 1)) := by
  refine .missing h.inside (fun j y hj hy => ?_) h.behind
  rcases Nat.eq_or_lt_of_le (Nat.le_of_lt_succ hj) with rfl | hbefore
  · rw [hx] at hy
    exact Option.some.inj hy ▸ hlt
  · refine (hordered.lt_or_gt hy hx hbefore).resolve_right fun habove => ?_
    rw [hlt] at habove
    cases habove

/-- A last element that is too high is the first of all. -/
theorem Window.right_of_gt {last : Nat} {x : α} (h : Window compare xs last 1)
    (hx : xs[last]? = some x) (hgt : compare x = .gt) :
    Sought.Right compare xs (.missing last) := by
  obtain rfl : last = 0 := by
    by_contra hpos
    exact h.front _ (by omega) hx hgt
  refine .missing (Nat.zero_le _) (fun j y hj => absurd hj (Nat.not_lt_zero j)) fun j y _ hy => ?_
  rcases Nat.eq_zero_or_pos j with rfl | hpos
  · rw [hx] at hy
    exact Option.some.inj hy ▸ hgt
  · exact h.behind j y hpos hy

/-- **The search is right** for every list in order that fits into memory. -/
theorem search_right (hordered : Ordered compare xs) (hlength : xs.length < UInt64.size) :
    ∃ result : Sought, (search compare xs : Exec ε Sought) = .ok result ∧
      result.Right compare xs := by
  rw [search]
  by_cases hempty : xs.length = 0
  · rw [if_pos hempty]
    refine ⟨_, rfl, .missing (Nat.zero_le _) (fun j x hj => absurd hj (Nat.not_lt_zero j)) ?_⟩
    intro j x _ hx
    rw [List.eq_nil_of_length_eq_zero hempty] at hx
    cases hx
  · have hall : Window compare xs 0 xs.length :=
      ⟨by omega, fun i x hi hx => absurd (List.getElem?_eq_some_iff.1 hx).1 (by omega),
        fun x h => absurd h (Nat.lt_irrefl 0)⟩
    obtain ⟨last, hnarrow, hlast⟩ :=
      narrow_window (ε := ε) hordered hlength hall (by omega)
    have hinside := hlast.inside
    have hx := List.getElem?_eq_getElem (show last < xs.length by omega)
    rw [if_neg hempty, hnarrow, ok_bind, item_of_getElem? hx, ok_bind]
    cases hcompare : compare xs[last] with
    | eq => exact ⟨_, rfl, .found hx hcompare⟩
    | lt =>
      simp only [add_of_lt (show last + 1 < UInt64.size by omega), ok_bind]
      exact ⟨_, rfl, hlast.right_of_lt hordered hx hcompare⟩
    | gt => exact ⟨_, rfl, hlast.right_of_gt hx hcompare⟩

/-! ## By offset -/

/-- The slices against an offset. -/
def against (offset : UInt64) (s : Slice) : Ordering :=
  Ord.compare s.offset.toNat offset.toNat

def Indexed.slicePreceding (x : Indexed) (offset : UInt64) : Exec LookupFault Slice := do
  let sought ← search (against offset) x.slices
  match sought with
  | .found i => item x.slices i
  | .missing i =>
    if i = 0 then report (.atOffset offset)
    else do
      let before ← sub i 1
      item x.slices before

/-- The end is looked at only behind the start. -/
def covers (s : Slice) (offset : UInt64) : Exec ε Bool :=
  if s.offset.toNat ≤ offset.toNat then do
    let stop ← stopOf s
    return decide (offset.toNat < stop)
  else return false

def Indexed.sliceCovering (x : Indexed) (offset : UInt64) : Exec LookupFault Slice := do
  let s ← mapFault (fun _ => .atOffset offset) (x.slicePreceding offset)
  let inside ← covers s offset
  if inside then return s else report (.atOffset offset)

theorem ordered_against (v : Version) (offset : UInt64) : Ordered (against offset) v.slices := by
  refine v.offsets_lt.imp fun {a b} hlt => ?_
  rw [against, against, Nat.compare_eq_lt, Nat.compare_eq_gt]
  omega

variable {x : Indexed} {v : Version}

theorem covers_eq {s : Slice} (h : s.stop < offsetBound) (offset : UInt64) :
    (covers s offset : Exec ε Bool) = .ok (s.contains offset) := by
  rw [covers, stopOf_of_lt h, ok_bind, Slice.contains]
  by_cases hlow : s.offset.toNat ≤ offset.toNat
  · rw [if_pos hlow]
    simp only [hlow, true_and]
    rfl
  · rw [if_neg hlow]
    simp only [hlow, false_and, decide_false]
    rfl

/-- The slice before the place where the offset would have to be put precedes it. -/
theorem precedes_of_missing {offset : UInt64} {i : Nat} {s : Slice}
    (h : Sought.Right (against offset) v.slices (.missing (i + 1))) (hs : v.slices[i]? = some s) :
    v.Precedes offset s := by
  cases h with
  | missing hle hbelow habove =>
    have hlt := hbelow i s (Nat.lt_succ_self i) hs
    rw [against, Nat.compare_eq_lt] at hlt
    refine ⟨List.mem_of_getElem? hs, UInt64.le_iff_toNat_le.2 (Nat.le_of_lt hlt), ?_⟩
    intro t ht htle
    rw [UInt64.le_iff_toNat_le] at htle ⊢
    obtain ⟨j, hj⟩ := List.mem_iff_getElem?.1 ht
    rcases Nat.lt_trichotomy j i with hji | rfl | hij
    · obtain ⟨hilt, rfl⟩ := List.getElem?_eq_some_iff.1 hs
      obtain ⟨hjlt, rfl⟩ := List.getElem?_eq_some_iff.1 hj
      exact Nat.le_of_lt (List.pairwise_iff_getElem.1 v.offsets_lt j i hjlt hilt hji)
    · rw [hs] at hj
      rw [Option.some.inj hj]
    · have hgt := habove j t hij hj
      rw [against, Nat.compare_eq_gt] at hgt
      omega

theorem Indexed.Represents.slicePreceding (h : x.Represents v) (offset : UInt64) :
    x.slicePreceding offset = checked (v.slicePreceding offset) := by
  obtain ⟨result, hsearch, hright⟩ :=
    search_right (ε := LookupFault) (ordered_against v offset) v.size_lt
  rw [Indexed.slicePreceding, h.slices, hsearch, ok_bind]
  cases result with
  | found i =>
    cases hright with
    | found hs heq =>
      rw [against, Nat.compare_eq_eq] at heq
      have hprecedes : v.Precedes offset _ :=
        Version.precedes_of_offset_eq (List.mem_of_getElem? hs) (UInt64.toNat_inj.1 heq)
      rw [Version.slicePreceding_eq_ok_iff.2 hprecedes]
      exact item_of_getElem? hs
  | missing i =>
    cases i with
    | zero =>
      have hnone : v.slicePreceding offset = .error (.atOffset offset) := by
        refine Version.slicePreceding_eq_error_iff.2 ⟨rfl, Version.forall_offset_lt_iff.1 ?_⟩
        intro s hs
        cases hright with
        | missing _ _ habove =>
          obtain ⟨j, hj⟩ := List.mem_iff_getElem?.1 hs
          have hgt := habove j s (Nat.zero_le j) hj
          rw [against, Nat.compare_eq_gt] at hgt
          exact UInt64.lt_iff_toNat_lt.2 hgt
      rw [hnone]
      rfl
    | succ i =>
      have hlt : i < v.slices.length := by
        cases hright with
        | missing hle _ _ => exact hle
      have hs := List.getElem?_eq_getElem hlt
      simp only [Nat.succ_ne_zero, if_false, sub_of_le (Nat.le_add_left 1 i), ok_bind,
        Nat.add_sub_cancel, item_of_getElem? hs]
      rw [Version.slicePreceding_eq_ok_iff.2 (precedes_of_missing hright hs)]
      rfl

theorem Indexed.Represents.sliceCovering (h : x.Represents v) (offset : UInt64) :
    x.sliceCovering offset = checked (v.sliceCovering offset) := by
  rw [Indexed.sliceCovering, h.slicePreceding, Version.sliceCovering]
  cases hprecedes : v.slicePreceding offset with
  | error e =>
    rw [(Version.slicePreceding_eq_error_iff.1 hprecedes).1]
    rfl
  | ok s =>
    have hs := (Version.slicePreceding_eq_ok_iff.1 hprecedes).1
    show (covers s offset : Exec LookupFault Bool) >>= _ = _
    rw [covers_eq (v.wellFormed.bounded s hs), ok_bind]
    dsimp only
    cases s.contains offset <;> rfl

/-! ## By node -/

def Indexed.sliceAt (x : Indexed) (g : GIndex) : Exec LookupFault Slice :=
  match x.positions[g]? with
  | some i => item x.slices i
  | none => report (.atNode g)

theorem Indexed.Represents.sliceAt (h : x.Represents v) (g : GIndex) :
    x.sliceAt g = checked (v.sliceAt g) := by
  rw [Indexed.sliceAt, h.positions, h.slices]
  cases hposition : v.position? g with
  | none =>
    have hnone : v.sliceAt g = .error (.atNode g) := by
      refine Version.sliceAt_eq_error_iff.2 ⟨rfl, fun s hs hnode => ?_⟩
      obtain ⟨i, hi⟩ := List.mem_iff_getElem?.1 hs
      rw [Version.position?_eq_some_iff.2 ⟨s, hi, hnode⟩] at hposition
      cases hposition
    rw [hnone]
    rfl
  | some i =>
    obtain ⟨s, hs, hnode⟩ := Version.position?_eq_some_iff.1 hposition
    rw [Version.sliceAt_eq_ok_iff.2 ⟨List.mem_of_getElem? hs, hnode⟩]
    exact item_of_getElem? hs

/-! ## Agreement -/

/-- **Both addressings agree.** What is looked up in memory is what the version has. By offset it
is the slice with the greatest start that is not above the offset, and there is none only before
the first slice; exactly the offsets from the start up to the end are covered. A slice that covers
an offset has the byte that stands there in the full encoding, and by its node the same slice is
found; nodes that no slice has are not found. -/
theorem addressings_agree (h : x.Represents v) (offset : UInt64) (g : GIndex) :
    (x.slicePreceding offset = checked (v.slicePreceding offset) ∧
      x.sliceCovering offset = checked (v.sliceCovering offset) ∧
      x.sliceAt g = checked (v.sliceAt g) ∧
      x.start = v.start ∧ (x.stop : Exec LookupFault Nat) = .ok v.stop) ∧
    (∀ s, v.slicePreceding offset = .ok s ↔
      s ∈ v.slices ∧ s.offset ≤ offset ∧
        ∀ t ∈ v.slices, t.offset ≤ offset → t.offset ≤ s.offset) ∧
    (∀ e, v.slicePreceding offset = .error e ↔
      e = .atOffset offset ∧ (v.slices = [] ∨ offset < v.start)) ∧
    ((∃ s, v.sliceCovering offset = .ok s) ↔
      v.start.toNat ≤ offset.toNat ∧ offset.toNat < v.stop) ∧
    (∀ s, v.sliceCovering offset = .ok s →
      (∃ b, v.bytes[offset.toNat - v.start.toNat]? = some b ∧
        s.bytes[offset.toNat - s.offset.toNat]? = some b) ∧
      v.sliceAt s.node = .ok s) ∧
    ∀ e, v.sliceAt g = .error e ↔ e = .atNode g ∧ ∀ s ∈ v.slices, s.node ≠ g := by
  refine ⟨⟨h.slicePreceding offset, h.sliceCovering offset, h.sliceAt g, h.start, h.stop⟩,
    fun s => Version.slicePreceding_eq_ok_iff, fun e => Version.slicePreceding_eq_error_iff,
    Version.exists_sliceCovering_iff, fun s hcovers => ?_, fun e => Version.sliceAt_eq_error_iff⟩
  obtain ⟨hs, hcontains⟩ := Version.sliceCovering_eq_ok_iff.1 hcovers
  obtain ⟨hlow, hhigh⟩ := Version.contains_iff.1 hcontains
  have hinside : offset.toNat - s.offset.toNat < s.bytes.length := by
    rw [Slice.stop, Slice.length] at hhigh
    omega
  have hbyte := List.getElem?_eq_getElem hinside
  exact ⟨⟨_, (Version.getElem?_bytes hs hlow hhigh).trans hbyte, hbyte⟩,
    Version.sliceAt_eq_ok_iff.2 ⟨hs, rfl⟩⟩

/-- Three slices up to the last offset. -/
def lastOffsets : Version :=
  ⟨[⟨2, 0xfffffffffffffff9, [1, 2]⟩, ⟨7, 0xfffffffffffffffb, [3]⟩,
    ⟨6, 0xfffffffffffffffc, [4, 5, 6]⟩], firstFault_eq_none_iff.1 rfl⟩

def lastInMemory : Indexed := ⟨lastOffsets.slices, indexOf [2, 7, 6]⟩

/-- At the boundary of the last two slices. -/
theorem addressings_agree_lastOffsets :
    lastOffsets.sliceCovering 0xfffffffffffffffc = .ok ⟨6, 0xfffffffffffffffc, [4, 5, 6]⟩ ∧
    (lastInMemory.slicePreceding 0xfffffffffffffffc =
        checked (lastOffsets.slicePreceding 0xfffffffffffffffc) ∧
      lastInMemory.sliceCovering 0xfffffffffffffffc =
        checked (lastOffsets.sliceCovering 0xfffffffffffffffc) ∧
      lastInMemory.sliceAt 3 = checked (lastOffsets.sliceAt 3) ∧
      lastInMemory.start = lastOffsets.start ∧
      (lastInMemory.stop : Exec LookupFault Nat) = .ok lastOffsets.stop) ∧
    (∀ s, lastOffsets.slicePreceding 0xfffffffffffffffc = .ok s ↔
      s ∈ lastOffsets.slices ∧ s.offset ≤ 0xfffffffffffffffc ∧
        ∀ t ∈ lastOffsets.slices, t.offset ≤ 0xfffffffffffffffc → t.offset ≤ s.offset) ∧
    (∀ e, lastOffsets.slicePreceding 0xfffffffffffffffc = .error e ↔
      e = .atOffset 0xfffffffffffffffc ∧
        (lastOffsets.slices = [] ∨ 0xfffffffffffffffc < lastOffsets.start)) ∧
    ((∃ s, lastOffsets.sliceCovering 0xfffffffffffffffc = .ok s) ↔
      lastOffsets.start.toNat ≤ 0xfffffffffffffffc ∧ 0xfffffffffffffffc < lastOffsets.stop) ∧
    (∀ s, lastOffsets.sliceCovering 0xfffffffffffffffc = .ok s →
      (∃ b, lastOffsets.bytes[0xfffffffffffffffc - lastOffsets.start.toNat]? = some b ∧
        s.bytes[0xfffffffffffffffc - s.offset.toNat]? = some b) ∧
      lastOffsets.sliceAt s.node = .ok s) ∧
    ∀ e, lastOffsets.sliceAt 3 = .error e ↔
      e = .atNode 3 ∧ ∀ s ∈ lastOffsets.slices, s.node ≠ 3 :=
  ⟨rfl, addressings_agree (Indexed.represents_indexOf lastOffsets) 0xfffffffffffffffc 3⟩

end SszArchive.Machine
