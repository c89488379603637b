import SszArchive.Slice

/-!
One version of a value: its full encoding as slices without gaps, each named by a different tree
node. `Version` carries these invariants, so a version can only be had through the checks here;
`firstFault` names the first violation in slice order.
-/

namespace SszArchive

/-- Slices that cannot form a version. -/
inductive InvariantFault where
  | zeroGIndex (position : Nat)
  | emptySlice (node : GIndex)
  | duplicateGIndex (node : GIndex)
  | notContiguous (node : GIndex) (expected actual : Nat)
  | offsetOverflow (node : GIndex)
  | lengthMismatch (declared actual : Nat)
  deriving DecidableEq, Repr

def InvariantFault.message : InvariantFault → String
  | .zeroGIndex position => s!"slice {position} has gIndex 0"
  | .emptySlice node => s!"slice with gIndex {node} is empty"
  | .duplicateGIndex node => s!"gIndex {node} appears more than once"
  | .notContiguous node expected actual =>
      s!"slice with gIndex {node} starts at {actual}, expected {expected}"
  | .offsetOverflow node => s!"slice with gIndex {node} extends past the end of the offset space"
  | .lengthMismatch declared actual =>
      s!"layout covers {declared} bytes but the encoding has {actual}"

/-! ## Invariants -/

/-- Each slice starts where the one before it ends. -/
def Contiguous : List Slice → Prop
  | a :: b :: rest => b.offset.toNat = a.stop ∧ Contiguous (b :: rest)
  | _ => True

structure WellFormed (slices : List Slice) : Prop where
  nodeNonzero : ∀ s ∈ slices, s.node ≠ 0
  nonempty : ∀ s ∈ slices, s.bytes ≠ []
  bounded : ∀ s ∈ slices, s.stop < offsetBound
  distinct : (slices.map Slice.node).Nodup
  contiguous : Contiguous slices

/-- The first violation, slice by slice; `placed` holds the slices already passed, the last one
first. -/
def firstFault (placed : List Slice) : List Slice → Option InvariantFault
  | [] => none
  | s :: rest =>
    if s.node = 0 then some (.zeroGIndex placed.length)
    else if s.bytes = [] then some (.emptySlice s.node)
    else if offsetBound ≤ s.stop then some (.offsetOverflow s.node)
    else if s.node ∈ placed.map Slice.node then some (.duplicateGIndex s.node)
    else
      match placed.head? with
      | some previous =>
          if s.offset.toNat = previous.stop then firstFault (s :: placed) rest
          else some (.notContiguous s.node previous.stop s.offset.toNat)
      | none => firstFault (s :: placed) rest

/-- What `firstFault` checks of the slices that remain. -/
private def Sound (placed rest : List Slice) : Prop :=
  (∀ s ∈ rest, s.node ≠ 0 ∧ s.bytes ≠ [] ∧ s.stop < offsetBound) ∧
    (rest.map Slice.node).Nodup ∧ (∀ s ∈ rest, s.node ∉ placed.map Slice.node) ∧
    Contiguous (placed.head?.toList ++ rest)

private theorem sound_cons_iff (placed rest : List Slice) (s : Slice) :
    Sound placed (s :: rest) ↔
      s.node ≠ 0 ∧ s.bytes ≠ [] ∧ s.stop < offsetBound ∧ s.node ∉ placed.map Slice.node ∧
        (∀ p, placed.head? = some p → s.offset.toNat = p.stop) ∧ Sound (s :: placed) rest := by
  cases placed with
  | nil =>
    simp only [Sound, List.map_cons, List.nodup_cons, List.mem_cons, forall_eq_or_imp]
    simp
    grind
  | cons p placed =>
    simp only [Sound, List.map_cons, List.nodup_cons, List.mem_cons, forall_eq_or_imp]
    simp [Contiguous]
    grind

private theorem firstFault_eq_none_iff_sound (placed rest : List Slice) :
    firstFault placed rest = none ↔ Sound placed rest := by
  induction rest generalizing placed with
  | nil => cases placed <;> simp [firstFault, Sound, Contiguous]
  | cons s rest ih =>
    rw [sound_cons_iff, ← ih, firstFault]
    cases h : placed.head? <;> grind

theorem firstFault_eq_none_iff {slices : List Slice} :
    firstFault [] slices = none ↔ WellFormed slices := by
  rw [firstFault_eq_none_iff_sound]
  constructor
  · rintro ⟨each, distinct, -, contiguous⟩
    exact ⟨fun s h => (each s h).1, fun s h => (each s h).2.1, fun s h => (each s h).2.2,
      distinct, by simpa using contiguous⟩
  · intro h
    exact ⟨fun s hs => ⟨h.nodeNonzero s hs, h.nonempty s hs, h.bounded s hs⟩, h.distinct,
      by simp, by simpa using h.contiguous⟩

/-! ## Versions -/

structure Version where
  slices : List Slice
  wellFormed : WellFormed slices

namespace Version

theorem ext {v w : Version} (h : v.slices = w.slices) : v = w := by
  cases v; cases w; cases h; rfl

instance : DecidableEq Version := fun v w =>
  decidable_of_iff (v.slices = w.slices) ⟨ext, fun h => h ▸ rfl⟩

def empty : Version := ⟨[], by constructor <;> simp [Contiguous]⟩

instance : Inhabited Version := ⟨empty⟩

/-- The slices as a version, or the first thing wrong with them. -/
def ofSlices (slices : List Slice) : Except InvariantFault Version :=
  match h : firstFault [] slices with
  | none => .ok ⟨slices, firstFault_eq_none_iff.1 h⟩
  | some fault => .error fault

/-- The parts back to back from `start`. -/
def assemble (start : UInt64) (parts : List Part) : Except InvariantFault Version :=
  ofSlices (layOut start parts)

/-- Cuts a full encoding by the layout's lengths, which have to cover it exactly. Entries of
length zero name no slice. -/
def ofLayout (bytes : Bytes) (layout : List (GIndex × Nat)) : Except InvariantFault Version :=
  let declared := totalSize (layout.map Prod.snd)
  if declared = bytes.length ∧ declared < offsetBound then
    assemble 0 (cut bytes (layout.filter (0 < ·.2)))
  else
    .error (.lengthMismatch (min declared (offsetBound - 1)) bytes.length)

/-! ## Views -/

def size (v : Version) : Nat := v.slices.length

def isEmpty (v : Version) : Bool := v.slices.isEmpty

/-- The offset of the first slice, 0 when there is none. -/
def start (v : Version) : UInt64 := (v.slices.head?.map Slice.offset).getD 0

def totalLength (v : Version) : Nat := totalSize (v.slices.map Slice.length)

/-- One past the last byte. -/
def stop (v : Version) : Nat := v.start.toNat + v.totalLength

/-- The full encoding. -/
def bytes (v : Version) : Bytes := v.slices.flatMap Slice.bytes

def parts (v : Version) : List Part := v.slices.map Slice.part

def layout (v : Version) : List (GIndex × Nat) := v.slices.map fun s => (s.node, s.length)

def describe (v : Version) : String :=
  s!"IndexedSsz({v.size} slices, {v.totalLength} bytes at {v.start})"

end Version

end SszArchive
