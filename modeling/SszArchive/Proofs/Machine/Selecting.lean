import SszArchive.Proofs.Machine.Exec
import SszArchive.Schema.Scope

/-!
Selectors on words. The depth of a node is counted from its leading zeros and its ancestors are
found by shifting; both have a range, which the checks in front of them keep for every selector.
-/

namespace SszArchive.Machine

/-! ## Nodes -/

def leadingZeros (w : UInt64) : Nat := if w = 0 then 64 else 63 - w.toNat.log2

def depth (g : GIndex) : Exec ε Nat := sub 63 (leadingZeros g)

def isAncestor (a g : GIndex) : Exec ε Bool :=
  if !GIndex.valid a || !GIndex.valid g then return false
  else do
    let above ← depth a
    let below ← depth g
    if above ≤ below then
      let distance ← sub below above
      let up ← shiftRight g.toNat distance
      return up == a.toNat
    else return false

theorem depth_of_ne_zero {g : GIndex} (h : g ≠ 0) :
    (depth g : Exec ε Nat) = .ok (GIndex.depth g) := by
  have hlt := Varint.log2_lt g
  rw [depth, leadingZeros, if_neg h, sub_of_le (by omega), GIndex.depth]
  congr 1
  omega

theorem isAncestor_eq (a g : GIndex) :
    (isAncestor a g : Exec ε Bool) = .ok (GIndex.isAncestor a g) := by
  rw [isAncestor, GIndex.isAncestor]
  by_cases ha : a = 0
  · simp [ha, GIndex.valid, pure, Except.pure]
  by_cases hg : g = 0
  · simp [hg, GIndex.valid, pure, Except.pure]
  have hvalid : GIndex.valid a = true ∧ GIndex.valid g = true := by simp [GIndex.valid, ha, hg]
  rw [hvalid.1, hvalid.2, depth_of_ne_zero ha, depth_of_ne_zero hg]
  simp only [Bool.not_true, Bool.or_self, Bool.false_eq_true, if_false, ok_bind, Bool.and_self,
    Bool.true_and]
  by_cases hdepth : GIndex.depth a ≤ GIndex.depth g
  · have hlt : GIndex.depth g - GIndex.depth a < 64 :=
      Nat.lt_of_le_of_lt (Nat.sub_le ..) (Varint.log2_lt g)
    rw [if_pos hdepth, sub_of_le hdepth, decide_eq_true hdepth]
    simp only [ok_bind, shiftRight, within_of hlt, Bool.true_and]
    rfl
  · rw [if_neg hdepth, decide_eq_false hdepth, Bool.false_and]
    rfl

/-! ## Selectors -/

def selects : Selector → GIndex → Exec ε Bool
  | .all, g => .ok (GIndex.valid g)
  | .descendants root inclusive, g => do
      let below ← isAncestor root g
      return below && (inclusive || g != root)
  | .union a b, g => do
      let first ← selects a g
      if first then return true else selects b g
  | .subtract a b, g => do
      let first ← selects a g
      if first then
        let second ← selects b g
        return !second
      else return false

theorem selects_eq (selector : Selector) (g : GIndex) :
    (selects selector g : Exec ε Bool) = .ok (selector.selects g) := by
  induction selector with
  | all => rfl
  | descendants root inclusive =>
    rw [selects, isAncestor_eq]
    rfl
  | union a b iha ihb =>
    rw [selects, iha, ihb, Selector.selects]
    cases a.selects g <;> rfl
  | subtract a b iha ihb =>
    rw [selects, iha, ihb, Selector.selects]
    cases a.selects g <;> rfl

/-! ## Placing -/

/-- Places `count` of the produced slices from `offset` on; the sums are checked. -/
def placeRun (selector : Selector) :
    Nat → UInt64 → List Slice → Exec Mismatch (List Slice × List Slice)
  | 0, _, produced => .ok ([], produced)
  | _ + 1, _, [] => report .tooFewScoped
  | count + 1, offset, s :: produced => do
      let picked ← selects selector s.node
      if !picked then report (.unselected s.node)
      else if offsetBound ≤ offset.toNat + s.length then report (.scopedPastEnd s.node)
      else
        let (placed, left) ← placeRun selector count (addOffset offset s.length) produced
        return (⟨s.node, offset, s.bytes⟩ :: placed, left)

def placeRuns (selector : Selector) : List Run → List Slice → Exec Mismatch (List Slice)
  | [], [] => .ok []
  | [], _ :: _ => report .tooManyScoped
  | r :: rest, produced => do
      let (placed, left) ← placeRun selector r.count r.start produced
      let more ← placeRuns selector rest left
      return placed ++ more

theorem placeRun_eq (selector : Selector) (count : Nat) (offset : UInt64) (produced : List Slice) :
    placeRun selector count offset produced =
      checked (Scope.placeRun selector count offset produced) := by
  induction count generalizing offset produced with
  | zero => rfl
  | succ count ih =>
    cases produced with
    | nil => rfl
    | cons s produced =>
      rw [placeRun, Scope.placeRun, selects_eq, ok_bind, ih]
      split
      · rfl
      · split
        · rfl
        · cases Scope.placeRun selector count (addOffset offset s.length) produced <;> rfl

theorem placeRuns_eq (selector : Selector) (runs : List Run) (produced : List Slice) :
    placeRuns selector runs produced = checked (Scope.placeRuns selector runs produced) := by
  induction runs generalizing produced with
  | nil => cases produced <;> rfl
  | cons r runs ih =>
    rw [placeRuns, Scope.placeRuns, placeRun_eq]
    cases Scope.placeRun selector r.count r.start produced with
    | error e => rfl
    | ok first =>
      obtain ⟨placed, left⟩ := first
      show placeRuns selector runs left >>= _ = _
      rw [ih]
      dsimp only
      cases Scope.placeRuns selector runs left <;> rfl

end SszArchive.Machine
