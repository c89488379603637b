import SszArchive.Proofs.Machine.Selecting
import Mathlib.Data.Set.Basic
import Mathlib.Logic.Relation

/-!
The set of tree nodes a selector stands for. The tree is unbounded: its nodes are numbers, each
with two children, and a subtree is what the child relation reaches. Selecting works on words
instead, by depths and one shift; the two agree because a node's ancestors are exactly its shifts.
-/

namespace SszArchive

open Relation (ReflTransGen TransGen)

/-! ## The tree -/

namespace GIndex

/-- One step down the tree. -/
inductive Child : Nat → Nat → Prop
  | left (i : Nat) : Child i (2 * i)
  | right (i : Nat) : Child i (2 * i + 1)

theorem child_iff {i n : Nat} : Child i n ↔ n / 2 = i := by
  constructor
  · rintro (_ | _) <;> omega
  · rintro rfl
    obtain h | h := Nat.mod_two_eq_zero_or_one n
    · have hn : 2 * (n / 2) = n := by omega
      simpa only [hn] using Child.left (n / 2)
    · have hn : 2 * (n / 2) + 1 = n := by omega
      simpa only [hn] using Child.right (n / 2)

/-- What lies above a node is what is left of it when low bits are dropped. -/
theorem reaches_iff {a n : Nat} : ReflTransGen Child a n ↔ ∃ k, n >>> k = a := by
  constructor
  · intro h
    -- along the path: the last step down appends the first bit to drop
    induction h with
    | refl => exact ⟨0, rfl⟩
    | tail _ hstep ih =>
      obtain ⟨k, hk⟩ := ih
      exact ⟨k + 1, by rw [Nat.shiftRight_succ_inside, child_iff.mp hstep, hk]⟩
  · rintro ⟨k, hk⟩
    induction k generalizing n with
    | zero => exact hk ▸ .refl
    | succ k ih =>
      rw [Nat.shiftRight_succ_inside] at hk
      exact (ih hk).tail (child_iff.mpr rfl)

theorem le_of_reaches {a n : Nat} (h : ReflTransGen Child a n) : a ≤ n := by
  obtain ⟨k, rfl⟩ := reaches_iff.mp h
  exact Nat.shiftRight_le n k

/-- Below a node every step goes to a larger number; 0 alone is a child of itself. -/
theorem lt_of_transGen {a n : Nat} (ha : 1 ≤ a) (h : TransGen Child a n) : a < n := by
  induction h with
  | single hstep =>
    have := child_iff.mp hstep
    omega
  | tail _ hstep ih =>
    have := child_iff.mp hstep
    omega

theorem transGen_iff {a n : Nat} (ha : 1 ≤ a) :
    TransGen Child a n ↔ ReflTransGen Child a n ∧ n ≠ a := by
  constructor
  · exact fun h => ⟨h.to_reflTransGen, (lt_of_transGen ha h).ne'⟩
  · rintro ⟨h, hne⟩
    exact (Relation.reflTransGen_iff_eq_or_transGen.mp h).resolve_left hne

/-! ## Ancestors by depth -/

/-- The shift `isAncestor` tries is the only one that can leave `a`. -/
theorem depth_sub_depth {a g : GIndex} {k : Nat} (ha : 1 ≤ a.toNat)
    (hk : g.toNat >>> k = a.toNat) : depth a ≤ depth g ∧ depth g - depth a = k := by
  have hpow : 2 ^ k ≤ g.toNat := by
    rw [← hk, Nat.shiftRight_eq_div_pow] at ha
    exact (Nat.div_pos_iff.mp ha).2
  have hlog : k ≤ g.toNat.log2 := (Nat.le_log2 (by have := Nat.two_pow_pos k; omega)).2 hpow
  have hdepth : depth a = depth g - k := by
    rw [depth, depth, ← hk, Nat.shiftRight_eq_div_pow, Varint.log2_div_pow]
  unfold depth at *
  omega

theorem valid_iff {g : GIndex} : valid g = true ↔ 1 ≤ g.toNat := by
  rw [valid, bne_iff_ne, ne_eq, ← UInt64.toNat_inj, Nat.one_le_iff_ne_zero]
  rfl

theorem isAncestor_iff {a g : GIndex} :
    isAncestor a g = true ↔ 1 ≤ a.toNat ∧ ReflTransGen Child a.toNat g.toNat := by
  simp only [isAncestor, Bool.and_eq_true, valid_iff, decide_eq_true_eq, beq_iff_eq, reaches_iff]
  constructor
  · rintro ⟨⟨⟨ha, _⟩, _⟩, hshift⟩
    exact ⟨ha, _, hshift⟩
  · rintro ⟨ha, k, hk⟩
    obtain ⟨hle, hsub⟩ := depth_sub_depth ha hk
    have hg : 1 ≤ g.toNat := ha.trans (hk ▸ Nat.shiftRight_le g.toNat k)
    exact ⟨⟨⟨ha, hg⟩, hle⟩, by rw [hsub, hk]⟩

end GIndex

/-! ## Selectors -/

namespace Selector

open GIndex (Child)

/-- The nodes of the unbounded tree that the selector stands for. -/
def nodes : Selector → Set Nat
  | all => {n | 1 ≤ n}
  | descendants root true => {n | 1 ≤ root.toNat ∧ ReflTransGen Child root.toNat n}
  | descendants root false => {n | 1 ≤ root.toNat ∧ TransGen Child root.toNat n}
  | union a b => a.nodes ∪ b.nodes
  | subtract a b => a.nodes \ b.nodes

theorem mem_invert {s : Selector} {n : Nat} :
    n ∈ s.invert.nodes ↔ 1 ≤ n ∧ n ∉ s.nodes := Iff.rfl

theorem mem_successors {root : GIndex} {n : Nat} :
    n ∈ (successors root).nodes ↔ n ∈ (subtree root).nodes ∧ n ≠ root.toNat := by
  show (1 ≤ root.toNat ∧ TransGen Child root.toNat n) ↔
    (1 ≤ root.toNat ∧ ReflTransGen Child root.toNat n) ∧ n ≠ root.toNat
  rw [and_assoc]
  exact and_congr_right GIndex.transGen_iff

theorem selects_subtree_iff {root g : GIndex} :
    (subtree root).selects g = true ↔ g.toNat ∈ (subtree root).nodes := by
  rw [subtree, selects, Bool.true_or, Bool.and_true]
  exact GIndex.isAncestor_iff

theorem selects_successors_iff {root g : GIndex} :
    (successors root).selects g = true ↔ g.toNat ∈ (successors root).nodes := by
  have hselects : (successors root).selects g = ((subtree root).selects g && g != root) := by
    simp only [successors, subtree, selects, Bool.false_or, Bool.true_or, Bool.and_true]
  rw [hselects, Bool.and_eq_true, selects_subtree_iff, mem_successors, bne_iff_ne, ne_eq, ne_eq,
    UInt64.toNat_inj]

theorem selects_iff (s : Selector) (g : GIndex) :
    s.selects g = true ↔ g.toNat ∈ s.nodes := by
  induction s with
  | all => exact GIndex.valid_iff
  | descendants root inclusive =>
    cases inclusive with
    | true => exact selects_subtree_iff
    | false => exact selects_successors_iff
  | union a b iha ihb =>
    rw [selects, Bool.or_eq_true, iha, ihb]
    exact Iff.rfl
  | subtract a b iha ihb =>
    rw [selects, Bool.and_eq_true, Bool.not_eq_true', ← Bool.not_eq_true, iha, ihb]
    exact Iff.rfl

/-- 0 is not a node, and no selector stands for it. -/
theorem one_le_of_mem {s : Selector} {n : Nat} (h : n ∈ s.nodes) : 1 ≤ n := by
  induction s with
  | all => exact h
  | descendants root inclusive =>
    cases inclusive with
    | true => exact h.1.trans (GIndex.le_of_reaches h.2)
    | false => exact h.1.trans (GIndex.le_of_reaches h.2.to_reflTransGen)
  | union a b iha ihb => exact h.elim iha ihb
  | subtract a b iha _ => exact iha h.1

end Selector

/-! ## Selecting -/

namespace Machine

/-- **Selectors denote sets of nodes.** A word is selected exactly when it numbers a node that the
selector stands for in the unbounded tree, and selecting never fails. No selector picks 0, and a
selector and its inverse share out the other words. -/
theorem selectors_denote_sets (s : Selector) (g : GIndex) :
    (selects s g : Exec ε Bool) = .ok (s.selects g) ∧
      (s.selects g = true ↔ g.toNat ∈ s.nodes) ∧
      s.selects 0 = false ∧
      s.invert.nodes = {n | 1 ≤ n ∧ n ∉ s.nodes} ∧
      (Xor (s.selects g = true) (s.invert.selects g = true) ↔ 1 ≤ g.toNat) := by
  refine ⟨selects_eq s g, s.selects_iff g, ?_, Set.ext fun n => Selector.mem_invert, ?_⟩
  · rw [← Bool.not_eq_true, s.selects_iff 0]
    intro hzero
    exact absurd (Selector.one_le_of_mem hzero) (by decide)
  · rw [s.selects_iff, s.invert.selects_iff, Selector.mem_invert]
    constructor
    · rintro (⟨hin, _⟩ | ⟨hout, _⟩)
      · exact Selector.one_le_of_mem hin
      · exact hout.1
    · intro hg
      by_cases hin : g.toNat ∈ s.nodes
      · exact .inl ⟨hin, fun hout => hout.2 hin⟩
      · exact .inr ⟨⟨hg, hin⟩, hin⟩

example : (Selector.subtract (.successors 6) (.subtree 13)).selects 12 = true := by decide

end Machine

end SszArchive
