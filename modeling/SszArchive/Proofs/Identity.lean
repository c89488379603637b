import Mathlib.Algebra.Group.Nat.Defs
import SszArchive.Archive
import SszArchive.Proofs.Version

/-!
What an identifier binds. Both hashed strings split in one way only, so two transitions with the
same identifier are the same transition, or else two different strings have the same digest.
-/

namespace SszArchive

/-! ## Little-endian numbers -/

theorem ofLittleEndian_littleEndian {k n : Nat} (h : n < 256 ^ k) :
    ofLittleEndian (littleEndian k n) = n := by
  induction k generalizing n with
  | zero => exact (Nat.lt_one_iff.1 h).symm
  | succ k ih =>
    rw [Nat.pow_succ] at h
    rw [littleEndian, ofLittleEndian, ih (by omega), UInt8.toNat_ofNat']
    exact Nat.mod_add_div n 256

theorem littleEndian_inj {m n : Nat} (hm : m < UInt64.size) (hn : n < UInt64.size)
    (h : littleEndian 8 m = littleEndian 8 n) : m = n := by
  have hsize : UInt64.size = 256 ^ 8 := by decide
  rw [hsize] at hm hn
  rw [← ofLittleEndian_littleEndian hm, h, ofLittleEndian_littleEndian hn]

theorem wordBytes_inj {v w : UInt64} (h : wordBytes v = wordBytes w) : v = w :=
  UInt64.toNat_inj.1 (littleEndian_inj v.toNat_lt w.toNat_lt h)

/-! ## Hashed strings -/

/-- Three fields of fixed width come first, and the third tells how long the rest is. -/
theorem Slice.frame_append_inj {s t : Slice} {a b : Bytes} (hs : s.length < UInt64.size)
    (ht : t.length < UInt64.size) (h : s.frame ++ a = t.frame ++ b) : s = t ∧ a = b := by
  simp only [frame, List.append_assoc] at h
  obtain ⟨hnode, h⟩ := List.append_inj h (by simp only [wordBytes, length_littleEndian])
  obtain ⟨hoffset, h⟩ := List.append_inj h (by simp only [wordBytes, length_littleEndian])
  obtain ⟨hlength, h⟩ := List.append_inj h (by simp only [length_littleEndian])
  obtain ⟨hbytes, hrest⟩ := List.append_inj h (littleEndian_inj hs ht hlength)
  cases s
  cases t
  cases wordBytes_inj hnode
  cases wordBytes_inj hoffset
  cases hbytes
  exact ⟨rfl, hrest⟩

theorem flatMap_frame_inj {xs ys : List Slice} (hx : ∀ s ∈ xs, s.length < UInt64.size)
    (hy : ∀ s ∈ ys, s.length < UInt64.size) (hlength : xs.length = ys.length)
    (h : xs.flatMap Slice.frame = ys.flatMap Slice.frame) : xs = ys := by
  induction xs generalizing ys with
  | nil => exact (List.eq_nil_of_length_eq_zero hlength.symm).symm
  | cons x xs ih =>
    cases ys with
    | nil => cases hlength
    | cons y ys =>
      rw [List.flatMap_cons, List.flatMap_cons] at h
      obtain ⟨rfl, hrest⟩ :=
        Slice.frame_append_inj (hx x (List.mem_cons_self ..)) (hy y (List.mem_cons_self ..)) h
      rw [ih (fun s hs => hx s (List.mem_cons_of_mem _ hs))
        (fun s hs => hy s (List.mem_cons_of_mem _ hs)) (Nat.succ.inj hlength) hrest]

theorem Version.frame_inj {v w : Version} (h : v.frame = w.frame) : v = w := by
  obtain ⟨hsize, hslices⟩ := List.append_inj h (by simp only [length_littleEndian])
  exact ext (flatMap_frame_inj (fun _ => length_lt) (fun _ => length_lt)
    (littleEndian_inj v.size_lt w.size_lt hsize) hslices)

theorem Version.frame_eq_iff {v w : Version} : v.frame = w.frame ↔ v = w :=
  ⟨frame_inj, fun h => h ▸ rfl⟩

theorem DiffId.frame_inj {b t b' t' : Digest} {p p' : Bytes} (h : frame b t p = frame b' t' p') :
    b = b' ∧ t = t' ∧ p = p' := by
  simp only [frame, List.append_assoc] at h
  obtain ⟨hbase, h⟩ := List.append_inj h (by rw [b.length_eq, b'.length_eq])
  obtain ⟨htarget, hpayload⟩ := List.append_inj h (by rw [t.length_eq, t'.length_eq])
  exact ⟨Digest.ext hbase, Digest.ext htarget, hpayload⟩

theorem DiffId.frame_eq_iff {b t b' t' : Digest} {p p' : Bytes} :
    frame b t p = frame b' t' p' ↔ b = b' ∧ t = t' ∧ p = p' := by
  refine ⟨frame_inj, ?_⟩
  rintro ⟨rfl, rfl, rfl⟩
  rfl

/-! ## Collisions -/

/-- Two different strings of the list have the same digest. -/
def Collision (strings : List Bytes) : Prop :=
  ∃ a ∈ strings, ∃ b ∈ strings, a ≠ b ∧ Digest.of a = Digest.of b

theorem digest_inj_or_collision {strings : List Bytes} {a b : Bytes} (ha : a ∈ strings)
    (hb : b ∈ strings) (h : Digest.of a = Digest.of b) : a = b ∨ Collision strings := by
  by_cases hab : a = b
  · exact .inl hab
  · exact .inr ⟨a, ha, b, hb, hab, h⟩

/-- Equal digests are of one string or of a collision. -/
theorem digest_eq_iff {a b : Bytes} :
    Digest.of a = Digest.of b ↔ a = b ∨ (a ≠ b ∧ Sha256.hash a = Sha256.hash b) := by
  constructor
  · intro h
    by_cases hab : a = b
    · exact .inl hab
    · exact .inr ⟨hab, congrArg Digest.bytes h⟩
  · rintro (rfl | ⟨-, hhash⟩)
    · rfl
    · exact Digest.ext hhash

/-! ## Transitions -/

/-- A payload as the step between two versions. -/
structure Transition where
  base : Version
  target : Version
  payload : Bytes

namespace Transition

def id (c : Transition) : DiffId := .between c.base c.target c.payload

/-- The strings that are hashed for its identifier. -/
def hashed (c : Transition) : List Bytes :=
  [c.base.frame, c.target.frame, DiffId.frame c.base.identity c.target.identity c.payload]

/-- **Identifiers bind transitions**, short of a collision. -/
theorem id_inj_or_collision {c d : Transition} {strings : List Bytes} (hc : c.hashed ⊆ strings)
    (hd : d.hashed ⊆ strings) (h : c.id = d.id) : c = d ∨ Collision strings := by
  by_cases hnone : Collision strings
  · exact .inr hnone
  left
  simp only [hashed, List.cons_subset] at hc hd
  have hid := (digest_inj_or_collision hc.2.2.1 hd.2.2.1 (congrArg DiffId.digest h)).resolve_right
    hnone
  obtain ⟨hbase, htarget, hpayload⟩ := DiffId.frame_inj hid
  have hbase := (digest_inj_or_collision hc.1 hd.1 hbase).resolve_right hnone
  have htarget := (digest_inj_or_collision hc.2.1 hd.2.1 htarget).resolve_right hnone
  cases c
  cases d
  cases Version.frame_inj hbase
  cases Version.frame_inj htarget
  cases hpayload
  rfl

end Transition

/-- **Hashed strings are unambiguous.** The string that is hashed for a version is that of no other
version, whatever bytes its slices hold, and the string that is hashed for a diff is that of no
other identities and payload. So where two versions, two diffs or two transitions have the same
digest without being the same, two different strings with one digest are at hand. -/
theorem hashed_strings_unambiguous (v w : Version) (b t b' t' : Digest) (p p' : Bytes)
    (c d : Transition) :
    (v.frame = w.frame ↔ v = w) ∧
    (DiffId.frame b t p = DiffId.frame b' t' p' ↔ b = b' ∧ t = t' ∧ p = p') ∧
    (v.identity = w.identity ↔
      v = w ∨ (v.frame ≠ w.frame ∧ Sha256.hash v.frame = Sha256.hash w.frame)) ∧
    (DiffId.of b t p = DiffId.of b' t' p' ↔
      (b = b' ∧ t = t' ∧ p = p') ∨
        (DiffId.frame b t p ≠ DiffId.frame b' t' p' ∧
          Sha256.hash (DiffId.frame b t p) = Sha256.hash (DiffId.frame b' t' p'))) ∧
    (c.id = d.id → c = d ∨ Collision (c.hashed ++ d.hashed)) := by
  refine ⟨Version.frame_eq_iff, DiffId.frame_eq_iff, ?_, ?_, fun h => ?_⟩
  · exact digest_eq_iff.trans (or_congr_left Version.frame_eq_iff)
  · have hdigest : DiffId.of b t p = DiffId.of b' t' p' ↔
        Digest.of (DiffId.frame b t p) = Digest.of (DiffId.frame b' t' p') := by
      rw [DiffId.of, DiffId.of, DiffId.mk.injEq]
    exact hdigest.trans (digest_eq_iff.trans (or_congr_left DiffId.frame_eq_iff))
  · exact Transition.id_inj_or_collision (List.subset_append_left ..)
      (List.subset_append_right ..) h

end SszArchive
