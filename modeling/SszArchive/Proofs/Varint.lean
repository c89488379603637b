import Mathlib.Algebra.Group.Nat.Defs
import Mathlib.Data.Nat.Log
import SszArchive.Varint

/-!
Reading a varint gives back the number that was written, whatever bytes follow it, and a number
that is read was written just so: no other bytes are accepted for it.
-/

namespace SszArchive.Varint

theorem encodeNat_of_lt {n : Nat} (h : n < 128) : encodeNat n = [UInt8.ofNat n] := by
  rw [encodeNat, if_pos h]

theorem encodeNat_of_ge {n : Nat} (h : 128 ≤ n) :
    encodeNat n = UInt8.ofNat (n % 128 + 128) :: encodeNat (n / 128) := by
  rw [encodeNat, if_neg (by omega)]

theorem encodeNat_ne_nil (n : Nat) : encodeNat n ≠ [] := by
  rw [encodeNat]
  split <;> simp

theorem encode_ne_nil (v : UInt64) : encode v ≠ [] := encodeNat_ne_nil v.toNat

private theorem toNat_ofNat {n : Nat} (h : n < 256) : (UInt8.ofNat n).toNat = n := by
  rw [UInt8.toNat_ofNat']
  omega

/-- A number that fits into the groups from number `i` on is read back. Behind the first group it
has to be positive, since a last group of zero is refused. -/
theorem decodeFrom_encodeNat (i n : Nat) (rest : Bytes) (hi : i ≤ 9)
    (hn : n * 128 ^ i < UInt64.size) (hpos : 0 < i → 0 < n) :
    decodeFrom i (encodeNat n ++ rest) = .ok (n, (encodeNat n).length) := by
  induction n using Nat.strongRecOn generalizing i with
  | ind n ih =>
    have hlast : i = 9 → n < 2 := by
      rintro rfl
      simp only [UInt64.size] at hn
      omega
    by_cases h : n < 128
    · have hb : (UInt8.ofNat n).toNat = n := toNat_ofNat (by omega)
      have hzero : ¬ (0 < i ∧ UInt8.ofNat n = 0) := by
        rintro ⟨h0, he⟩
        have := congrArg UInt8.toNat he
        rw [hb] at this
        have := hpos h0
        simp_all
      have hsmall : ¬ (i = 9 ∧ 1 < n % 128) := fun ⟨he, hl⟩ => by
        have := hlast he
        omega
      rw [encodeNat_of_lt h, List.singleton_append, decodeFrom, hb, if_neg (by omega),
        if_neg hsmall, if_pos h, if_neg hzero]
      rfl
    · have hb : (UInt8.ofNat (n % 128 + 128)).toNat = n % 128 + 128 := toNat_ofNat (by omega)
      have hnext : n / 128 * 128 ^ (i + 1) < UInt64.size := by
        have hle : n / 128 * 128 ≤ n := Nat.div_mul_le_self n 128
        calc n / 128 * 128 ^ (i + 1) = n / 128 * 128 * 128 ^ i := by
              rw [Nat.pow_succ, Nat.mul_comm (128 ^ i), Nat.mul_assoc]
          _ ≤ n * 128 ^ i := Nat.mul_le_mul_right _ hle
          _ < UInt64.size := hn
      have hi' : i ≠ 9 := fun he => by
        have := hlast he
        omega
      have hrest := ih (n / 128) (by omega) (i + 1) (by omega) hnext (fun _ => by omega)
      rw [encodeNat_of_ge (by omega), List.cons_append, decodeFrom, hb, if_neg (by omega),
        if_neg (by omega), if_neg (by omega), hrest]
      simp only [List.length_cons]
      congr 2
      omega

theorem decode_encode (v : UInt64) (rest : Bytes) :
    decode (encode v ++ rest) = .ok (v, (encode v).length) := by
  have h := decodeFrom_encodeNat 0 v.toNat rest (by omega)
    (by simpa using v.toNat_lt) (by omega)
  rw [decode, encode, h]
  simp

/-! ## Accepted bytes -/

/-- What is read from group number `i` on fits into the groups that are left, is positive behind
the first group, and stands there in its one encoding. -/
theorem encodeNat_of_decodeFrom {i n used : Nat} {data : Bytes} (hi : i ≤ 10)
    (h : decodeFrom i data = .ok (n, used)) :
    i ≤ 9 ∧ n < 2 * 128 ^ (9 - i) ∧ (0 < i → 0 < n) ∧
      ∃ rest, data = encodeNat n ++ rest ∧ used = (encodeNat n).length := by
  induction data generalizing i n used with
  | nil => cases h
  | cons b data ih =>
    rw [decodeFrom] at h
    by_cases hten : i = 10
    · rw [if_pos hten] at h
      cases h
    rw [if_neg hten] at h
    by_cases hlarge : i = 9 ∧ 1 < b.toNat % 128
    · rw [if_pos hlarge] at h
      cases h
    rw [if_neg hlarge] at h
    by_cases hb : b.toNat < 128
    · rw [if_pos hb] at h
      by_cases hzero : 0 < i ∧ b = 0
      · rw [if_pos hzero] at h
        cases h
      rw [if_neg hzero] at h
      cases h
      refine ⟨by omega, ?_, fun hpos => ?_, data, ?_, ?_⟩
      · by_cases hnine : i = 9
        · subst hnine
          omega
        · have hpow : 0 < 128 ^ (8 - i) := Nat.pow_pos (by omega)
          rw [show 9 - i = 8 - i + 1 by omega, Nat.pow_succ]
          omega
      · have hne : b.toNat ≠ 0 := fun h0 => hzero ⟨hpos, UInt8.toNat_inj.1 h0⟩
        omega
      · rw [encodeNat_of_lt hb, UInt8.ofNat_toNat, List.singleton_append]
      · rw [encodeNat_of_lt hb, List.length_singleton]
    · rw [if_neg hb] at h
      cases hrest : decodeFrom (i + 1) data with
      | error e =>
        rw [hrest] at h
        cases h
      | ok read =>
        obtain ⟨high, more⟩ := read
        rw [hrest] at h
        cases h
        obtain ⟨hnine, hhigh, hpos, rest, rfl, rfl⟩ := ih (by omega) hrest
        have hpos := hpos (by omega)
        have hpow : 128 ^ (9 - i) = 128 * 128 ^ (9 - (i + 1)) := by
          rw [show 9 - i = 9 - (i + 1) + 1 by omega, Nat.pow_succ, Nat.mul_comm]
        have hmod : (b.toNat % 128 + 128 * high) % 128 = b.toNat % 128 := by omega
        have hdiv : (b.toNat % 128 + 128 * high) / 128 = high := by omega
        have hbyte : UInt8.ofNat (b.toNat % 128 + 128) = b := by
          have hlt := b.toNat_lt
          rw [show b.toNat % 128 + 128 = b.toNat by omega, UInt8.ofNat_toNat]
        have hge : 128 ≤ b.toNat % 128 + 128 * high := by omega
        rw [encodeNat_of_ge hge, hmod, hdiv, hbyte]
        exact ⟨by omega, by omega, fun _ => by omega, rest, rfl, rfl⟩

/-- **One number, one encoding.** -/
theorem encode_of_decode {data : Bytes} {v : UInt64} {used : Nat}
    (h : decode data = .ok (v, used)) :
    ∃ rest, data = encode v ++ rest ∧ used = (encode v).length := by
  unfold decode at h
  split at h
  · next n used hread =>
    cases h
    obtain ⟨-, hn, -, rest, hdata, hused⟩ := encodeNat_of_decodeFrom (by omega) hread
    have hv : (UInt64.ofNat n).toNat = n := by
      rw [UInt64.toNat_ofNat']
      omega
    rw [encode, hv]
    exact ⟨rest, hdata, hused⟩
  · cases h

/-! ## Sizes -/

theorem log2_div_pow (n k : Nat) : (n / 2 ^ k).log2 = n.log2 - k := by
  rw [Nat.log2_eq_log_two, Nat.log2_eq_log_two, Nat.log_div_base_pow]

/-- A byte for every started group of seven bits. -/
theorem length_encodeNat (n : Nat) : (encodeNat n).length = n.log2 / 7 + 1 := by
  induction n using Nat.strongRecOn with
  | ind n ih =>
    by_cases h : n < 128
    · have hlog : n.log2 < 7 := by
        by_cases hzero : n = 0
        · rw [hzero]
          decide
        · exact (Nat.log2_lt hzero).2 h
      rw [encodeNat_of_lt h, List.length_singleton, Nat.div_eq_of_lt hlog]
    · have hlog : 7 ≤ n.log2 := (Nat.le_log2 (by omega)).2 (by omega)
      have hdiv : (n / 128).log2 = n.log2 - 7 := log2_div_pow n 7
      rw [encodeNat_of_ge (by omega), List.length_cons, ih (n / 128) (by omega), hdiv]
      omega

theorem length_encode (v : UInt64) : (encode v).length = size v := length_encodeNat v.toNat

theorem log2_lt (v : UInt64) : v.toNat.log2 < 64 := by
  by_cases hzero : v.toNat = 0
  · rw [hzero]
    decide
  · exact (Nat.log2_lt hzero).2 v.toNat_lt

theorem size_le (v : UInt64) : size v ≤ 10 := by
  have hlog := log2_lt v
  rw [size]
  omega

/-! ## One encoding -/

theorem decode_eq_iff_take {data : Bytes} {v : UInt64} {used : Nat} :
    decode data = .ok (v, used) ↔ used = size v ∧ data.take used = encode v := by
  constructor
  · intro h
    obtain ⟨rest, rfl, rfl⟩ := encode_of_decode h
    exact ⟨length_encode v, List.take_left⟩
  · rintro ⟨rfl, h⟩
    rw [← List.take_append_drop (size v) data, h, decode_encode, length_encode]

/-- No encoding is the beginning of another one. -/
theorem encode_prefix_iff {v w : UInt64} : encode v <+: encode w ↔ v = w := by
  constructor
  · rintro ⟨rest, h⟩
    have hv := decode_encode v rest
    have hw := decode_encode w []
    rw [List.append_nil, ← h, hv] at hw
    exact congrArg Prod.fst (Except.ok.inj hw)
  · rintro rfl
    exact List.prefix_refl _

end SszArchive.Varint
