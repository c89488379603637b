import SszArchive.Proofs.Machine.Reading
import SszArchive.Proofs.Machine.Selecting

/-!
Writing on words. A varint is put together in a buffer of ten bytes, group by group from the low
end, and a signed number is folded by its bits; what is written then goes behind what has been
written before. Main statement: the buffer always has room, and the bytes that a number leaves in
it are its only encoding.
-/

namespace SszArchive.Machine

open Wire (bufferBound)

/-! ## Integers -/

theorem toNat_shiftRight_seven (v : UInt64) : (v >>> 7).toNat = v.toNat / 128 := by
  rw [UInt64.toNat_shiftRight]
  exact Nat.shiftRight_eq_div_pow ..

theorem shiftRight_seven_eq_zero_iff {v : UInt64} : v >>> 7 = 0 ↔ v.toNat < 128 := by
  rw [← UInt64.toNat_inj, toNat_shiftRight_seven, UInt64.toNat_zero]
  omega

/-- Writes the groups of `v` from place `i` of a buffer on; ends with the place behind them. -/
def encodeFrom (buffer : Bytes) (i : Nat) (v : UInt64) : Exec ε (Bytes × Nat) :=
  let group := (v &&& 0x7f).toUInt8
  let above := v >>> 7
  if above = 0 then do
    let buffer ← update buffer i fun _ => group
    let used ← add i 1
    return (buffer, used)
  else do
    let buffer ← update buffer i fun _ => group ||| 0x80
    let next ← add i 1
    encodeFrom buffer next above
termination_by v.toNat
decreasing_by
  have hlarge := mt shiftRight_seven_eq_zero_iff.2 ‹¬ v >>> 7 = 0›
  have habove := toNat_shiftRight_seven v
  omega

/-- Writes `v` to the front of a buffer; ends with the number of bytes written. -/
def encodeInto (buffer : Bytes) (v : UInt64) : Exec ε (Bytes × Nat) := encodeFrom buffer 0 v

/-- The number of bytes of a varint, counted from the leading zeros. -/
def encodedSize (v : UInt64) : Exec ε Nat := do
  let bits ← sub 64 (leadingZeros v)
  return min ((max bits 1 + 6) / 7) 10

theorem update_append {front back : List α} {x : α} {f : α → α} :
    (update (front ++ x :: back) front.length f : Exec ε (List α)) =
      .ok (front ++ f x :: back) := by
  have hlt : front.length < (front ++ x :: back).length := by simp
  rw [update, within_of hlt, List.modify_eq_take_cons_drop hlt]
  simp

private theorem group_eq (v : UInt64) : (v &&& 0x7f).toUInt8 = UInt8.ofNat (v.toNat % 128) := by
  have hlow : v.toNat &&& 0x7f = v.toNat % 128 := Nat.and_two_pow_sub_one_eq_mod v.toNat 7
  apply UInt8.toNat_inj.1
  rw [UInt64.toNat_toUInt8, UInt64.toNat_and, UInt8.toNat_ofNat']
  exact congrArg (· % 256) hlow

private theorem continued_eq {n : Nat} (h : n < 128) :
    UInt8.ofNat n ||| 0x80 = UInt8.ofNat (n + 128) := by
  have hor := Nat.two_pow_add_eq_or_of_lt (i := 7) h 1
  apply UInt8.toNat_inj.1
  rw [UInt8.toNat_or, UInt8.toNat_ofNat', UInt8.toNat_ofNat', Nat.mod_eq_of_lt (by omega),
    Nat.mod_eq_of_lt (by omega), Nat.or_comm, Nat.add_comm]
  exact hor.symm

private theorem encode_of_lt {v : UInt64} (h : v.toNat < 128) :
    Varint.encode v = [UInt8.ofNat v.toNat] :=
  Varint.encodeNat_of_lt h

private theorem encode_of_ge {v : UInt64} (h : 128 ≤ v.toNat) :
    Varint.encode v = UInt8.ofNat (v.toNat % 128 + 128) :: Varint.encode (v >>> 7) := by
  rw [Varint.encode, Varint.encodeNat_of_ge h, Varint.encode, toNat_shiftRight_seven]

section Step

variable {front back : Bytes} {x : UInt8} {v : UInt64}

private theorem encodeFrom_of_lt (h : v.toNat < 128) (hlt : front.length + 1 < UInt64.size) :
    (encodeFrom (front ++ x :: back) front.length v : Exec ε (Bytes × Nat)) =
      .ok (front ++ UInt8.ofNat v.toNat :: back, front.length + 1) := by
  rw [encodeFrom, update_append]
  simp only [if_pos (shiftRight_seven_eq_zero_iff.2 h), group_eq, Nat.mod_eq_of_lt h, ok_bind,
    add_of_lt hlt]
  rfl

private theorem encodeFrom_of_ge (h : 128 ≤ v.toNat) (hlt : front.length + 1 < UInt64.size) :
    (encodeFrom (front ++ x :: back) front.length v : Exec ε (Bytes × Nat)) =
      encodeFrom (front ++ UInt8.ofNat (v.toNat % 128 + 128) :: back) (front.length + 1)
        (v >>> 7) := by
  have hmore : v >>> 7 ≠ 0 := mt shiftRight_seven_eq_zero_iff.1 (Nat.not_lt.2 h)
  have hgroup : v.toNat % 128 < 128 := Nat.mod_lt _ (by decide)
  rw [encodeFrom, update_append, update_append]
  simp only [if_neg hmore, group_eq, continued_eq hgroup, ok_bind, add_of_lt hlt]

end Step

/-- What stands in front stays, and so do the bytes behind the encoding. -/
theorem encodeFrom_eq {front back : Bytes} {v : UInt64}
    (hroom : (Varint.encode v).length ≤ back.length)
    (hlt : (front ++ back).length < UInt64.size) :
    (encodeFrom (front ++ back) front.length v : Exec ε (Bytes × Nat)) =
      .ok (front ++ (Varint.encode v ++ back.drop (Varint.encode v).length),
        front.length + (Varint.encode v).length) := by
  induction hn : v.toNat using Nat.strongRecOn generalizing v front back with
  | ind n ih =>
    subst hn
    rw [List.length_append] at hlt
    cases back with
    | nil =>
      have hnil := List.eq_nil_of_length_eq_zero (Nat.le_zero.1 hroom)
      exact absurd hnil (Varint.encode_ne_nil v)
    | cons x back =>
      rw [List.length_cons] at hroom hlt
      by_cases hlast : v.toNat < 128
      · rw [encodeFrom_of_lt hlast (by omega), encode_of_lt hlast]
        rfl
      · have hmore := Nat.not_lt.1 hlast
        have habove := toNat_shiftRight_seven v
        rw [encode_of_ge hmore] at hroom ⊢
        rw [List.length_cons] at hroom ⊢
        have hrest := @ih (v >>> 7).toNat (by omega)
          (front ++ [UInt8.ofNat (v.toNat % 128 + 128)]) back (v >>> 7) (by omega)
          (by simp only [List.length_append, List.length_singleton]; omega) rfl
        simp only [List.append_assoc, List.singleton_append, List.length_append,
          List.length_singleton] at hrest
        rw [encodeFrom_of_ge hmore (by omega), hrest, List.drop_succ_cons, List.cons_append,
          Nat.add_assoc, Nat.add_comm 1]

theorem encodeInto_eq {buffer : Bytes} (hbuffer : buffer.length = 10) (v : UInt64) :
    (encodeInto buffer v : Exec ε (Bytes × Nat)) =
      .ok (Varint.encode v ++ buffer.drop (Varint.size v), Varint.size v) := by
  have hroom : (Varint.encode v).length ≤ buffer.length := by
    rw [Varint.length_encode, hbuffer]
    exact Varint.size_le v
  have hlt : ([] ++ buffer).length < UInt64.size := by
    rw [List.nil_append, hbuffer]
    decide
  have hwritten := encodeFrom_eq (ε := ε) hroom hlt
  rwa [List.nil_append, List.nil_append, List.length_nil, Nat.zero_add, Varint.length_encode]
    at hwritten

theorem encodedSize_eq (v : UInt64) : (encodedSize v : Exec ε Nat) = .ok (Varint.size v) := by
  have hlog := Varint.log2_lt v
  rw [encodedSize, leadingZeros, Varint.size]
  by_cases hzero : v = 0
  · rw [if_pos hzero, sub_of_le (Nat.le_refl _), hzero]
    rfl
  · rw [if_neg hzero, sub_of_le (by omega)]
    refine congrArg Except.ok ?_
    omega

/-- **A number has one encoding.** Written into any buffer of ten bytes it takes the front of it,
one to ten bytes as its size says, and the others stay as they were. Whatever follows, it is read
back with that size, and whatever is read stands in front in its encoding; so no encoding is the
beginning of another one. -/
theorem varint_canonical (v : UInt64) :
    (∀ buffer : Bytes, buffer.length = 10 →
      (encodeInto buffer v : Exec Varint.Fault (Bytes × Nat)) =
        .ok (Varint.encode v ++ buffer.drop (Varint.size v), Varint.size v)) ∧
    (encodedSize v : Exec Varint.Fault Nat) = .ok (Varint.size v) ∧
    (Varint.encode v).length = Varint.size v ∧ 1 ≤ Varint.size v ∧ Varint.size v ≤ 10 ∧
    (∀ data, decode data = checked (Varint.decode data)) ∧
    (∀ rest, Varint.decode (Varint.encode v ++ rest) = .ok (v, Varint.size v)) ∧
    (∀ data used, Varint.decode data = .ok (v, used) ↔
      used = Varint.size v ∧ data.take used = Varint.encode v) ∧
    ∀ w, Varint.encode v <+: Varint.encode w ↔ v = w := by
  refine ⟨fun buffer hbuffer => encodeInto_eq hbuffer v, encodedSize_eq v, Varint.length_encode v,
    Nat.le_add_left .., Varint.size_le v, fun data => ?_, fun rest => ?_,
    fun data used => Varint.decode_eq_iff_take, fun w => Varint.encode_prefix_iff⟩
  · rw [decode_eq]
    cases Varint.decode data <;> rfl
  · rw [Varint.decode_encode, Varint.length_encode]

/-- The last bit alone takes all ten bytes. -/
theorem varint_canonical_lastBit :
    (encodeInto (List.replicate 10 0xee) 0x8000000000000000 : Exec Varint.Fault (Bytes × Nat)) =
        .ok ([0x80, 0x80, 0x80, 0x80, 0x80, 0x80, 0x80, 0x80, 0x80, 0x01], 10) ∧
      Varint.decode [0x80, 0x80, 0x80, 0x80, 0x80, 0x80, 0x80, 0x80, 0x80, 0x01, 0xee] =
        .ok (0x8000000000000000, 10) := by
  have hcode : Varint.encode 0x8000000000000000 =
      [0x80, 0x80, 0x80, 0x80, 0x80, 0x80, 0x80, 0x80, 0x80, 0x01] := by
    simp [Varint.encode, Varint.encodeNat]
  have hsize : Varint.size 0x8000000000000000 = 10 := by decide
  obtain ⟨hwritten, -, -, -, -, -, hread, -⟩ := varint_canonical 0x8000000000000000
  rw [hcode, hsize] at hwritten hread
  exact ⟨hwritten (List.replicate 10 0xee) rfl, hread [0xee]⟩

/-! ## Signed numbers -/

/-- The bits moved up by one, inverted when the sign is set. -/
def toZigZag (v : Int64) : UInt64 := ((v <<< 1) ^^^ (v >>> 63)).toUInt64

/-- A word's sign in every bit. -/
private theorem shiftRight_sign (v : Int64) : v >>> 63 = if 0 ≤ v.toInt then 0 else -1 := by
  have hlow := v.le_toInt
  have hhigh := v.toInt_lt
  have hshift : (v >>> 63).toInt = v.toInt / 2 ^ 63 := by
    rw [← Int64.toInt_toBitVec, Int64.toBitVec_shiftRight]
    show (v.toBitVec.sshiftRight 63).toInt = _
    rw [BitVec.toInt_sshiftRight, Int64.toInt_toBitVec, Int.shiftRight_eq_div_pow]
    rfl
  apply Int64.toInt_inj.1
  rw [hshift]
  split
  · rw [Int64.toInt_zero]
    omega
  · show _ = (-1 : Int64).toInt
    rw [show (-1 : Int64).toInt = -1 from rfl]
    omega

private theorem toNat_shiftLeft_one (v : Int64) :
    (v <<< 1).toUInt64.toNat = 2 * v.toUInt64.toNat % 2 ^ 64 := by
  rw [← Int64.toNat_toBitVec, Int64.toBitVec_shiftLeft]
  show (v.toBitVec <<< 1).toNat = _
  rw [BitVec.toNat_shiftLeft, Int64.toNat_toBitVec, Nat.shiftLeft_eq, Nat.mul_comm]

/-- Signed and unsigned reading of one word. -/
private theorem toInt_cases (v : Int64) :
    (0 ≤ v.toInt ∧ v.toInt = v.toUInt64.toNat) ∨
      (v.toInt < 0 ∧ v.toInt = v.toUInt64.toNat - 2 ^ 64) := by
  have hcond := BitVec.toInt_eq_msb_cond v.toBitVec
  simp only [BitVec.msb_eq_toInt, Int64.toInt_toBitVec, Int64.toNat_toBitVec,
    decide_eq_true_eq] at hcond
  by_cases hsign : v.toInt < 0
  · rw [if_pos hsign] at hcond
    exact .inr ⟨hsign, hcond⟩
  · rw [if_neg hsign] at hcond
    exact .inl ⟨Int.not_lt.1 hsign, hcond⟩

theorem toZigZag_eq (v : Int64) : toZigZag v = ZigZag.encode v := by
  have hlow := v.le_toInt
  have hhigh := v.toInt_lt
  have hdouble := toNat_shiftLeft_one v
  apply UInt64.toNat_inj.1
  simp only [toZigZag, shiftRight_sign, ZigZag.encode]
  rcases toInt_cases v with ⟨hsign, hvalue⟩ | ⟨hsign, hvalue⟩
  · rw [if_pos hsign, if_pos hsign, Int64.xor_zero, hdouble, UInt64.toNat_ofNat']
    omega
  · rw [if_neg (Int.not_le.2 hsign), if_neg (Int.not_le.2 hsign), Int64.xor_neg_one,
      Int64.toUInt64_not, UInt64.toNat_not, hdouble, UInt64.toNat_ofNat', UInt64.size]
    omega

/-! ## Fields -/

/-- Puts bytes behind what has been written. -/
def append (more written : Bytes) : Exec ε Bytes := do
  reserve (written.length + more.length)
  return written ++ more

def writeInt (v : UInt64) (written : Bytes) : Exec ε Bytes := do
  let (buffer, used) ← encodeInto (List.replicate 10 0) v
  let encoding ← piece buffer 0 used
  append encoding written

def writeBlock (b written : Bytes) : Exec ε Bytes := do
  let written ← writeInt (UInt64.ofNat b.length) written
  append b written

def write : Wire.Field → Bytes → Exec ε Bytes
  | .int v, written => writeInt v written
  | .signed v, written => writeInt (toZigZag v) written
  | .bytes b, written => writeBlock b written
  | .range low high, written => do
      let written ← writeInt low written
      writeInt high written

def writeAll : List Wire.Field → Bytes → Exec ε Bytes
  | [], written => .ok written
  | f :: fields, written => do
      let written ← write f written
      writeAll fields written

theorem writeInt_eq (v : UInt64) (written : Bytes) :
    (writeInt v written : Exec ε Bytes) = append (Wire.int v) written := by
  have hroom : Varint.size v ≤
      (Varint.encode v ++ (List.replicate 10 0).drop (Varint.size v)).length := by
    rw [List.length_append, Varint.length_encode]
    exact Nat.le_add_right ..
  rw [writeInt, encodeInto_eq rfl, ok_bind]
  simp only [piece_of_le (Nat.zero_le _) hroom, ok_bind, List.drop_zero]
  rw [← Varint.length_encode, List.take_left]
  rfl

/-- `m` puts `b` behind what has been written, if there is room for it. -/
def Appends (m : Bytes → Exec ε Bytes) (b : Bytes) : Prop :=
  ∀ written, Refines (bufferBound ≤ (written ++ b).length) (· = ·) (m written) (.ok (written ++ b))

namespace Appends

theorem nil : Appends (.ok : Bytes → Exec ε Bytes) [] := fun written =>
  .ok (List.append_nil written).symm

/-- Where there is no room for the first part there is none for both. -/
theorem comp {m n : Bytes → Exec ε Bytes} {b c : Bytes} (hm : Appends m b) (hn : Appends n c) :
    Appends (fun written => m written >>= n) (b ++ c) := by
  intro written
  have hfirst := hm written
  rw [← List.append_assoc]
  show Refines _ _ (m written >>= n) _
  revert hfirst
  generalize m written = x
  intro hfirst
  cases hfirst with
  | ok h =>
    subst h
    exact hn (written ++ b)
  | outOfMemory h =>
    refine .outOfMemory ?_
    rw [List.length_append]
    omega

theorem append (b : Bytes) : Appends (Machine.append b : Bytes → Exec ε Bytes) b := by
  intro written
  rw [Machine.append, List.length_append]
  by_cases hroom : written.length + b.length < bufferBound
  · rw [reserve_of_lt hroom]
    exact .ok rfl
  · rw [reserve_of_ge (Nat.not_lt.1 hroom)]
    exact .outOfMemory (Nat.not_lt.1 hroom)

theorem int (v : UInt64) : Appends (writeInt v : Bytes → Exec ε Bytes) (Wire.int v) := by
  intro written
  rw [writeInt_eq]
  exact append (Wire.int v) written

theorem signed (v : Int64) :
    Appends (writeInt (toZigZag v) : Bytes → Exec ε Bytes) (Wire.signed v) := by
  rw [toZigZag_eq]
  exact int (ZigZag.encode v)

theorem block (b : Bytes) : Appends (writeBlock b : Bytes → Exec ε Bytes) (Wire.block b) :=
  (int (UInt64.ofNat b.length)).comp (append b)

theorem field (f : Wire.Field) : Appends (write f : Bytes → Exec ε Bytes) f.encode := by
  cases f with
  | int v => exact int v
  | signed v => exact signed v
  | bytes b => exact block b
  | range low high => exact (int low).comp (int high)

theorem fields (fields : List Wire.Field) :
    Appends (writeAll fields : Bytes → Exec ε Bytes) (Wire.encode fields) := by
  induction fields with
  | nil => exact nil
  | cons f fields ih => exact (field f).comp ih

end Appends

end SszArchive.Machine
