import SszArchive.Proofs.Varint
import SszArchive.Wire

/-!
Reading back what was written. `Reads r b a` says that `r` reads the bytes `b` as `a` whatever
follows them, so it composes along the fields of a payload; `Finishes r b a` says that `r` reads
`b` as `a` when nothing follows.
-/

namespace SszArchive

/-! ## Signed words -/

namespace ZigZag

theorem decode_encode (v : Int64) : decode (encode v) = v := by
  have hlow := v.le_toInt
  have hhigh := v.toInt_lt
  simp only [encode, decode]
  split
  · next hsign =>
    have hnat : (UInt64.ofNat (2 * v.toInt.toNat)).toNat = 2 * v.toInt.toNat := by
      rw [UInt64.toNat_ofNat', Nat.mod_eq_of_lt (by omega)]
    rw [hnat, if_pos (by omega), Nat.mul_div_cancel_left _ (by decide), Int.toNat_of_nonneg hsign,
      Int64.ofInt_toInt]
  · next hsign =>
    have hnat : (UInt64.ofNat (2 * (-v.toInt).toNat - 1)).toNat = 2 * (-v.toInt).toNat - 1 := by
      rw [UInt64.toNat_ofNat', Nat.mod_eq_of_lt (by omega)]
    have hvalue : -(((2 * (-v.toInt).toNat - 1) / 2 : Nat) : Int) - 1 = v.toInt := by omega
    rw [hnat, if_neg (by omega), hvalue, Int64.ofInt_toInt]

theorem toInt_decode (w : UInt64) :
    (decode w).toInt =
      if w.toNat % 2 = 0 then ((w.toNat / 2 : Nat) : Int)
      else -((w.toNat / 2 : Nat) : Int) - 1 := by
  have hlt := w.toNat_lt
  rw [decode]
  split
  · exact Int64.toInt_ofInt_of_le (by omega) (by omega)
  · exact Int64.toInt_ofInt_of_le (by omega) (by omega)

theorem encode_decode (w : UInt64) : encode (decode w) = w := by
  have hlt := w.toNat_lt
  apply UInt64.toNat_inj.1
  simp only [encode, toInt_decode]
  by_cases heven : w.toNat % 2 = 0
  · simp only [heven, if_true]
    rw [if_pos (by omega), UInt64.toNat_ofNat']
    omega
  · simp only [heven, if_false]
    rw [if_neg (by omega), UInt64.toNat_ofNat']
    omega

end ZigZag

namespace Wire

/-! ## Readers -/

/-- Wherever the bytes `b` come next, `r` reads them as `a` and stops behind them. -/
def Reads (r : Reader α) (b : Bytes) (a : α) : Prop :=
  ∀ position rest, r ⟨position, b ++ rest⟩ = .ok a ⟨position + b.length, rest⟩

/-- When `b` is all that is left, `r` reads it as `a`. -/
def Finishes (r : Reader α) (b : Bytes) (a : α) : Prop :=
  ∀ position, r ⟨position, b⟩ = .ok a ⟨position + b.length, []⟩

theorem bind_of_ok {r : Reader α} {f : α → Reader β} {c d : Cursor} {a : α}
    (h : r c = .ok a d) : (r >>= f) c = f a d := by
  show EStateM.bind r f c = f a d
  rw [EStateM.bind, h]

namespace Reads

theorem pure (a : α) : Reads (pure a) [] a := fun _ _ => rfl

theorem bind {r : Reader α} {f : α → Reader β} {b c : Bytes} {a : α} {x : β}
    (hr : Reads r b a) (hf : Reads (f a) c x) : Reads (r >>= f) (b ++ c) x := by
  intro position rest
  rw [List.append_assoc, bind_of_ok (hr position (c ++ rest)), hf, List.length_append,
    Nat.add_assoc]

/-- A last step that reads nothing. -/
theorem map {r : Reader α} {b : Bytes} {a : α} (hr : Reads r b a) (f : α → β) :
    Reads (r >>= fun x => Pure.pure (f x)) b (f a) := by
  have h := hr.bind (f := fun x => Pure.pure (f x)) (pure (f a))
  rwa [List.append_nil] at h

theorem int (v : UInt64) : Reads Reader.int (Wire.int v) v := by
  intro position rest
  simp only [Reader.int, Wire.int, Varint.decode_encode, Cursor.advance, List.drop_left]

theorem count {n : Nat} (h : n < UInt64.size) : Reads Reader.count (Wire.count n) n := by
  have hn := (int (UInt64.ofNat n)).map UInt64.toNat
  rwa [UInt64.toNat_ofNat', Nat.mod_eq_of_lt h] at hn

theorem signed (v : Int64) : Reads Reader.signed (Wire.signed v) v := by
  have h := (int (ZigZag.encode v)).map ZigZag.decode
  rwa [ZigZag.decode_encode] at h

theorem take (b : Bytes) : Reads (Reader.take b.length) b b := by
  intro position rest
  simp [Reader.take, Cursor.advance]

theorem block {b : Bytes} (h : b.length < UInt64.size) : Reads Reader.block (Wire.block b) b :=
  (count h).bind (take b)

theorem range (low high : UInt64) : Reads Reader.range (Wire.range low high) (low, high) :=
  (int low).bind ((int high).map fun h => (low, h))

theorem times {item : Reader α} {encode : α → Bytes} {xs : List α}
    (h : ∀ x ∈ xs, Reads item (encode x) x) :
    Reads (Reader.times item xs.length) (xs.flatMap encode) xs := by
  induction xs with
  | nil => exact pure []
  | cons x xs ih =>
    have hx := h x (List.mem_cons_self ..)
    have hxs := ih fun y hy => h y (List.mem_cons_of_mem _ hy)
    exact hx.bind (hxs.map fun others => x :: others)

/-- Items behind their number. -/
theorem list {item : Reader α} {encode : α → Bytes} {xs : List α} (hn : xs.length < UInt64.size)
    (h : ∀ x ∈ xs, Reads item (encode x) x) :
    Reads (Reader.list item) (Wire.count xs.length ++ xs.flatMap encode) xs :=
  (count hn).bind (times h)

end Reads

namespace Finishes

theorem finish (a : α) : Finishes (Reader.finish >>= fun _ => pure a) [] a := fun _ => rfl

theorem bind {r : Reader α} {f : α → Reader β} {b c : Bytes} {a : α} {x : β}
    (hr : Reads r b a) (hf : Finishes (f a) c x) : Finishes (r >>= f) (b ++ c) x := by
  intro position
  rw [bind_of_ok (hr position c), hf, List.length_append, Nat.add_assoc]

theorem run {r : Reader α} {b : Bytes} {a : α} (h : Finishes r b a) : r.run b = .ok a := by
  rw [Reader.run, Cursor.start, h 0]

end Finishes

/-! ## Sizes -/

/-- Byte strings in memory stay below this length, which fits a signed word. -/
def bufferBound : Nat := 1 <<< 63

theorem bufferBound_lt : bufferBound < UInt64.size := by decide

theorem length_lt_block (b : Bytes) : b.length < (block b).length := by
  have hcount : 0 < (count b.length).length := List.length_pos_iff.2 (Varint.encode_ne_nil _)
  rw [block, List.length_append]
  omega

end Wire

end SszArchive
