import Mathlib.Tactic.Ring
import SszArchive.Proofs.Machine.Exec

/-!
Reading a payload by position. A scanner keeps the whole buffer and the place of the next byte,
and every reader is written out with the sums and the pieces it takes. `Follows` says that it does
what the reader of the library does and that the place never passes the end of the buffer.
-/

namespace SszArchive.Machine

open Wire (Cursor Reader bufferBound bufferBound_lt)

/-! ## Integers -/

/-- Collects groups of seven bits from group number `i` on. -/
def decodeFrom (i value : Nat) : Bytes → Exec Varint.Fault (Nat × Nat)
  | [] => report .underflow
  | b :: rest =>
    if i = 10 then report .overflow
    else if i = 9 ∧ 1 < b.toNat % 128 then report .overflow
    else do
      let distance ← mul 7 i
      let bits ← shiftLeft (b.toNat % 128) distance
      if b.toNat < 128 then
        if 0 < i ∧ b.toNat % 128 = 0 then report .nonCanonical
        else
          let used ← add i 1
          return (value ||| bits, used)
      else decodeFrom (i + 1) (value ||| bits) rest

def decode (data : Bytes) : Exec Varint.Fault (UInt64 × Nat) := do
  let (n, used) ← decodeFrom 0 0 data
  return (UInt64.ofNat n, used)

/-- Moved to its place, a group takes bits that the groups before it leave free. -/
private theorem or_shiftLeft {value : Nat} (group i : Nat) (h : value < 128 ^ i) :
    value ||| group <<< (7 * i) = value + group * 128 ^ i := by
  have hpow : 2 ^ (7 * i) = 128 ^ i := by rw [Nat.pow_mul]
  rw [Nat.or_comm, ← Nat.shiftLeft_add_eq_or_of_lt (hpow ▸ h), Nat.shiftLeft_eq, hpow,
    Nat.add_comm]

private theorem shiftLeft_group {group i : Nat} (hi : i ≤ 9) (hgroup : group < 128)
    (hlast : i = 9 → group ≤ 1) :
    (shiftLeft group (7 * i) : Exec ε Nat) = .ok (group <<< (7 * i)) := by
  have hpow : 2 ^ (7 * i) = 128 ^ i := by rw [Nat.pow_mul]
  have hlt : group * 128 ^ i < UInt64.size := by
    by_cases h : i = 9
    · have := hlast h
      subst h
      simp only [UInt64.size]
      omega
    · have hle : 128 ^ i ≤ 128 ^ 8 := Nat.pow_le_pow_right (by omega) (by omega)
      calc group * 128 ^ i ≤ 127 * 128 ^ 8 := Nat.mul_le_mul (by omega) hle
        _ < UInt64.size := by decide
  rw [shiftLeft, within_of (by omega), Nat.shiftLeft_eq, hpow, Nat.mod_eq_of_lt hlt]

theorem decodeFrom_eq {i value : Nat} (data : Bytes) (hi : i ≤ 10) (hvalue : value < 128 ^ i) :
    decodeFrom i value data =
      match Varint.decodeFrom i data with
      | .ok (n, used) => .ok (value + n * 128 ^ i, i + used)
      | .error e => .error (.fault e) := by
  induction data generalizing i value with
  | nil => rfl
  | cons b rest ih =>
    rw [decodeFrom, Varint.decodeFrom]
    by_cases hten : i = 10
    · rw [if_pos hten, if_pos hten]
      rfl
    rw [if_neg hten, if_neg hten]
    by_cases hlarge : i = 9 ∧ 1 < b.toNat % 128
    · rw [if_pos hlarge, if_pos hlarge]
      rfl
    rw [if_neg hlarge, if_neg hlarge, mul_of_lt (by simp only [UInt64.size]; omega), ok_bind,
      shiftLeft_group (by omega) (by omega) (by omega), ok_bind, or_shiftLeft _ _ hvalue]
    by_cases hb : b.toNat < 128
    · have hzero : (0 < i ∧ b = 0) ↔ 0 < i ∧ b.toNat % 128 = 0 := by
        rw [← UInt8.toNat_inj, Nat.mod_eq_of_lt hb]
        rfl
      rw [if_pos hb, if_pos hb, add_of_lt (by simp only [UInt64.size]; omega)]
      simp only [hzero]
      split
      · rfl
      · simp only [Nat.mod_eq_of_lt hb]
        rfl
    · have hnext : value + b.toNat % 128 * 128 ^ i < 128 ^ (i + 1) := by
        have hgroup : b.toNat % 128 * 128 ^ i ≤ 127 * 128 ^ i :=
          Nat.mul_le_mul_right _ (by omega)
        rw [Nat.pow_succ]
        omega
      rw [if_neg hb, if_neg hb, ih (by omega) hnext]
      cases Varint.decodeFrom (i + 1) rest with
      | error e => rfl
      | ok read =>
        obtain ⟨high, used⟩ := read
        simp only [Except.ok.injEq, Prod.mk.injEq]
        constructor
        · ring
        · omega

theorem decode_eq (data : Bytes) :
    decode data =
      match Varint.decode data with
      | .ok read => .ok read
      | .error e => .error (.fault e) := by
  rw [decode, decodeFrom_eq data (by omega) (by omega), Varint.decode]
  cases Varint.decodeFrom 0 data with
  | error e => rfl
  | ok read =>
    obtain ⟨n, used⟩ := read
    simp only [Nat.pow_zero, Nat.mul_one, Nat.zero_add]
    rfl

theorem used_le_of_decode {data : Bytes} {v : UInt64} {used : Nat}
    (h : Varint.decode data = .ok (v, used)) : used ≤ data.length := by
  obtain ⟨rest, rfl, rfl⟩ := Varint.encode_of_decode h
  rw [List.length_append]
  omega

/-- The last bit says whether the other bits are inverted. -/
def fromZigZag (w : UInt64) : Exec ε Int64 := do
  let sign ← negate (w &&& 1).toInt64
  return (w >>> 1).toInt64 ^^^ sign

theorem fromZigZag_eq (w : UInt64) : (fromZigZag w : Exec ε Int64) = .ok (ZigZag.decode w) := by
  have hbit : (w &&& 1).toNat = w.toNat % 2 := by
    rw [UInt64.toNat_and]
    exact Nat.and_one_is_mod _
  have hhalf : (w >>> 1).toInt64 = Int64.ofInt (w.toNat / 2 : Nat) := by
    have h : w >>> 1 = UInt64.ofNat (w.toNat / 2) := by
      have hlt : w.toNat / 2 < 2 ^ 64 := Nat.lt_of_le_of_lt (Nat.div_le_self ..) w.toNat_lt
      apply UInt64.toNat_inj.1
      rw [UInt64.toNat_shiftRight, UInt64.toNat_ofNat', Nat.mod_eq_of_lt hlt]
      exact Nat.shiftRight_one _
    rw [h, UInt64.toInt64_ofNat', Int64.ofInt_eq_ofNat]
  rw [fromZigZag, ZigZag.decode, hhalf]
  by_cases heven : w.toNat % 2 = 0
  · have hzero : w &&& 1 = 0 := UInt64.toNat_inj.1 (hbit.trans heven)
    rw [hzero, negate, within_of (by decide), if_pos heven]
    exact congrArg Except.ok Int64.xor_zero
  · have hone : w &&& 1 = 1 := by
      apply UInt64.toNat_inj.1
      rw [hbit, show (1 : UInt64).toNat = 1 from rfl]
      omega
    rw [hone, negate, within_of (by decide), if_neg heven, Int64.ofInt_sub, Int64.ofInt_neg]
    exact congrArg Except.ok (Int64.xor_neg_one.trans (Int64.not_eq_neg_add _))

/-! ## Scanners -/

structure Scanner where
  buffer : Bytes
  position : Nat

namespace Scanner

def start (payload : Bytes) : Scanner := ⟨payload, 0⟩

/-- The number of bytes that are left. -/
def remaining (s : Scanner) : Exec ε Nat := sub s.buffer.length s.position

/-- The scanner `n` bytes further on. Nothing but the next read would notice a place behind the
end; here it may not be left there. -/
def advance (s : Scanner) (n : Nat) : Exec ε Scanner := do
  let position ← add s.position n
  within (position ≤ s.buffer.length) { s with position }

/-- The scanner stands where the cursor does, in a buffer of at most `limit` bytes. -/
structure At (limit : Nat) (s : Scanner) (c : Cursor) : Prop where
  position : c.position = s.position
  rest : c.rest = s.buffer.drop s.position
  inside : s.position ≤ s.buffer.length
  short : s.buffer.length ≤ limit
  limit_lt : limit < bufferBound

theorem at_start {limit : Nat} {payload : Bytes} (h : payload.length ≤ limit)
    (hlimit : limit < bufferBound) : At limit (start payload) (Cursor.start payload) :=
  ⟨rfl, rfl, Nat.zero_le _, h, hlimit⟩

variable {limit : Nat} {s : Scanner} {c : Cursor}

theorem At.length_rest (h : At limit s c) : c.rest.length = s.buffer.length - s.position := by
  rw [h.rest, List.length_drop]

theorem At.remaining_le (h : At limit s c) : c.remaining ≤ limit := by
  have hlength := h.length_rest
  have hshort := h.short
  rw [Cursor.remaining]
  omega

theorem At.remaining (h : At limit s c) : (s.remaining : Exec ε Nat) = .ok c.remaining := by
  rw [Scanner.remaining, sub_of_le h.inside, Cursor.remaining, h.length_rest]

theorem At.position_add_lt (h : At limit s c) {n : Nat} (hn : n ≤ c.remaining) :
    s.position + n ≤ s.buffer.length ∧ s.position + n < UInt64.size := by
  have hlength := h.length_rest
  have hinside := h.inside
  have hshort := h.short
  have hlimit := h.limit_lt
  have hbound := bufferBound_lt
  rw [Cursor.remaining] at hn
  omega

theorem At.advance (h : At limit s c) {n : Nat} (hn : n ≤ c.remaining) :
    ∃ t : Scanner, (s.advance n : Exec ε Scanner) = .ok t ∧ At limit t (c.advance n) := by
  obtain ⟨hle, hlt⟩ := h.position_add_lt hn
  refine ⟨⟨s.buffer, s.position + n⟩, ?_, ?_, ?_, hle, h.short, h.limit_lt⟩
  · rw [Scanner.advance, add_of_lt hlt]
    exact within_of hle
  · rw [Cursor.advance, h.position]
  · rw [Cursor.advance, h.rest, List.drop_drop]

end Scanner

/-! ## Readers -/

abbrev Scan := StateT Scanner (Exec Wire.Fault)

/-- What `m` makes of the whole of `payload`. -/
def Scan.run (m : Scan α) (payload : Bytes) : Exec Wire.Fault α := do
  let (a, _) ← m (.start payload)
  return a

/-- A reading step ends as the library's does, at the same place. -/
inductive Tracks (limit : Nat) (scarce : Prop) (R : α → β → Prop) :
    Exec Wire.Fault (α × Scanner) → EStateM.Result Wire.Fault Cursor β → Prop
  | ok {a : α} {b : β} {s : Scanner} {c : Cursor} (h : R a b) (hs : Scanner.At limit s c) :
      Tracks limit scarce R (.ok (a, s)) (.ok b c)
  | fault (e : Wire.Fault) (c : Cursor) : Tracks limit scarce R (.error (.fault e)) (.error e c)
  | outOfMemory {r : EStateM.Result Wire.Fault Cursor β} (h : scarce) :
      Tracks limit scarce R (.error .outOfMemory) r

/-- From the same place on, `m` reads what `r` reads, up to `R`. -/
def Follows (limit : Nat) (scarce : Prop) (R : α → β → Prop) (m : Scan α) (r : Reader β) : Prop :=
  ∀ ⦃s : Scanner⦄ ⦃c : Cursor⦄, Scanner.At limit s c → Tracks limit scarce R (m s) (r c)

namespace Follows

variable {limit : Nat} {scarce : Prop} {R : α → β → Prop} {m : Scan α} {r : Reader β}

theorem pure {a : α} {b : β} (h : R a b) : Follows limit scarce R (pure a) (pure b) :=
  fun _ _ hs => .ok h hs

theorem bind {S : γ → δ → Prop} {f : α → Scan γ} {g : β → Reader δ}
    (hm : Follows limit scarce R m r) (hf : ∀ a b, R a b → Follows limit scarce S (f a) (g b)) :
    Follows limit scarce S (m >>= f) (r >>= g) := by
  intro s c hs
  show Tracks limit scarce S (StateT.bind m f s) (EStateM.bind r g c)
  have htracks := hm hs
  rw [StateT.bind, EStateM.bind]
  revert htracks
  generalize m s = x
  generalize r c = y
  intro htracks
  cases htracks with
  | ok h hs => exact hf _ _ h hs
  | fault e c => exact .fault e c
  | outOfMemory h => exact .outOfMemory h

/-- A last step of the library that only puts its result into another form. -/
theorem mapRight {S : α → γ → Prop} {g : β → γ} (hm : Follows limit scarce R m r)
    (hg : ∀ a b, R a b → S a (g b)) :
    Follows limit scarce S m (r >>= fun b => Pure.pure (g b)) := by
  have h := hm.bind (f := Pure.pure) fun a b hab => pure (hg a b hab)
  rwa [bind_pure] at h

theorem run {payload : Bytes} (h : Follows limit scarce R m r) (hshort : payload.length ≤ limit)
    (hlimit : limit < bufferBound) : Refines scarce R (Scan.run m payload) (r.run payload) := by
  have htracks := h (Scanner.at_start hshort hlimit)
  rw [Scan.run, Reader.run]
  revert htracks
  generalize m (.start payload) = x
  generalize r (.start payload) = y
  intro htracks
  cases htracks with
  | ok h _ => exact .ok h
  | fault e _ => exact .fault e
  | outOfMemory h => exact .outOfMemory h

end Follows

namespace Scan

/-- The next integer. -/
def int : Scan UInt64 := fun s => do
  let rest ← piece s.buffer s.position s.buffer.length
  let (v, used) ← mapFault (.varint s.position) (decode rest)
  let s ← s.advance used
  return (v, s)

def count : Scan Nat := do
  let v ← int
  return v.toNat

def signed : Scan Int64 := fun s => do
  let (v, s) ← int s
  let value ← fromZigZag v
  return (value, s)

/-- The next `n` bytes. -/
def take (n : Nat) : Scan Bytes := fun s => do
  let available ← s.remaining
  if available < n then report (.shortPayload s.position n available)
  else
    let stop ← add s.position n
    let taken ← piece s.buffer s.position stop
    let s ← s.advance n
    return (taken, s)

def block : Scan Bytes := do
  let length ← count
  take length

def range : Scan (UInt64 × UInt64) := do
  let low ← int
  let high ← int
  return (low, high)

def times (item : Scan α) : Nat → Scan (List α)
  | 0 => return []
  | n + 1 => do
      let first ← item
      let others ← times item n
      return first :: others

/-- Looked up in order to reserve no more room than the items can take. -/
def remaining : Scan Nat := fun s => do
  let n ← s.remaining
  return (n, s)

def list (item : Scan α) : Scan (List α) := do
  let n ← count
  let _ ← remaining
  times item n

def finish : Scan Unit := fun s => do
  let count ← s.remaining
  if count = 0 then return ((), s) else report (.trailingBytes count)

end Scan

namespace Follows

variable {limit : Nat} {scarce : Prop}

theorem int : Follows limit scarce (· = ·) Scan.int Reader.int := by
  intro s c hs
  have hrest : (s.buffer.take s.buffer.length).drop s.position = c.rest := by
    rw [List.take_length, hs.rest]
  rw [Scan.int, Reader.int, piece_of_le hs.inside (Nat.le_refl _), hrest, ok_bind, decode_eq]
  cases hread : Varint.decode c.rest with
  | error e =>
    simp only [Machine.mapFault, ← hs.position]
    exact .fault _ _
  | ok read =>
    obtain ⟨v, used⟩ := read
    obtain ⟨t, ht, hat⟩ := hs.advance (ε := Wire.Fault) (used_le_of_decode hread)
    simp only [Machine.mapFault, ok_bind, ht]
    exact .ok rfl hat

theorem count : Follows limit scarce (· = ·) Scan.count Reader.count :=
  int.bind fun _ _ h => pure (congrArg UInt64.toNat h)

theorem signed : Follows limit scarce (· = ·) Scan.signed Reader.signed := by
  refine bind (f := fun v s => do
    let value ← fromZigZag v
    return (value, s)) int ?_
  rintro v _ rfl
  simp only [fromZigZag_eq]
  exact pure rfl

/-- What is taken is a piece of the buffer. -/
theorem take (n : Nat) :
    Follows limit scarce (fun a b => a = b ∧ b.length ≤ limit) (Scan.take n) (Reader.take n) := by
  intro s c hs
  rw [Scan.take, Reader.take, hs.remaining, ok_bind]
  by_cases hn : n ≤ c.remaining
  · have hlength : (c.rest.take n).length = n := List.length_take_of_le hn
    obtain ⟨hle, hlt⟩ := hs.position_add_lt hn
    obtain ⟨t, ht, hat⟩ := hs.advance (ε := Wire.Fault) hn
    rw [if_neg (Nat.not_lt.2 hn), if_pos hlength, add_of_lt hlt, ok_bind, piece_add hle, ok_bind,
      ht, ok_bind]
    have hlimit := hs.remaining_le
    exact .ok ⟨by rw [hs.rest], by omega⟩ hat
  · have hlength : (c.rest.take n).length ≠ n := by
      rw [Cursor.remaining] at hn
      rw [List.length_take]
      omega
    rw [if_pos (Nat.not_le.1 hn), if_neg hlength, ← hs.position]
    exact .fault _ _

theorem block :
    Follows limit scarce (fun a b => a = b ∧ b.length ≤ limit) Scan.block Reader.block :=
  count.bind fun _ _ h => h ▸ take _

theorem range : Follows limit scarce (· = ·) Scan.range Reader.range :=
  int.bind fun _ _ hlow => int.bind fun _ _ hhigh => pure (congrArg₂ Prod.mk hlow hhigh)

theorem times {item : Scan α} {item' : Reader α} (h : Follows limit scarce (· = ·) item item')
    (n : Nat) :
    Follows limit scarce (· = ·) (Scan.times item n) (Reader.times item' n) := by
  induction n with
  | zero => exact pure rfl
  | succ n ih =>
    exact h.bind fun _ _ hfirst => ih.bind fun _ _ hothers =>
      pure (congrArg₂ List.cons hfirst hothers)

theorem list {item : Scan α} {item' : Reader α} (h : Follows limit scarce (· = ·) item item') :
    Follows limit scarce (· = ·) (Scan.list item) (Reader.list item') := by
  refine count.bind fun n _ hn => ?_
  subst hn
  intro s c hs
  have hremaining : Scan.remaining s = .ok (c.remaining, s) := by
    rw [Scan.remaining, hs.remaining]
    rfl
  show Tracks limit scarce (· = ·) (StateT.bind Scan.remaining (fun _ => Scan.times item n) s) _
  rw [StateT.bind, hremaining]
  exact h.times n hs

theorem finish : Follows limit scarce (fun _ _ => True) Scan.finish Reader.finish := by
  intro s c hs
  rw [Scan.finish, Reader.finish, hs.remaining, ok_bind]
  by_cases hempty : c.rest = []
  · rw [if_pos (by rw [Cursor.remaining, hempty]; rfl), if_pos (by rw [hempty]; rfl)]
    exact .ok trivial hs
  · have hremaining : c.remaining ≠ 0 := fun h => hempty (List.length_eq_zero_iff.1 h)
    rw [if_neg hremaining, if_neg (by simpa using hempty)]
    exact .fault _ _

end Follows

end SszArchive.Machine
