import SszArchive.Proofs.Wire

/-!
What a reader takes. `Exact r encode` says that `r` accepts nothing but the encoding of what it
returns. Such a reader cannot be stopped early or go on too far, and so a buffer that is read to
its end is read neither when it is cut nor when it is prolonged; `Closed` states this for a reader
that checks for the end.
-/

namespace SszArchive.Wire

theorem bind_eq_ok_iff {r : Reader α} {f : α → Reader β} {c d : Cursor} {x : β} :
    (r >>= f) c = .ok x d ↔ ∃ a between, r c = .ok a between ∧ f a between = .ok x d := by
  show EStateM.bind r f c = _ ↔ _
  rw [EStateM.bind]
  constructor
  · intro h
    cases hr : r c with
    | error e between =>
      rw [hr] at h
      cases h
    | ok a between =>
      rw [hr] at h
      exact ⟨a, between, rfl, h⟩
  · rintro ⟨a, between, hr, hf⟩
    rw [hr]
    exact hf

theorem bind_of_error {r : Reader α} {f : α → Reader β} {c d : Cursor} {e : Fault}
    (h : r c = .error e d) : (r >>= f) c = .error e d := by
  show EStateM.bind r f c = .error e d
  rw [EStateM.bind, h]

/-- A cut falls into the first of two strings, or behind it into the second. -/
theorem prefix_append_cases {q b rest : Bytes} (hq : q <+: b ++ rest) (hne : q ≠ b ++ rest) :
    (q <+: b ∧ q ≠ b) ∨ ∃ tail, q = b ++ tail ∧ tail <+: rest ∧ tail ≠ rest := by
  by_cases hb : b <+: q
  · obtain ⟨tail, rfl⟩ := hb
    rw [List.prefix_append_right_inj] at hq
    exact .inr ⟨tail, rfl, hq, fun heq => hne (congrArg (b ++ ·) heq)⟩
  · have hqb : q <+: b :=
      (List.prefix_or_prefix_of_prefix hq (List.prefix_append ..)).resolve_right hb
    exact .inl ⟨hqb, fun heq => hb (heq ▸ List.prefix_refl q)⟩

/-! ## Exact readers -/

/-- What `r` takes is the encoding of what it returns, which it would read anywhere. -/
def Exact (r : Reader α) (encode : α → Bytes) : Prop :=
  ∀ ⦃c d : Cursor⦄ ⦃a : α⦄, r c = .ok a d → Reads r (encode a) a ∧ c.rest = encode a ++ d.rest

namespace Exact

theorem int : Exact Reader.int Wire.int := by
  intro c d v h
  refine ⟨Reads.int v, ?_⟩
  unfold Reader.int at h
  split at h
  · next value used hread =>
    cases h
    obtain ⟨rest, hrest, hused⟩ := Varint.encode_of_decode hread
    rw [Cursor.advance, hrest, hused, List.drop_left, Wire.int]
  · cases h

theorem lt_of_count {c d : Cursor} {n : Nat} (h : Reader.count c = .ok n d) :
    n < UInt64.size := by
  obtain ⟨v, _, -, h⟩ := bind_eq_ok_iff.1 h
  cases h
  exact v.toNat_lt

/-- A last step that only puts the result into another form. -/
theorem map {r : Reader α} {encode : α → Bytes} {encode' : β → Bytes} (hr : Exact r encode)
    (f : α → β) (h : ∀ a, encode' (f a) = encode a) :
    Exact (r >>= fun a => Pure.pure (f a)) encode' := by
  intro c d x hx
  obtain ⟨a, between, ha, hpure⟩ := bind_eq_ok_iff.1 hx
  cases hpure
  rw [h a]
  exact ⟨(hr ha).1.map f, (hr ha).2⟩

theorem count : Exact Reader.count Wire.count :=
  int.map UInt64.toNat fun v => by rw [Wire.count, UInt64.ofNat_toNat]

theorem signed : Exact Reader.signed Wire.signed :=
  int.map ZigZag.decode fun w => by rw [Wire.signed, ZigZag.encode_decode]

theorem take_eq_ok {c d : Cursor} {n : Nat} {b : Bytes} (h : Reader.take n c = .ok b d) :
    b.length = n ∧ c.rest = b ++ d.rest := by
  by_cases hlength : (c.rest.take n).length = n
  · rw [Reader.take, if_pos hlength] at h
    cases h
    exact ⟨hlength, (List.take_append_drop n c.rest).symm⟩
  · rw [Reader.take, if_neg hlength] at h
    cases h

theorem lt_of_block {c d : Cursor} {b : Bytes} (h : Reader.block c = .ok b d) :
    b.length < UInt64.size := by
  obtain ⟨n, _, hcount, htake⟩ := bind_eq_ok_iff.1 h
  rw [(take_eq_ok htake).1]
  exact lt_of_count hcount

theorem block : Exact Reader.block Wire.block := by
  intro c d b h
  refine ⟨Reads.block (lt_of_block h), ?_⟩
  obtain ⟨n, between, hcount, htake⟩ := bind_eq_ok_iff.1 h
  obtain ⟨rfl, hrest⟩ := take_eq_ok htake
  rw [(count hcount).2, hrest, Wire.block, List.append_assoc]

theorem range : Exact Reader.range fun r => Wire.range r.1 r.2 := by
  intro c d r h
  obtain ⟨low, _, hlow, h⟩ := bind_eq_ok_iff.1 h
  obtain ⟨high, _, hhigh, h⟩ := bind_eq_ok_iff.1 h
  cases h
  refine ⟨Reads.range low high, ?_⟩
  rw [(int hlow).2, (int hhigh).2]
  exact (List.append_assoc ..).symm

variable {item : Reader α} {encode : α → Bytes}

theorem times_eq_ok (hitem : Exact item encode) {n : Nat} {c d : Cursor} {xs : List α}
    (h : Reader.times item n c = .ok xs d) :
    xs.length = n ∧ (∀ x ∈ xs, Reads item (encode x) x) ∧
      c.rest = xs.flatMap encode ++ d.rest := by
  induction n generalizing c xs with
  | zero =>
    cases h
    exact ⟨rfl, nofun, rfl⟩
  | succ n ih =>
    obtain ⟨x, between, hx, h⟩ := bind_eq_ok_iff.1 h
    obtain ⟨others, _, hothers, h⟩ := bind_eq_ok_iff.1 h
    cases h
    obtain ⟨hlength, hreads, hrest⟩ := ih hothers
    obtain ⟨hread, hfirst⟩ := hitem hx
    refine ⟨congrArg Nat.succ hlength, List.forall_mem_cons.2 ⟨hread, hreads⟩, ?_⟩
    rw [hfirst, hrest, List.flatMap_cons, List.append_assoc]

theorem times (hitem : Exact item encode) (n : Nat) :
    Exact (Reader.times item n) fun xs => xs.flatMap encode := by
  intro c d xs h
  obtain ⟨rfl, hreads, hrest⟩ := times_eq_ok hitem h
  exact ⟨Reads.times hreads, hrest⟩

theorem list_eq_ok (hitem : Exact item encode) {c d : Cursor} {xs : List α}
    (h : Reader.list item c = .ok xs d) :
    xs.length < UInt64.size ∧ (∀ x ∈ xs, Reads item (encode x) x) ∧
      c.rest = Wire.count xs.length ++ xs.flatMap encode ++ d.rest := by
  obtain ⟨n, _, hcount, htimes⟩ := bind_eq_ok_iff.1 h
  obtain ⟨rfl, hreads, hrest⟩ := times_eq_ok hitem htimes
  refine ⟨lt_of_count hcount, hreads, ?_⟩
  rw [(count hcount).2, hrest, List.append_assoc]

theorem list (hitem : Exact item encode) :
    Exact (Reader.list item) fun xs => Wire.count xs.length ++ xs.flatMap encode := by
  intro c d xs h
  obtain ⟨hlt, hreads, hrest⟩ := list_eq_ok hitem h
  exact ⟨Reads.list hlt hreads, hrest⟩

end Exact

/-! ## Framed readers -/

/-- Wherever `r` succeeds it takes some bytes that it would read just so before anything else. -/
def Framed (r : Reader α) : Prop :=
  ∀ ⦃c d : Cursor⦄ ⦃a : α⦄, r c = .ok a d → ∃ b, Reads r b a ∧ c.rest = b ++ d.rest

theorem Exact.framed {r : Reader α} {encode : α → Bytes} (h : Exact r encode) : Framed r :=
  fun _ _ a hr => ⟨encode a, h hr⟩

namespace Framed

theorem pure (a : α) : Framed (pure a) := by
  intro c d x h
  cases h
  exact ⟨[], Reads.pure a, rfl⟩

theorem bind {r : Reader α} {f : α → Reader β} (hr : Framed r) (hf : ∀ a, Framed (f a)) :
    Framed (r >>= f) := by
  intro c d x h
  obtain ⟨a, between, hra, hfa⟩ := bind_eq_ok_iff.1 h
  obtain ⟨b, hreads, hrest⟩ := hr hra
  obtain ⟨b', hreads', hrest'⟩ := hf a hfa
  exact ⟨b ++ b', hreads.bind hreads', by rw [hrest, hrest', List.append_assoc]⟩

theorem times {item : Reader α} (hitem : Framed item) (n : Nat) :
    Framed (Reader.times item n) := by
  induction n with
  | zero => exact pure []
  | succ n ih => exact hitem.bind fun x => ih.bind fun others => pure (x :: others)

theorem signed : Framed Reader.signed := Exact.signed.framed

/-- A framed reader needs all of what it takes. -/
theorem error_of_prefix {r : Reader α} (hr : Framed r) {b q : Bytes} {a : α} (hb : Reads r b a)
    (hq : q <+: b) (hne : q ≠ b) (position : Nat) : ∃ e d, r ⟨position, q⟩ = .error e d := by
  cases hread : r ⟨position, q⟩ with
  | error e d => exact ⟨e, d, rfl⟩
  | ok x d =>
    -- Before the missing bytes the same would be read, and they would be left over.
    obtain ⟨missing, rfl⟩ := hq
    obtain ⟨taken, htaken, rfl : q = taken ++ d.rest⟩ := hr hread
    have hshort := htaken position (d.rest ++ missing)
    have hwhole := hb position []
    rw [List.append_nil, List.append_assoc, hshort] at hwhole
    have hleft : d.rest ++ missing = [] := congrArg Cursor.rest (EStateM.Result.ok.inj hwhole).2
    rw [(List.append_eq_nil_iff.1 hleft).2, List.append_nil] at hne
    exact absurd rfl hne

end Framed

/-! ## Closed readers -/

theorem rest_of_finish {c d : Cursor} (h : Reader.finish c = .ok () d) : c.rest = [] := by
  unfold Reader.finish at h
  split at h
  · next hempty => exact List.isEmpty_iff.1 hempty
  · cases h

/-- What `r` reads to the end it reads neither cut nor prolonged. -/
def Closed (r : Reader α) : Prop :=
  ∀ ⦃c d : Cursor⦄ ⦃a : α⦄, r c = .ok a d →
    (∀ position q, q <+: c.rest → q ≠ c.rest → ∃ e d, r ⟨position, q⟩ = .error e d) ∧
      ∀ position extra, extra ≠ [] →
        ∃ d, r ⟨position, c.rest ++ extra⟩ = .error (.trailingBytes extra.length) d

namespace Closed

theorem finish (a : α) : Closed (Reader.finish >>= fun _ => pure a) := by
  intro c d x h
  obtain ⟨_, _, hfinish, -⟩ := bind_eq_ok_iff.1 h
  rw [rest_of_finish hfinish]
  refine ⟨fun _ q hq hne => absurd (List.prefix_nil.1 hq) hne, fun position extra hne => ?_⟩
  refine ⟨⟨position, extra⟩, bind_of_error ?_⟩
  rw [List.nil_append, Reader.finish, if_neg (by simpa using hne)]
  rfl

theorem bind {r : Reader α} {f : α → Reader β} (hr : Framed r) (hf : ∀ a, Closed (f a)) :
    Closed (r >>= f) := by
  intro c d x h
  obtain ⟨a, between, hra, hfa⟩ := bind_eq_ok_iff.1 h
  obtain ⟨b, hreads, hrest⟩ := hr hra
  obtain ⟨hcut, hprolonged⟩ := hf a hfa
  rw [hrest]
  constructor
  · intro position q hq hne
    rcases prefix_append_cases hq hne with ⟨hq, hne⟩ | ⟨tail, rfl, htail, hne⟩
    · obtain ⟨e, d, hfail⟩ := hr.error_of_prefix hreads hq hne position
      exact ⟨e, d, bind_of_error hfail⟩
    · rw [bind_of_ok (hreads position tail)]
      exact hcut _ tail htail hne
  · intro position extra hextra
    obtain ⟨d, hd⟩ := hprolonged (position + b.length) extra hextra
    rw [List.append_assoc, bind_of_ok (hreads position _)]
    exact ⟨d, hd⟩

theorem run {r : Reader α} (hr : Closed r) {p : Bytes} {a : α} (h : r.run p = .ok a) :
    (∀ q, q <+: p → q ≠ p → ∃ e, r.run q = .error e) ∧
      ∀ extra, extra ≠ [] → r.run (p ++ extra) = .error (.trailingBytes extra.length) := by
  unfold Reader.run at h
  split at h
  · next hread =>
    obtain ⟨hcut, hprolonged⟩ := hr hread
    constructor
    · intro q hq hne
      obtain ⟨e, d, hfail⟩ := hcut 0 q hq hne
      exact ⟨e, by rw [Reader.run, Cursor.start, hfail]⟩
    · intro extra hne
      obtain ⟨d, hfail⟩ := hprolonged 0 extra hne
      rw [Reader.run, Cursor.start]
      simp only [Cursor.start] at hfail
      rw [hfail]
  · cases h

end Closed

end SszArchive.Wire
