import SszArchive.Proofs.Streams

/-!
Reading on after a fault. A read that fails leaves the scanner somewhere, and the next read starts
there. Main statement: whatever is read before, failed reads included, a read moves forward within
the buffer, by the length of what it returns or, when it fails, by that of the integer it had
already read.
-/

namespace SszArchive

namespace Wire

variable {kind : Kind} {f : Field} {c d : Cursor} {e : Fault}

/-! ## Where a read stops -/

/-- What is wrong at `c` for a read of this kind, and where it leaves the cursor: at `c` when the
first integer is bad, and behind that integer when it is the length of too few bytes or the first
of two and the second is bad. -/
inductive Kind.FailsAt : Kind → Cursor → Fault → Cursor → Prop
  | lead (kind : Kind) {c : Cursor} {cause : Varint.Fault}
      (hbad : Varint.decode c.rest = .error cause) :
      FailsAt kind c (.varint c.position cause) c
  | short {c d : Cursor} {length : UInt64} {used : Nat}
      (hlead : Varint.decode c.rest = .ok (length, used))
      (hbehind : d = c.advance (Wire.int length).length) (hfew : d.remaining < length.toNat) :
      FailsAt .bytes c (.shortPayload d.position length.toNat d.remaining) d
  | second {c d : Cursor} {low : UInt64} {used : Nat} {cause : Varint.Fault}
      (hlead : Varint.decode c.rest = .ok (low, used))
      (hbehind : d = c.advance (Wire.int low).length)
      (hbad : Varint.decode d.rest = .error cause) :
      FailsAt .range c (.varint d.position cause) d

theorem bind_eq_error_iff {r : Reader α} {g : α → Reader β} :
    (r >>= g) c = .error e d ↔
      r c = .error e d ∨ ∃ a between, r c = .ok a between ∧ g a between = .error e d := by
  show EStateM.bind r g c = _ ↔ _
  rw [EStateM.bind]
  cases r c with
  | ok a between => simp
  | error e' d' => simp

/-- A last step that reads nothing does not fail. -/
theorem error_of_map {r : Reader α} {g : α → β}
    (h : (r >>= fun a => Pure.pure (g a)) c = .error e d) : r c = .error e d := by
  rcases bind_eq_error_iff.1 h with h | ⟨a, between, -, h⟩
  · exact h
  · cases h

theorem int_eq_error (h : Reader.int c = .error e d) :
    d = c ∧ ∃ cause, Varint.decode c.rest = .error cause ∧ e = .varint c.position cause := by
  unfold Reader.int at h
  split at h
  · cases h
  · next cause hread =>
    cases h
    exact ⟨rfl, cause, hread, rfl⟩

theorem int_eq_ok {v : UInt64} (h : Reader.int c = .ok v d) :
    d = c.advance (Wire.int v).length ∧ ∃ used, Varint.decode c.rest = .ok (v, used) := by
  unfold Reader.int at h
  split at h
  · next value used hread =>
    cases h
    obtain ⟨rest, -, hused⟩ := Varint.encode_of_decode hread
    rw [hused]
    exact ⟨rfl, _, hread⟩
  · cases h

theorem take_eq_error {n : Nat} (h : Reader.take n c = .error e d) :
    d = c ∧ e = .shortPayload c.position n c.remaining ∧ c.remaining < n := by
  by_cases hlength : (c.rest.take n).length = n
  · rw [Reader.take, if_pos hlength] at h
    cases h
  · rw [Reader.take, if_neg hlength] at h
    cases h
    rw [List.length_take] at hlength
    exact ⟨rfl, rfl, by rw [Cursor.remaining]; omega⟩

/-- A successful read takes the encoding of what it returns. -/
theorem Kind.advance_of_read (h : kind.read c = .ok f d) :
    d = ⟨c.position + f.encode.length, d.rest⟩ ∧ c.rest = f.encode ++ d.rest := by
  obtain ⟨hreads, hrest⟩ := Exact.field kind h
  have hagain : kind.read c = .ok f ⟨c.position + f.encode.length, d.rest⟩ := by
    have hread := hreads c.position d.rest
    rwa [← hrest] at hread
  rw [h] at hagain
  exact ⟨(EStateM.Result.ok.inj hagain).2, hrest⟩

/-- A read whose first integer is bad fails there. -/
theorem failsAt_of_int_error (kind : Kind) (h : Reader.int c = .error e d) :
    kind.FailsAt c e d := by
  obtain ⟨rfl, cause, hbad, rfl⟩ := int_eq_error h
  exact .lead kind hbad

theorem Kind.failsAt_of_read (h : kind.read c = .error e d) : kind.FailsAt c e d := by
  cases kind with
  | int => exact failsAt_of_int_error _ (error_of_map h)
  | count => exact failsAt_of_int_error _ (error_of_map (error_of_map h))
  | signed => exact failsAt_of_int_error _ (error_of_map (error_of_map h))
  | bytes =>
    rcases bind_eq_error_iff.1 (error_of_map h) with h | ⟨n, between, hcount, htake⟩
    · exact failsAt_of_int_error _ (error_of_map h)
    · obtain ⟨length, _, hlength, hpure⟩ := bind_eq_ok_iff.1 hcount
      cases hpure
      obtain ⟨hbehind, used, hlead⟩ := int_eq_ok hlength
      obtain ⟨rfl, rfl, hfew⟩ := take_eq_error htake
      exact .short hlead hbehind hfew
  | range =>
    rcases bind_eq_error_iff.1 (error_of_map h) with h | ⟨low, between, hlow, hhigh⟩
    · exact failsAt_of_int_error _ h
    · obtain ⟨hbehind, used, hlead⟩ := int_eq_ok hlow
      obtain ⟨rfl, cause, hbad, rfl⟩ := int_eq_error (error_of_map hhigh)
      exact .second hlead hbehind hbad

theorem Kind.FailsAt.le (h : kind.FailsAt c e d) : c.position ≤ d.position := by
  cases h with
  | lead _ _ => exact Nat.le_refl _
  | short _ hbehind _ => rw [hbehind]; exact Nat.le_add_right ..
  | second _ hbehind _ => rw [hbehind]; exact Nat.le_add_right ..

end Wire

namespace Machine

open Wire (Kind Field Reader Cursor bufferBound)

/-! ## Reads that keep their place -/

/-- A read that says where the scanner is left even when it fails. -/
abbrev Attempt := ExceptT Wire.Fault (StateT Scanner (Exec Empty))

namespace Attempt

/-- A step that moves the scanner at its very end, so that a failing one has not moved it. -/
def step (m : Scan α) : Attempt α := fun s =>
  match m s with
  | .ok (a, t) => .ok (.ok a, t)
  | .error (.fault e) => .ok (.error e, s)
  | .error .outOfRange => .error .outOfRange
  | .error .outOfMemory => .error .outOfMemory

def int : Attempt UInt64 := step Scan.int

def count : Attempt Nat := do
  let v ← int
  return v.toNat

def signed : Attempt Int64 := do
  let v ← int
  step fun s => do
    let value ← fromZigZag v
    return (value, s)

def block : Attempt Bytes := do
  let length ← count
  step (Scan.take length)

def range : Attempt (UInt64 × UInt64) := do
  let low ← int
  let high ← int
  return (low, high)

def field : Kind → Attempt Field
  | .int => do
      let v ← int
      return .int v
  | .count => do
      let n ← count
      return .int (UInt64.ofNat n)
  | .signed => do
      let v ← signed
      return .signed v
  | .bytes => do
      let b ← block
      return .bytes b
  | .range => do
      let r ← range
      return .range r.1 r.2

/-- One read after the other, whether or not they fail, with their answers. -/
def fields : List Kind → StateT Scanner (Exec Empty) (List (Except Wire.Fault Field))
  | [] => return []
  | kind :: kinds => do
      let answer ← (field kind).run
      let answers ← fields kinds
      return answer :: answers

end Attempt

/-! ## The same place -/

/-- Where the cursor is at the scanner's place. -/
def Scanner.cursor (s : Scanner) : Cursor := ⟨s.position, s.buffer.drop s.position⟩

/-- The scanner has not passed the end of its buffer. -/
structure Scanner.Inside (s : Scanner) : Prop where
  position : s.position ≤ s.buffer.length
  room : s.buffer.length < bufferBound

theorem Scanner.Inside.at_cursor {s : Scanner} (h : s.Inside) :
    Scanner.At s.buffer.length s s.cursor :=
  ⟨rfl, rfl, h.position, Nat.le_refl _, h.room⟩

theorem Scanner.At.eq_cursor {limit : Nat} {s : Scanner} {c : Cursor} (h : Scanner.At limit s c) :
    c = s.cursor := by
  rw [Scanner.cursor, ← h.position, h.position, ← h.rest, ← h.position]

/-- An answer of the library, with the cursor it leaves. -/
def resultAt (answer : Except Wire.Fault α) (c : Cursor) : EStateM.Result Wire.Fault Cursor α :=
  match answer with
  | .ok a => .ok a c
  | .error e => .error e c

/-- From the same place on, `m` answers as `r` does and leaves the scanner where `r` leaves the
cursor, with or without a fault. -/
def Mirrors (m : Attempt α) (r : Reader α) : Prop :=
  ∀ ⦃s : Scanner⦄, s.Inside → ∃ answer t, m s = .ok (answer, t) ∧ t.buffer = s.buffer ∧ t.Inside ∧
    r s.cursor = resultAt answer t.cursor

theorem Follows.mono {limit : Nat} {scarce : Prop} {R S : α → β → Prop} {m : Scan α}
    {r : Reader β} (h : Follows limit scarce R m r) (hmono : ∀ a b, R a b → S a b) :
    Follows limit scarce S m r := by
  have hmapped := h.mapRight (g := id) hmono
  rwa [show (r >>= fun b => Pure.pure (id b)) = r from bind_pure r] at hmapped

theorem bind_at_of_ok {x : StateT σ (Except ε) α} {f : α → StateT σ (Except ε) β} {s t : σ} {a : α}
    (h : x s = .ok (a, t)) : (x >>= f) s = f a t := by
  show StateT.bind x f s = _
  rw [StateT.bind, h]
  rfl

namespace Mirrors

variable {m : Attempt α} {r : Reader α}

theorem pure (a : α) : Mirrors (pure a) (pure a) :=
  fun s hs => ⟨.ok a, s, rfl, rfl, hs, rfl⟩

theorem bind {f : α → Attempt β} {g : α → Reader β} (hm : Mirrors m r)
    (hf : ∀ a, Mirrors (f a) (g a)) : Mirrors (m >>= f) (r >>= g) := by
  intro s hs
  obtain ⟨answer, t, hrun, hbuffer, ht, hread⟩ := hm hs
  have hbind : (m >>= f) s = ExceptT.bindCont f answer t := bind_at_of_ok hrun
  rw [hbind]
  cases answer with
  | error e => exact ⟨.error e, t, rfl, hbuffer, ht, Wire.bind_of_error hread⟩
  | ok a =>
    obtain ⟨answer, u, hnext, hbuffer', hu, hread'⟩ := hf a ht
    exact ⟨answer, u, hnext, hbuffer'.trans hbuffer, hu, (Wire.bind_of_ok hread).trans hread'⟩

/-- A last step that reads nothing. -/
theorem map (hm : Mirrors m r) (f : α → β) :
    Mirrors (m >>= fun a => Pure.pure (f a)) (r >>= fun a => Pure.pure (f a)) :=
  hm.bind fun a => pure (f a)

/-- A step that reads what the library reads, in one buffer, and fails where the library fails
without moving. -/
theorem step {m : Scan α} (hfollows : ∀ limit, Follows limit False (· = ·) m r)
    (hbuffer : ∀ s a t, m s = .ok (a, t) → t.buffer = s.buffer)
    (hstay : ∀ c e d, r c = .error e d → d = c) : Mirrors (Attempt.step m) r := by
  intro s hs
  have htracks := hfollows s.buffer.length hs.at_cursor
  rw [Attempt.step]
  rcases hrun : m s with stop | ⟨a, t⟩
  all_goals
    rw [hrun] at htracks
    generalize hread : r s.cursor = result at htracks
    cases htracks
  · next e d => exact ⟨.error e, s, rfl, rfl, hs, by rw [hstay _ _ _ hread]; rfl⟩
  · next hfalse => exact hfalse.elim
  · next b d ha ht =>
    have hsame := hbuffer s a t hrun
    exact ⟨.ok a, t, rfl, hsame, ⟨ht.inside, hsame ▸ hs.room⟩, by rw [ha, ht.eq_cursor]; rfl⟩

end Mirrors

/-! ## The reads -/

/-- A scanner moves in one buffer. -/
theorem buffer_of_advance {s t : Scanner} {n : Nat} (h : (s.advance n : Exec ε Scanner) = .ok t) :
    t.buffer = s.buffer := by
  obtain ⟨position, -, h⟩ := of_bind_eq_ok h
  unfold within at h
  split at h <;> cases h
  rfl

theorem buffer_of_int {s t : Scanner} {v : UInt64} (h : Scan.int s = .ok (v, t)) :
    t.buffer = s.buffer := by
  obtain ⟨rest, -, h⟩ := of_bind_eq_ok h
  obtain ⟨⟨value, used⟩, -, h⟩ := of_bind_eq_ok h
  obtain ⟨u, hadvance, h⟩ := of_bind_eq_ok h
  cases h
  exact buffer_of_advance hadvance

theorem buffer_of_take {s t : Scanner} {n : Nat} {b : Bytes} (h : Scan.take n s = .ok (b, t)) :
    t.buffer = s.buffer := by
  obtain ⟨available, -, h⟩ := of_bind_eq_ok h
  split at h
  · cases h
  · obtain ⟨stop, -, h⟩ := of_bind_eq_ok h
    obtain ⟨taken, -, h⟩ := of_bind_eq_ok h
    obtain ⟨u, hadvance, h⟩ := of_bind_eq_ok h
    cases h
    exact buffer_of_advance hadvance

namespace Mirrors

theorem int : Mirrors Attempt.int Reader.int :=
  step (fun _ => Follows.int) (fun _ _ _ => buffer_of_int) fun _ _ _ h => (Wire.int_eq_error h).1

theorem count : Mirrors Attempt.count Reader.count := int.map UInt64.toNat

/-- Unfolding a word reads nothing more, and it cannot fail. -/
theorem signed : Mirrors Attempt.signed Reader.signed := by
  refine int.bind fun v => ?_
  have hunfold : (Attempt.step fun s => do
      let value ← fromZigZag v
      return (value, s)) = (Pure.pure (ZigZag.decode v) : Attempt Int64) := by
    funext s
    rw [Attempt.step, fromZigZag_eq]
    rfl
  rw [hunfold]
  exact pure _

theorem take (n : Nat) : Mirrors (Attempt.step (Scan.take n)) (Reader.take n) :=
  step (fun _ => (Follows.take n).mono fun _ _ h => h.1) (fun _ _ _ => buffer_of_take)
    fun _ _ _ h => (Wire.take_eq_error h).1

theorem block : Mirrors Attempt.block Reader.block := count.bind take

theorem range : Mirrors Attempt.range Reader.range :=
  int.bind fun low => int.map fun high => (low, high)

theorem field (kind : Kind) : Mirrors (Attempt.field kind) kind.read := by
  cases kind with
  | int => exact int.map Field.int
  | count => exact count.map fun n => Field.int (UInt64.ofNat n)
  | signed => exact signed.map Field.signed
  | bytes => exact block.map Field.bytes
  | range => exact range.map fun r => Field.range r.1 r.2

end Mirrors

/-! ## Sequences of reads -/

/-- What one read does to a scanner. It moves forward in its buffer, over what it returns or, when
it fails, as far as `Kind.FailsAt` says, and it is where the library's cursor would be. -/
structure Advances (kind : Kind) (s : Scanner) (answer : Except Wire.Fault Field) (t : Scanner) :
    Prop where
  buffer : t.buffer = s.buffer
  forward : s.position ≤ t.position
  inside : t.position ≤ t.buffer.length
  success : ∀ f, answer = .ok f → kind.Matches f ∧
    t.position = s.position + f.encode.length ∧
      s.buffer.drop s.position = f.encode ++ s.buffer.drop t.position
  failure : ∀ e, answer = .error e → kind.FailsAt s.cursor e t.cursor
  library : kind.read s.cursor = resultAt answer t.cursor

/-- The answers that a scanner gives to some reads, one after the other, and where it ends. -/
inductive Resumes : List Kind → Scanner → List (Except Wire.Fault Field) → Scanner → Prop
  | nil (s : Scanner) : Resumes [] s [] s
  | cons {kind : Kind} {kinds : List Kind} {s t u : Scanner} {answer : Except Wire.Fault Field}
      {answers : List (Except Wire.Fault Field)} (hfirst : Advances kind s answer t)
      (hothers : Resumes kinds t answers u) :
      Resumes (kind :: kinds) s (answer :: answers) u

variable {kind : Kind} {kinds : List Kind} {s t : Scanner}

theorem exists_advances (kind : Kind) (hs : s.Inside) :
    ∃ answer t, Attempt.field kind s = .ok (answer, t) ∧ t.Inside ∧ Advances kind s answer t := by
  obtain ⟨answer, t, hrun, hbuffer, ht, hread⟩ := Mirrors.field kind hs
  refine ⟨answer, t, hrun, ht, ?_⟩
  cases answer with
  | ok f =>
    obtain ⟨hmoved, hrest⟩ := Kind.advance_of_read hread
    have hposition : t.position = s.position + f.encode.length := congrArg Cursor.position hmoved
    refine ⟨hbuffer, by omega, ht.position, ?_, nofun, hread⟩
    rintro _ ⟨⟩
    rw [Scanner.cursor, Scanner.cursor, hbuffer] at hrest
    exact ⟨Kind.matches_of_read hread, hposition, hrest⟩
  | error e =>
    have hfails := Kind.failsAt_of_read hread
    refine ⟨hbuffer, hfails.le, ht.position, nofun, ?_, hread⟩
    rintro _ ⟨⟩
    exact hfails

theorem exists_resumes (kinds : List Kind) (hs : s.Inside) :
    ∃ answers t, Attempt.fields kinds s = .ok (answers, t) ∧ Resumes kinds s answers t := by
  induction kinds generalizing s with
  | nil => exact ⟨[], s, rfl, .nil s⟩
  | cons kind kinds ih =>
    obtain ⟨answer, t, hfirst, ht, hadvances⟩ := exists_advances kind hs
    obtain ⟨answers, u, hothers, hresumes⟩ := ih ht
    refine ⟨answer :: answers, u, ?_, .cons hadvances hresumes⟩
    have hfirst : (Attempt.field kind).run s = .ok (answer, t) := hfirst
    rw [Attempt.fields, bind_at_of_ok hfirst, bind_at_of_ok hothers]
    rfl

/-- **Reads resume after faults.** Reads of any kinds, one after the other and continued after
those that fail, never leave the range of a step. Each of them finds the scanner in its buffer and
leaves it there, no further back: behind the encoding of the value it returns or, when it fails,
where it started, behind the length of a byte string that is cut short, or behind the first
integer of a range. -/
theorem reads_resume (buffer : Bytes) (hroom : buffer.length < bufferBound) (kinds : List Kind) :
    ∃ answers t, Attempt.fields kinds (.start buffer) = .ok (answers, t) ∧
      Resumes kinds (.start buffer) answers t :=
  exists_resumes kinds ⟨Nat.zero_le _, hroom⟩

/-- A byte string of which three bytes are missing, read on as a range that is cut. -/
theorem reads_resume_cut :
    ∃ answers t, Attempt.fields [.bytes, .range, .count] (.start [5, 0x41, 0x80]) =
        .ok (answers, t) ∧
      Resumes [.bytes, .range, .count] (.start [5, 0x41, 0x80]) answers t ∧
      answers = [.error (.shortPayload 1 5 2), .error (.varint 2 .underflow),
        .error (.varint 2 .underflow)] ∧ t.position = 2 := by
  obtain ⟨answers, t, hrun, hresumes⟩ :=
    reads_resume [5, 0x41, 0x80] (by decide) [.bytes, .range, .count]
  refine ⟨answers, t, hrun, hresumes, ?_⟩
  cases hrun
  exact ⟨rfl, rfl⟩

end Machine

end SszArchive
