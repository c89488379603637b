import SszArchive.Proofs.Framing
import SszArchive.Proofs.Machine.Writing

/-!
Streams of fields. Nothing in a stream says what comes next, so the reads have to be of the kinds
that were written; then they return the fields and stop behind them. Main statement: this holds
whatever follows, and conversely all that can be read to the end of a buffer is written just so.
-/

namespace SszArchive

namespace Wire

/-! ## Reads by their kind -/

/-- The reads that a cursor offers; an integer can also be read as a count. -/
inductive Kind where
  | int
  | count
  | signed
  | bytes
  | range
  deriving DecidableEq, Repr

/-- What a read of this kind returns, as the field that would be written for it. -/
def Kind.read : Kind → Reader Field
  | .int => do
      let v ← Reader.int
      return .int v
  | .count => do
      let n ← Reader.count
      return .int (UInt64.ofNat n)
  | .signed => do
      let v ← Reader.signed
      return .signed v
  | .bytes => do
      let b ← Reader.block
      return .bytes b
  | .range => do
      let r ← Reader.range
      return .range r.1 r.2

/-- The field is one that is read in this way. -/
inductive Kind.Matches : Kind → Field → Prop
  | int (v : UInt64) : Matches .int (.int v)
  | count (v : UInt64) : Matches .count (.int v)
  | signed (v : Int64) : Matches .signed (.signed v)
  | bytes (b : Bytes) : Matches .bytes (.bytes b)
  | range (low high : UInt64) : Matches .range (.range low high)

def Reader.fields : List Kind → Reader (List Field)
  | [] => return []
  | kind :: kinds => do
      let first ← kind.read
      let others ← Reader.fields kinds
      return first :: others

/-- The fields up to the end of the buffer. -/
def Reader.allFields (kinds : List Kind) : Reader (List Field) := do
  let fields ← Reader.fields kinds
  Reader.finish
  return fields

variable {kind : Kind} {kinds : List Kind} {f : Field} {fs : List Field} {c d : Cursor}

/-- A byte string is no longer than a buffer can be. -/
def Field.Short (f : Field) : Prop := ∀ b, f = .bytes b → b.length < bufferBound

theorem Reads.field (h : kind.Matches f) (hshort : f.Short) :
    Reads kind.read f.encode f := by
  cases h with
  | int v => exact (int v).map Field.int
  | count v =>
    have hcount := (count v.toNat_lt).map fun n => Field.int (UInt64.ofNat n)
    rwa [Wire.count, UInt64.ofNat_toNat] at hcount
  | signed v => exact (signed v).map Field.signed
  | bytes b =>
    exact (block (Nat.lt_trans (hshort b rfl) bufferBound_lt)).map Field.bytes
  | range low high => exact (range low high).map fun r => Field.range r.1 r.2

theorem Reads.fields (h : List.Forall₂ Kind.Matches kinds fs) (hshort : ∀ f ∈ fs, f.Short) :
    Reads (Reader.fields kinds) (encode fs) fs := by
  induction h with
  | nil => exact pure []
  | @cons kind f kinds fs hfirst _ ih =>
    obtain ⟨hf, hfs⟩ := List.forall_mem_cons.1 hshort
    exact (field hfirst hf).bind ((ih hfs).map fun others => f :: others)

theorem Exact.field (kind : Kind) : Exact kind.read Field.encode := by
  cases kind with
  | int => exact int.map Field.int fun _ => rfl
  | count => exact count.map (fun n => Field.int (UInt64.ofNat n)) fun _ => rfl
  | signed => exact signed.map Field.signed fun _ => rfl
  | bytes => exact block.map Field.bytes fun _ => rfl
  | range => exact range.map (fun r => Field.range r.1 r.2) fun _ => rfl

theorem Kind.matches_of_read (h : kind.read c = .ok f d) : kind.Matches f := by
  cases kind <;> obtain ⟨_, _, -, h⟩ := bind_eq_ok_iff.1 h <;> cases h <;> constructor

/-- What is read is of the kinds asked for and stands in the buffer as it would be written. -/
theorem fields_eq_ok (h : Reader.fields kinds c = .ok fs d) :
    List.Forall₂ Kind.Matches kinds fs ∧ c.rest = encode fs ++ d.rest := by
  induction kinds generalizing c fs with
  | nil =>
    cases h
    exact ⟨.nil, rfl⟩
  | cons kind kinds ih =>
    obtain ⟨f, between, hfirst, h⟩ := bind_eq_ok_iff.1 h
    obtain ⟨others, _, hothers, h⟩ := bind_eq_ok_iff.1 h
    cases h
    obtain ⟨hmatch, hrest⟩ := ih hothers
    refine ⟨.cons (Kind.matches_of_read hfirst) hmatch, ?_⟩
    rw [(Exact.field kind hfirst).2, hrest, encode, encode, List.flatMap_cons, List.append_assoc]

theorem encode_of_run {buffer : Bytes} (h : (Reader.allFields kinds).run buffer = .ok fs) :
    List.Forall₂ Kind.Matches kinds fs ∧ encode fs = buffer := by
  unfold Reader.run at h
  split at h
  · next hread =>
    cases h
    obtain ⟨fs, between, hfields, h⟩ := bind_eq_ok_iff.1 hread
    obtain ⟨_, _, hfinish, h⟩ := bind_eq_ok_iff.1 h
    cases h
    obtain ⟨hmatch, hrest⟩ := fields_eq_ok hfields
    rw [rest_of_finish hfinish, List.append_nil] at hrest
    exact ⟨hmatch, hrest.symm⟩
  · cases h

end Wire

namespace Machine

open Wire (Kind Field Reader bufferBound)

/-! ## Reads on a machine -/

def Scan.field : Kind → Scan Field
  | .int => do
      let v ← Scan.int
      return .int v
  | .count => do
      let n ← Scan.count
      return .int (UInt64.ofNat n)
  | .signed => do
      let v ← Scan.signed
      return .signed v
  | .bytes => do
      let b ← Scan.block
      return .bytes b
  | .range => do
      let r ← Scan.range
      return .range r.1 r.2

def Scan.fields : List Kind → Scan (List Field)
  | [] => return []
  | kind :: kinds => do
      let first ← Scan.field kind
      let others ← Scan.fields kinds
      return first :: others

def Scan.allFields (kinds : List Kind) : Scan (List Field) := do
  let fields ← Scan.fields kinds
  Scan.finish
  return fields

namespace Follows

variable {limit : Nat} {scarce : Prop}

theorem field (kind : Kind) : Follows limit scarce (· = ·) (Scan.field kind) kind.read := by
  cases kind with
  | int => exact int.bind fun _ _ h => pure (congrArg Field.int h)
  | count => exact count.bind fun _ _ h => pure (congrArg (fun n => Field.int (UInt64.ofNat n)) h)
  | signed => exact signed.bind fun _ _ h => pure (congrArg Field.signed h)
  | bytes => exact block.bind fun _ _ h => pure (congrArg Field.bytes h.1)
  | range => exact range.bind fun _ _ h => pure (congrArg (fun r => Field.range r.1 r.2) h)

theorem fields (kinds : List Kind) :
    Follows limit scarce (· = ·) (Scan.fields kinds) (Reader.fields kinds) := by
  induction kinds with
  | nil => exact pure rfl
  | cons kind kinds ih =>
    exact (field kind).bind fun _ _ hfirst => ih.bind fun _ _ hothers =>
      pure (congrArg₂ List.cons hfirst hothers)

theorem allFields (kinds : List Kind) :
    Follows limit scarce (· = ·) (Scan.allFields kinds) (Reader.allFields kinds) :=
  (fields kinds).bind fun _ _ h => finish.bind fun _ _ _ => pure h

end Follows

/-- With room for it, writing ends with the encoding. -/
theorem writeAll_eq {fields : List Field} (h : (Wire.encode fields).length < bufferBound) :
    (writeAll fields [] : Exec ε Bytes) = .ok (Wire.encode fields) := by
  have hwritten := Appends.fields (ε := ε) fields []
  rw [List.nil_append] at hwritten
  exact hwritten.eq_ok (Nat.not_le.2 h)

/-- The scanner ends where the cursor does. -/
theorem Follows.exists_ok {limit : Nat} {α : Type} {m : Scan α} {r : Reader α}
    (h : Follows limit False (· = ·) m r) {s : Scanner} {c d : Wire.Cursor} {a : α}
    (hs : Scanner.At limit s c) (hr : r c = .ok a d) :
    ∃ t : Scanner, m s = .ok (a, t) ∧ t.position = d.position := by
  have htracks := h hs
  rw [hr] at htracks
  revert htracks
  generalize m s = x
  intro htracks
  cases htracks with
  | ok ha ht => exact ⟨_, by rw [ha], ht.position.symm⟩
  | outOfMemory hfalse => exact hfalse.elim

/-- **Streams read back.** Reads of the kinds that were written return the fields, whatever
follows, and stop where the encoding of the fields ends. Conversely, what reads return up to the
end of a buffer is written as that buffer and no other. A machine does the same as long as its
buffers are no longer than they can be. -/
theorem streams_read_back :
    (∀ (fields : List Field) (kinds : List Kind) (rest : Bytes), (∀ f ∈ fields, f.Short) →
      List.Forall₂ Kind.Matches kinds fields →
      Reader.fields kinds (.start (Wire.encode fields ++ rest)) =
          .ok fields ⟨(Wire.encode fields).length, rest⟩ ∧
        ((Wire.encode fields ++ rest).length < bufferBound →
          (writeAll fields [] : Exec Wire.Fault Bytes) = .ok (Wire.encode fields) ∧
          ∃ s, Scan.fields kinds (.start (Wire.encode fields ++ rest)) = .ok (fields, s) ∧
            s.position = (Wire.encode fields).length)) ∧
    ∀ (buffer : Bytes) (kinds : List Kind) (fields : List Field),
      ((Reader.allFields kinds).run buffer = .ok fields →
        List.Forall₂ Kind.Matches kinds fields ∧ Wire.encode fields = buffer) ∧
      (buffer.length < bufferBound → Scan.run (Scan.allFields kinds) buffer = .ok fields →
        List.Forall₂ Kind.Matches kinds fields ∧
          (writeAll fields [] : Exec Wire.Fault Bytes) = .ok buffer) := by
  constructor
  · intro fields kinds rest hshort hmatch
    have hread : Reader.fields kinds (.start (Wire.encode fields ++ rest)) =
        .ok fields ⟨(Wire.encode fields).length, rest⟩ := by
      have hreads := Wire.Reads.fields hmatch hshort 0 rest
      rwa [Nat.zero_add] at hreads
    refine ⟨hread, fun hroom => ⟨writeAll_eq ?_, ?_⟩⟩
    · rw [List.length_append] at hroom
      omega
    · exact (Follows.fields kinds).exists_ok (Scanner.at_start (Nat.le_refl _) hroom) hread
  · intro buffer kinds fields
    refine ⟨Wire.encode_of_run, fun hroom hscan => ?_⟩
    have hfollows : Follows buffer.length False (· = ·) (Scan.allFields kinds)
        (Reader.allFields kinds) := Follows.allFields kinds
    have hrefines := hfollows.run (Nat.le_refl _) hroom
    rw [hscan] at hrefines
    obtain ⟨_, hread, rfl⟩ := hrefines.of_ok
    obtain ⟨hmatch, hbuffer⟩ := Wire.encode_of_run hread
    refine ⟨hmatch, ?_⟩
    rw [← hbuffer] at hroom ⊢
    exact writeAll_eq hroom

/-- One field of each kind, and an integer that is read as a count. -/
def mixedFields : List Field :=
  [.int 7, .bytes [0x68, 0x69], .range 4 1048576, .signed (-1), .int 300]

def mixedKinds : List Kind := [.count, .bytes, .range, .signed, .int]

def mixedStream : Bytes := [7, 2, 0x68, 0x69, 4, 0x80, 0x80, 0x40, 1, 0xac, 2]

theorem streams_read_back_mixed :
    Reader.fields mixedKinds (.start (mixedStream ++ [0x80])) = .ok mixedFields ⟨11, [0x80]⟩ ∧
      (∃ s, Scan.fields mixedKinds (.start (mixedStream ++ [0x80])) = .ok (mixedFields, s) ∧
        s.position = 11) ∧
      (writeAll mixedFields [] : Exec Wire.Fault Bytes) = .ok mixedStream := by
  have hscan : Scan.run (Scan.allFields mixedKinds) mixedStream = .ok mixedFields := rfl
  have hshort : ∀ f ∈ mixedFields, f.Short := by
    simp [mixedFields, Field.Short, Wire.bufferBound]
  obtain ⟨hforward, hback⟩ := streams_read_back
  obtain ⟨hmatch, hwritten⟩ := (hback mixedStream mixedKinds mixedFields).2 (by decide) hscan
  have hcode := ((hback mixedStream mixedKinds mixedFields).1 rfl).2
  obtain ⟨hread, hmachine⟩ := hforward mixedFields mixedKinds [0x80] hshort hmatch
  rw [hcode] at hread hmachine
  exact ⟨hread, (hmachine (by decide)).2, hwritten⟩

end Machine

end SszArchive
