import SszArchive.Proofs.CommitOrder

/-!
A commit is all or nothing. The store is a memory behind layers that pack its entries, and neither
the schema nor the backends are trusted: either may refuse, the schema may rebuild another version
than the target, and what is stored may be damaged. Main statement: a commit that fails leaves the
memory as it was, and one that succeeds adds at most the entry of its own identifier.
-/

namespace SszArchive

/-! ## Memories behind layers -/

/-- What the layers make of a payload, the outermost first. -/
def Backend.packThrough : List Backend → Bytes → Except FileFault Bytes
  | [], entry => .ok entry
  | b :: layers, payload =>
    match b.pack payload with
    | .error e => .error e
    | .ok entry => packThrough layers entry

namespace Memory

section

variable [Codecs]

/-- A memory store behind layers that pack its entries, the outermost first. -/
def layered (layers : List Backend) : Store Memory :=
  layers.foldr (fun b inner => inner.packed b) Memory.store

theorem has_layered (layers : List Backend) (id : DiffId) (m : Memory) :
    (layered layers).has id m = .ok (m.get? id).isSome := by
  induction layers with
  | nil => rfl
  | cons b layers ih => exact ih

/-- Only the last layer reaches the memory, and only when all of them have packed the payload. -/
theorem save_layered_cases (layers : List Backend) (id : DiffId) (payload : Bytes) (m : Memory) :
    (∃ e, Backend.packThrough layers payload = .error e ∧
        ((layered layers).save id payload m).answer = .error (.files e) ∧
        ((layered layers).save id payload m).state = m) ∨
      ∃ entry, Backend.packThrough layers payload = .ok entry ∧
        ((layered layers).save id payload m).answer = .ok () ∧
        ((layered layers).save id payload m).state = m.insert id entry := by
  induction layers generalizing payload with
  | nil => exact .inr ⟨payload, rfl, rfl, rfl⟩
  | cons b layers ih =>
    have hsave : (layered (b :: layers)).save id payload m =
        ((layered layers).packed b).save id payload m := rfl
    simp only [hsave, Store.packed, Backend.packThrough]
    cases b.pack payload with
    | error e => exact .inl ⟨e, rfl, rfl, rfl⟩
    | ok entry => exact ih entry

end

/-- What a commit may change: the entry of its identifier is there afterwards, whatever was stored
before is as it was, and no other identifier is new. -/
structure Extends (id : DiffId) (before after : Memory) : Prop where
  present : (after.get? id).isSome
  kept : ∀ other bytes, before.get? other = some bytes → after.get? other = some bytes
  noOther : ∀ other, (after.get? other).isSome → other = id ∨ (before.get? other).isSome

theorem extends_of_present {m : Memory} {id : DiffId} (h : (m.get? id).isSome) :
    Extends id m m :=
  ⟨h, fun _ _ hbytes => hbytes, fun _ hother => .inr hother⟩

theorem extends_insert {m : Memory} {id : DiffId} (bytes : Bytes) (h : m.get? id = none) :
    Extends id m (m.insert id bytes) := by
  constructor
  · rw [get?_insert_self]
    rfl
  · intro other stored hstored
    have hne : other ≠ id := by
      rintro rfl
      rw [h] at hstored
      cases hstored
    rwa [get?_insert_of_ne hne]
  · intro other hother
    by_cases hid : other = id
    · exact .inl hid
    · rw [get?_insert_of_ne hid] at hother
      exact .inr hother

end Memory

/-! ## Commits -/

namespace CommitRequest

section

variable [Codecs]

/-- The exits of a commit: it cannot be prepared; its identifier is stored already; its payload
cannot be packed; or it is packed and put under its identifier, which is new. -/
theorem commit_layered_cases (r : CommitRequest) (layers : List Backend) (m : Memory) :
    (∃ e, (r.archive (Memory.layered layers)).prepare r.base r.target = .error e ∧
        (r.commit (Memory.layered layers) m).answer = .error e ∧
        (r.commit (Memory.layered layers) m).state = m) ∨
      ∃ id payload,
        (r.archive (Memory.layered layers)).prepare r.base r.target = .ok (id, payload) ∧
        ((m.get? id).isSome ∧ (r.commit (Memory.layered layers) m).answer = .ok (id, payload) ∧
            (r.commit (Memory.layered layers) m).state = m ∨
          m.get? id = none ∧
            ((∃ e, Backend.packThrough layers payload = .error e ∧
                (r.commit (Memory.layered layers) m).answer = .error (.store (.files e)) ∧
                (r.commit (Memory.layered layers) m).state = m) ∨
              ∃ entry, Backend.packThrough layers payload = .ok entry ∧
                (r.commit (Memory.layered layers) m).answer = .ok (id, payload) ∧
                (r.commit (Memory.layered layers) m).state = m.insert id entry)) := by
  unfold commit Archive.commit
  cases (r.archive (Memory.layered layers)).prepare r.base r.target with
  | error e => exact .inl ⟨e, rfl, rfl, rfl⟩
  | ok prepared =>
    obtain ⟨id, payload⟩ := prepared
    refine .inr ⟨id, payload, rfl, ?_⟩
    have hhas : (r.archive (Memory.layered layers)).store.has id m = .ok (m.get? id).isSome :=
      Memory.has_layered layers id m
    simp only [hhas]
    cases hfound : m.get? id with
    | some bytes => exact .inl ⟨rfl, rfl, rfl⟩
    | none =>
      refine .inr ⟨rfl, ?_⟩
      rcases Memory.save_layered_cases layers id payload m with
        ⟨e, hpack, hanswer, hstate⟩ | ⟨entry, hpack, hanswer, hstate⟩
      · refine .inl ⟨e, hpack, ?_, hstate⟩
        simp only [Option.isSome_none, archive, hanswer]
      · refine .inr ⟨entry, hpack, ?_, hstate⟩
        simp only [Option.isSome_none, archive, hanswer]

theorem commit_layered_eq_ok_iff (r : CommitRequest) (layers : List Backend) (m : Memory)
    (id : DiffId) (payload : Bytes) :
    (r.commit (Memory.layered layers) m).answer = .ok (id, payload) ↔
      (r.archive (Memory.layered layers)).prepare r.base r.target = .ok (id, payload) ∧
        ((m.get? id).isSome ∨ ∃ entry, Backend.packThrough layers payload = .ok entry) := by
  rcases commit_layered_cases r layers m with ⟨e, hprepare, hanswer, -⟩ |
    ⟨found, written, hprepare, ⟨hfound, hanswer, -⟩ | ⟨hnew, hpacked⟩⟩
  · simp [hprepare, hanswer]
  · rw [hprepare, hanswer]
    constructor
    · intro h
      cases h
      exact ⟨rfl, .inl hfound⟩
    · exact fun h => h.1
  · rcases hpacked with ⟨e, hpack, hanswer, -⟩ | ⟨entry, hpack, hanswer, -⟩
    · rw [hprepare, hanswer]
      constructor
      · intro h
        cases h
      · rintro ⟨h, hstored⟩
        cases h
        simp [hnew, hpack] at hstored
    · rw [hprepare, hanswer]
      constructor
      · intro h
        cases h
        exact ⟨rfl, .inr ⟨entry, hpack⟩⟩
      · exact fun h => h.1

theorem state_of_commit_error {r : CommitRequest} {layers : List Backend} {m : Memory}
    {e : DiffFault} (h : (r.commit (Memory.layered layers) m).answer = .error e) :
    (r.commit (Memory.layered layers) m).state = m := by
  rcases commit_layered_cases r layers m with ⟨_, -, -, hstate⟩ |
    ⟨_, _, -, ⟨-, -, hstate⟩ | ⟨-, ⟨_, -, -, hstate⟩ | ⟨_, -, hanswer, -⟩⟩⟩
  · exact hstate
  · exact hstate
  · exact hstate
  · cases hanswer.symm.trans h

theorem extends_of_commit_ok {r : CommitRequest} {layers : List Backend} {m : Memory} {id : DiffId}
    {payload : Bytes} (h : (r.commit (Memory.layered layers) m).answer = .ok (id, payload)) :
    Memory.Extends id m (r.commit (Memory.layered layers) m).state ∧
      (m.get? id = none → ∃ entry, Backend.packThrough layers payload = .ok entry ∧
        (r.commit (Memory.layered layers) m).state.get? id = some entry) := by
  rcases commit_layered_cases r layers m with ⟨_, -, hanswer, -⟩ |
    ⟨_, _, -, ⟨hfound, hanswer, hstate⟩ | ⟨hnew, hpacked⟩⟩
  · cases hanswer.symm.trans h
  · cases hanswer.symm.trans h
    rw [hstate]
    refine ⟨Memory.extends_of_present hfound, fun hnone => ?_⟩
    rw [hnone] at hfound
    cases hfound
  · rcases hpacked with ⟨_, -, hanswer, -⟩ | ⟨entry, hpack, hanswer, hstate⟩
    · cases hanswer.symm.trans h
    · cases hanswer.symm.trans h
      rw [hstate]
      have hentry := m.get?_insert_self id entry
      exact ⟨Memory.extends_insert entry hnew, fun _ => ⟨entry, hpack, hentry⟩⟩

/-- **A commit is atomic.** If it fails, the memory is as it was. If it succeeds, its entry is
there, the packed payload if it is new; nothing stored before has changed, be it damaged, and no
other entry is new. It succeeds exactly when the schema writes a payload, which replays if that is
to be verified, and the identifier is stored already or the payload can be packed. -/
theorem commit_atomic (r : CommitRequest) (layers : List Backend) (m : Memory) :
    (∀ e, (r.commit (Memory.layered layers) m).answer = .error e →
        (r.commit (Memory.layered layers) m).state = m) ∧
      (∀ id payload, (r.commit (Memory.layered layers) m).answer = .ok (id, payload) →
        Memory.Extends id m (r.commit (Memory.layered layers) m).state ∧
          (m.get? id = none → ∃ entry, Backend.packThrough layers payload = .ok entry ∧
            (r.commit (Memory.layered layers) m).state.get? id = some entry)) ∧
      ∀ id payload, (r.commit (Memory.layered layers) m).answer = .ok (id, payload) ↔
        r.schema.compute r.base r.target = .ok payload ∧
          Transition.id ⟨r.base, r.target, payload⟩ = id ∧
          (r.verify = true → r.schema.apply r.base payload = .ok r.target) ∧
          ((m.get? id).isSome ∨ ∃ entry, Backend.packThrough layers payload = .ok entry) := by
  refine ⟨fun _ => state_of_commit_error, fun _ _ => extends_of_commit_ok, fun id payload => ?_⟩
  rw [commit_layered_eq_ok_iff, Archive.prepare_eq_ok_iff, and_assoc, and_assoc]
  rfl

end

open Archive (oneByte)

/-- Takes every payload and then fails to compress it. -/
def refusing : Backend where
  id := 9
  compress _ := .error (.other "refused")
  decompress := .ok
  worthwhile _ := true

def checkedStep : CommitRequest := ⟨.slices, true, oneByte 5, oneByte 9⟩

/-- Behind the refusing backend a new step is not stored. Where its entry is there already, without
a single byte, the commit succeeds and leaves that entry alone. -/
theorem commit_atomic_refusing :
    ∃ id payload,
      (checkedStep.commit (Memory.layered [refusing]) .empty).state = .empty ∧
        (checkedStep.commit (Memory.layered [refusing]) [(id, [])]).answer = .ok (id, payload) ∧
        Memory.Extends id [(id, [])]
          (checkedStep.commit (Memory.layered [refusing]) [(id, [])]).state := by
  obtain ⟨payload, hcompute, happly⟩ := Schema.slices_roundTrips (oneByte 5) (oneByte 9)
  obtain ⟨id, hid⟩ : ∃ id, Transition.id ⟨oneByte 5, oneByte 9, payload⟩ = id := ⟨_, rfl⟩
  obtain ⟨hrefused, -, hrefuses⟩ := commit_atomic checkedStep [refusing] .empty
  obtain ⟨-, hextends, haccepts⟩ := commit_atomic checkedStep [refusing] [(id, [])]
  have hfound : (Memory.get? [(id, [])] id).isSome := by
    rw [Memory.get?, List.lookup_cons_self]
    rfl
  have hok := (haccepts id payload).2 ⟨hcompute, hid, fun _ => happly, .inl hfound⟩
  refine ⟨id, payload, ?_, hok, (hextends id payload hok).1⟩
  cases hanswer : (checkedStep.commit (Memory.layered [refusing]) .empty).answer with
  | error e => exact hrefused e hanswer
  | ok receipt =>
    obtain ⟨-, -, -, hstored | ⟨entry, hpack⟩⟩ := (hrefuses receipt.1 receipt.2).1 hanswer
    · cases hstored
    · cases hpack

end CommitRequest

end SszArchive
