import SszArchive.Proofs.Identity
import SszArchive.Proofs.RoundTrip
import SszArchive.Proofs.Store

/-!
What one commit does to a lawful store: it prepares a payload, and either its identifier is there
already or the payload is saved under it.
-/

namespace SszArchive.Archive

variable {σ : Type} {a : Archive σ} {base target : Version} {state : σ} {id : DiffId}
  {payload : Bytes}

/-! ## Preparing -/

theorem prepare_eq_ok_iff :
    a.prepare base target = .ok (id, payload) ↔
      a.schema.compute base target = .ok payload ∧ Transition.id ⟨base, target, payload⟩ = id ∧
        (a.verify = true → a.schema.apply base payload = .ok target) := by
  simp only [prepare, Transition.id, bind, Except.bind, pure, Except.pure]
  constructor
  · intro h
    split at h
    · cases h
    · next written hcompute =>
      split at h
      · next hverify =>
        split at h
        · cases h
        · next rebuilt happly =>
          split at h
          · cases h
          · next heq =>
            cases h
            exact ⟨hcompute, rfl, fun _ => Decidable.not_not.1 heq ▸ happly⟩
      · next hverify =>
        cases h
        exact ⟨hcompute, rfl, fun h => absurd h hverify⟩
  · rintro ⟨hcompute, rfl, happly⟩
    simp only [hcompute]
    split
    · next hverify => simp only [happly hverify, ne_eq, not_true, if_false]
    · rfl

/-- An archive that verifies, or whose schema reads back what it writes, prepares only payloads
that replay. -/
theorem apply_of_prepare (hschema : a.verify = true ∨ a.schema.RoundTrips)
    (h : a.prepare base target = .ok (id, payload)) : a.schema.apply base payload = .ok target := by
  obtain ⟨hcompute, -, happly⟩ := prepare_eq_ok_iff.1 h
  rcases hschema with hverify | hschema
  · exact happly hverify
  · obtain ⟨written, hwritten, happly⟩ := hschema base target
    rw [hcompute] at hwritten
    cases hwritten
    exact happly

/-- A schema that reads back what it writes never fails to prepare. -/
theorem prepare_of_roundTrips (hschema : a.schema.RoundTrips) (base target : Version) :
    ∃ answer, a.prepare base target = .ok answer := by
  obtain ⟨payload, hcompute, happly⟩ := hschema base target
  exact ⟨(_, payload), prepare_eq_ok_iff.2 ⟨hcompute, rfl, fun _ => happly⟩⟩

/-- What a commit hashes. -/
def commitHashed (a : Archive σ) (base target : Version) : List Bytes :=
  match a.schema.compute base target with
  | .error _ => []
  | .ok payload => Transition.hashed ⟨base, target, payload⟩

theorem hashed_of_prepare (h : a.prepare base target = .ok (id, payload)) :
    a.commitHashed base target = Transition.hashed ⟨base, target, payload⟩ := by
  rw [commitHashed, (prepare_eq_ok_iff.1 h).1]

/-! ## Committing -/

/-- What a commit to a lawful store does: it fails and changes nothing, or it finds its identifier
there, or it saves its payload. -/
theorem commit_cases (hstore : a.store.Lawful) (base target : Version) (state : σ) :
    (∃ e, (a.commit base target state).answer = .error e ∧
        (a.commit base target state).state = state) ∨
      ∃ id payload, a.prepare base target = .ok (id, payload) ∧
        (a.commit base target state).answer = .ok (id, payload) ∧
        (a.store.has id state = .ok true ∧ (a.commit base target state).state = state ∨
          a.store.has id state = .ok false ∧ (a.store.save id payload state).answer = .ok () ∧
            (a.commit base target state).state = (a.store.save id payload state).state) := by
  unfold commit
  cases hprepare : a.prepare base target with
  | error e => exact .inl ⟨e, rfl, rfl⟩
  | ok prepared =>
    obtain ⟨id, payload⟩ := prepared
    dsimp only
    cases hhas : a.store.has id state with
    | error e => exact .inl ⟨.store e, rfl, rfl⟩
    | ok present =>
      cases present with
      | true => exact .inr ⟨id, payload, rfl, rfl, .inl ⟨hhas, rfl⟩⟩
      | false =>
        dsimp only
        cases hsave : (a.store.save id payload state).answer with
        | error e => exact .inl ⟨.store e, rfl, hstore.refused hsave⟩
        | ok => exact .inr ⟨id, payload, rfl, rfl, .inr ⟨hhas, hsave, rfl⟩⟩

/-- Over a memory a commit answers what it prepared. -/
theorem commit_answer_memory {a : Archive Memory} (hstore : a.store = Memory.store)
    (base target : Version) (state : Memory) :
    (a.commit base target state).answer = a.prepare base target := by
  rw [commit, hstore]
  cases a.prepare base target with
  | error e => rfl
  | ok prepared =>
    simp only [Memory.store]
    cases (state.get? prepared.1).isSome <;> rfl

/-- Commits keep entries. -/
theorem has_commit (hstore : a.store.Lawful) (h : a.store.has id state = .ok true) :
    a.store.has id (a.commit base target state).state = .ok true := by
  rcases commit_cases hstore base target state with
    ⟨e, -, hstate⟩ | ⟨written, bytes, -, -, ⟨-, hstate⟩ | ⟨hhas, -, hstate⟩⟩
  · rwa [hstate]
  · rwa [hstate]
  · rw [hstate]
    have hne : id ≠ written := by
      rintro rfl
      rw [h] at hhas
      cases hhas
    rwa [(hstore.others bytes state hne).1]

theorem has_of_commit (hstore : a.store.Lawful)
    (h : (a.commit base target state).answer = .ok (id, payload)) :
    a.prepare base target = .ok (id, payload) ∧
      a.store.has id (a.commit base target state).state = .ok true := by
  rcases commit_cases hstore base target state with
    ⟨e, herror, -⟩ | ⟨written, bytes, hprepare, hanswer, hstored⟩
  · rw [herror] at h
    cases h
  · rw [hanswer] at h
    cases h
    refine ⟨hprepare, ?_⟩
    rcases hstored with ⟨hhas, hstate⟩ | ⟨-, hsave, hstate⟩
    · rwa [hstate]
    · rw [hstate]
      exact (hstore.saved hsave).1

end SszArchive.Archive
