import SszArchive.Proofs.Store

/-!
Stores that stand for a memory. A relation ties the states of a store to memories; asking and
loading answer as the memory does, and saving puts the entry in, or leaves the one that is there.
-/

namespace SszArchive

variable {σ : Type}

/-- Related states answer alike. An entry that is present may be kept or replaced, and a save that
fails leaves all entries as they are. -/
structure Store.Simulates (s : Store σ) (Holds : σ → Memory → Prop) : Prop where
  has : ∀ {state m} id, Holds state m → s.has id state = .ok (m.get? id).isSome
  load : ∀ {state m} id, Holds state m → s.load id state = Memory.store.load id m
  save : ∀ {state m} id payload, Holds state m →
    (s.save id payload state).answer = .ok () ∧
        Holds (s.save id payload state).state (m.insert id payload) ∨
      (s.save id payload state).answer = .ok () ∧ (m.get? id).isSome ∧
        Holds (s.save id payload state).state m ∨
      (∃ e, (s.save id payload state).answer = .error e) ∧
        Holds (s.save id payload state).state m

namespace Memory

variable {m : Memory} {id other : DiffId} {bytes : Bytes}

/-- A memory stands for itself. -/
theorem simulates : store.Simulates (· = ·) where
  has id h := by
    subst h
    rfl
  load id h := by
    subst h
    rfl
  save id payload h := by
    subst h
    exact .inl ⟨rfl, rfl⟩

theorem get?_insert (m : Memory) (id other : DiffId) (bytes : Bytes) :
    (m.insert id bytes).get? other = if other = id then some bytes else m.get? other := by
  split
  · next h => rw [h, get?_insert_self]
  · next h => exact get?_insert_of_ne h

theorem isSome_get?_insert (h : (m.get? other).isSome) : ((m.insert id bytes).get? other).isSome := by
  rw [get?_insert]
  split
  · rfl
  · exact h

theorem load_eq_ok_iff : store.load id m = .ok bytes ↔ m.get? id = some bytes := by
  simp only [store]
  cases m.get? id <;> simp

end Memory

/-- The identifier that repeats one byte. -/
def sampleId (n : UInt8) : DiffId := ⟨⟨List.replicate 32 n, rfl⟩⟩

/-! ## Calls -/

inductive StoreCall where
  | has (id : DiffId)
  | load (id : DiffId)
  | save (id : DiffId) (payload : Bytes)

inductive StoreReply where
  | present (answer : Except StoreFault Bool)
  | loaded (answer : Except StoreFault Bytes)
  | saved (answer : Except StoreFault Unit)

/-- One call: its reply and the state that it leaves. -/
def Store.call (s : Store σ) (state : σ) : StoreCall → StoreReply × σ
  | .has id => (.present (s.has id state), state)
  | .load id => (.loaded (s.load id state), state)
  | .save id payload =>
    let saved := s.save id payload state
    (.saved saved.answer, saved.state)

end SszArchive
