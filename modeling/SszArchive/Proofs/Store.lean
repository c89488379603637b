import SszArchive.Store.Memory
import SszArchive.Store.Packed

/-!
Laws of stores. A saved payload can be loaded, other entries stay, and a refused one changes
nothing. The memory store is lawful, and packing keeps a lawful store lawful if entries unpack.
-/

namespace SszArchive

variable {σ : Type}

structure Store.Lawful (s : Store σ) : Prop where
  saved : ∀ {id payload state}, (s.save id payload state).answer = .ok () →
    s.has id (s.save id payload state).state = .ok true ∧
      s.load id (s.save id payload state).state = .ok payload
  others : ∀ {id other} payload state, other ≠ id →
    s.has other (s.save id payload state).state = s.has other state ∧
      s.load other (s.save id payload state).state = s.load other state
  refused : ∀ {id payload state e}, (s.save id payload state).answer = .error e →
    (s.save id payload state).state = state

/-- Entries of another key do not matter for what is looked up. -/
theorem lookup_filter_of_ne {α β : Type} [BEq α] [LawfulBEq α] {entries : List (α × β)}
    {key other : α} (h : other ≠ key) :
    (entries.filter (·.1 != key)).lookup other = entries.lookup other := by
  induction entries with
  | nil => rfl
  | cons entry entries ih =>
    obtain ⟨found, value⟩ := entry
    by_cases hkey : found = key
    · rw [List.filter_cons_of_neg (by simp [hkey]), List.lookup_cons, ih,
        beq_false_of_ne (hkey ▸ h)]
    · rw [List.filter_cons_of_pos (by simp [hkey]), List.lookup_cons, List.lookup_cons, ih]

/-! ## Memory -/

namespace Memory

theorem get?_insert_self (m : Memory) (id : DiffId) (bytes : Bytes) :
    (m.insert id bytes).get? id = some bytes := by
  rw [get?, insert, List.lookup_cons_self]

theorem get?_insert_of_ne {m : Memory} {id other : DiffId} {bytes : Bytes} (h : other ≠ id) :
    (m.insert id bytes).get? other = m.get? other := by
  rw [get?, insert, List.lookup_cons, beq_false_of_ne h]
  exact lookup_filter_of_ne h

theorem store_lawful : store.Lawful where
  saved _ := by
    simp only [store, get?_insert_self]
    exact ⟨rfl, trivial⟩
  others _ _ h := by
    simp only [store, get?_insert_of_ne h]
    exact ⟨trivial, trivial⟩
  refused h := nomatch h

end Memory

/-! ## Packed entries -/

variable [Codecs]

namespace Backend

/-- Decompressing undoes compressing. -/
def Undoes (b : Backend) : Prop :=
  ∀ {payload compressed}, b.compress payload = .ok compressed →
    b.decompress compressed = .ok payload

/-- No compression, or a number of its own and a way back. -/
def Faithful (b : Backend) : Prop := b = raw ∨ b.id ≠ rawId ∧ b.Undoes

theorem unpack_rawId (b : Backend) (payload : Bytes) : b.unpack (rawId :: payload) = .ok payload :=
  rfl

/-- What a faithful backend packs it unpacks. -/
theorem Faithful.unpack_pack {b : Backend} (hb : b.Faithful) {payload entry : Bytes}
    (h : b.pack payload = .ok entry) : b.unpack entry = .ok payload := by
  unfold pack at h
  split at h
  · next hworthwhile =>
    rcases hb with rfl | ⟨hid, hundoes⟩
    · cases hworthwhile
    · split at h
      · cases h
      · next compressed hcompress =>
        split at h
        · cases h
          simp only [unpack, hid, if_false, if_true, hundoes hcompress]
        · cases h
          exact unpack_rawId b payload
  · cases h
    exact unpack_rawId b payload

end Backend

theorem Store.Lawful.packed {s : Store σ} (hs : s.Lawful) {b : Backend} (hb : b.Faithful) :
    (s.packed b).Lawful where
  saved {id payload state} h := by
    simp only [Store.packed] at h ⊢
    cases hpack : b.pack payload with
    | error e => simp only [hpack] at h; cases h
    | ok entry =>
      simp only [hpack] at h ⊢
      obtain ⟨hhas, hload⟩ := hs.saved h
      simp only [hload, hb.unpack_pack hpack]
      exact ⟨hhas, trivial⟩
  others payload state hne := by
    simp only [Store.packed]
    cases b.pack payload with
    | error e => exact ⟨rfl, rfl⟩
    | ok entry =>
      obtain ⟨hhas, hload⟩ := hs.others entry state hne
      simp only [hload]
      exact ⟨hhas, trivial⟩
  refused {id payload state e} h := by
    simp only [Store.packed] at h ⊢
    cases hpack : b.pack payload with
    | error e => rfl
    | ok entry =>
      simp only [hpack] at h ⊢
      exact hs.refused h

/-- A memory store, bare or behind a faithful backend. -/
inductive MemoryBacked : Store Memory → Prop
  | bare : MemoryBacked Memory.store
  | packed {b : Backend} : b.Faithful → MemoryBacked (Memory.store.packed b)

namespace MemoryBacked

variable {s : Store Memory}

theorem lawful (hs : MemoryBacked s) : s.Lawful := by
  cases hs with
  | bare => exact Memory.store_lawful
  | packed hb => exact Memory.store_lawful.packed hb

theorem has_empty (hs : MemoryBacked s) (id : DiffId) : s.has id .empty = .ok false := by
  cases hs <;> rfl

end MemoryBacked

end SszArchive
