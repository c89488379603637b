import SszArchive.Proofs.Commit
import SszArchive.Proofs.Reconstruction

/-!
Chains of committed diffs. A commit skips the write if its identifier is stored already, so an
entry may stem from another commit than the one that returned its identifier. What carries the
proof is that every entry belongs to some transition with its identifier.
-/

namespace SszArchive

/-! ## Entries -/

/-- Every entry is the payload of a transition with its identifier. -/
def Certified {σ : Type} (s : Store σ) (strings : List Bytes) (state : σ) : Prop :=
  ∀ id, s.has id state = .ok true →
    ∃ c : Transition, c.id = id ∧ c.hashed ⊆ strings ∧ s.load id state = .ok c.payload

theorem certified_of_empty {σ : Type} {s : Store σ} {state : σ} (strings : List Bytes)
    (h : ∀ id, s.has id state = .ok false) : Certified s strings state := by
  intro id hid
  rw [h id] at hid
  cases hid

namespace Archive

variable {σ : Type} {a : Archive σ} {strings : List Bytes} {base target : Version} {state : σ}

theorem certified_commit (hstore : a.store.Lawful) (h : Certified a.store strings state)
    (hhashed : a.commitHashed base target ⊆ strings) :
    Certified a.store strings (a.commit base target state).state := by
  rcases commit_cases hstore base target state with
    ⟨e, -, hstate⟩ | ⟨id, payload, hprepare, -, ⟨-, hstate⟩ | ⟨-, hsave, hstate⟩⟩
  · rwa [hstate]
  · rwa [hstate]
  · rw [hstate]
    intro other hother
    by_cases hid : other = id
    · subst hid
      have hidentified := (prepare_eq_ok_iff.1 hprepare).2.1
      rw [hashed_of_prepare hprepare] at hhashed
      exact ⟨⟨base, target, payload⟩, hidentified, hhashed, (hstore.saved hsave).2⟩
    · obtain ⟨hhas, hload⟩ := hstore.others payload state hid
      rw [hhas] at hother
      rw [hload]
      exact h other hother

end Archive

/-! ## Runs of commits -/

/-- A commit that succeeded, with its answer. -/
structure Receipt where
  base : Version
  target : Version
  id : DiffId
  payload : Bytes

namespace Receipt

def transition (r : Receipt) : Transition := ⟨r.base, r.target, r.payload⟩

def ends (r : Receipt) : Version × Version := (r.base, r.target)

/-- The receipt names a transition that replays, and its identifier is stored. -/
structure Holds {σ : Type} (r : Receipt) (a : Archive σ) (strings : List Bytes) (state : σ) :
    Prop where
  identified : r.transition.id = r.id
  hashed : r.transition.hashed ⊆ strings
  applies : a.schema.apply r.base r.payload = .ok r.target
  present : a.store.has r.id state = .ok true

end Receipt

namespace Archive

variable {σ : Type} {a : Archive σ} {strings : List Bytes} {state : σ}

/-- Commits one after the other: the receipts of those that succeed, and the last state. -/
def commitAll (a : Archive σ) : List (Version × Version) → σ → List Receipt × σ
  | [], state => ([], state)
  | (base, target) :: rest, state =>
    let done := a.commit base target state
    let (receipts, final) := a.commitAll rest done.state
    match done.answer with
    | .ok (id, payload) => (⟨base, target, id, payload⟩ :: receipts, final)
    | .error _ => (receipts, final)

/-- What a run of commits hashes. -/
def commitsHashed (a : Archive σ) (commits : List (Version × Version)) : List Bytes :=
  commits.flatMap fun (base, target) => a.commitHashed base target

theorem commitAll_cons_state (base target : Version) (rest : List (Version × Version)) :
    (a.commitAll ((base, target) :: rest) state).2 =
      (a.commitAll rest (a.commit base target state).state).2 := by
  rw [commitAll]
  cases (a.commit base target state).answer <;> rfl

theorem mem_commitAll_cons {base target : Version} {rest : List (Version × Version)} {r : Receipt}
    (h : r ∈ (a.commitAll ((base, target) :: rest) state).1) :
    (a.commit base target state).answer = .ok (r.id, r.payload) ∧ r.ends = (base, target) ∨
      r ∈ (a.commitAll rest (a.commit base target state).state).1 := by
  rw [commitAll] at h
  cases hanswer : (a.commit base target state).answer with
  | error e =>
    simp only [hanswer] at h
    exact .inr h
  | ok answer =>
    simp only [hanswer] at h
    rcases List.mem_cons.1 h with rfl | h
    · exact .inl ⟨rfl, rfl⟩
    · exact .inr h

theorem certified_commitAll (hstore : a.store.Lawful) {commits : List (Version × Version)}
    (h : Certified a.store strings state) (hhashed : a.commitsHashed commits ⊆ strings) :
    Certified a.store strings (a.commitAll commits state).2 := by
  induction commits generalizing state with
  | nil => exact h
  | cons commit rest ih =>
    obtain ⟨base, target⟩ := commit
    rw [commitAll_cons_state]
    rw [commitsHashed, List.flatMap_cons, List.append_subset] at hhashed
    exact ih (certified_commit hstore h hhashed.1) hhashed.2

theorem has_commitAll (hstore : a.store.Lawful) {commits : List (Version × Version)}
    {id : DiffId} (h : a.store.has id state = .ok true) :
    a.store.has id (a.commitAll commits state).2 = .ok true := by
  induction commits generalizing state with
  | nil => exact h
  | cons commit rest ih =>
    obtain ⟨base, target⟩ := commit
    rw [commitAll_cons_state]
    exact ih (has_commit hstore h)

theorem holds_commitAll (hstore : a.store.Lawful)
    (hschema : a.verify = true ∨ a.schema.RoundTrips) {commits : List (Version × Version)}
    (hhashed : a.commitsHashed commits ⊆ strings) {r : Receipt}
    (hr : r ∈ (a.commitAll commits state).1) :
    r.Holds a strings (a.commitAll commits state).2 := by
  induction commits generalizing state with
  | nil => cases hr
  | cons commit rest ih =>
    obtain ⟨base, target⟩ := commit
    rw [commitsHashed, List.flatMap_cons, List.append_subset] at hhashed
    rw [commitAll_cons_state]
    rcases mem_commitAll_cons hr with ⟨hanswer, hends⟩ | hr
    · cases hends
      obtain ⟨hprepare, hhas⟩ := has_of_commit hstore hanswer
      exact {
        identified := (prepare_eq_ok_iff.1 hprepare).2.1
        hashed := hashed_of_prepare hprepare ▸ hhashed.1
        applies := apply_of_prepare hschema hprepare
        present := has_commitAll hstore hhas }
    · exact ih hhashed.2 hr

/-- Over a memory no commit fails under such a schema. -/
theorem ends_commitAll {a : Archive Memory} (hstore : a.store = Memory.store)
    (hschema : a.schema.RoundTrips) (commits : List (Version × Version)) (state : Memory) :
    (a.commitAll commits state).1.map Receipt.ends = commits := by
  induction commits generalizing state with
  | nil => rfl
  | cons commit rest ih =>
    obtain ⟨base, target⟩ := commit
    obtain ⟨answer, hprepare⟩ := prepare_of_roundTrips hschema base target
    rw [← commit_answer_memory hstore base target state] at hprepare
    simp only [commitAll, hprepare, List.map_cons, ih, Receipt.ends]

/-! ## Replay -/

/-- Under the identifier of a receipt stands the payload of its own commit. -/
theorem load_of_holds (h : Certified a.store strings state) {r : Receipt}
    (hr : r.Holds a strings state) (hnone : ¬ Collision strings) :
    a.store.load r.id state = .ok r.payload := by
  obtain ⟨c, hid, hhashed, hload⟩ := h r.id hr.present
  have hsame : c = r.transition :=
    (Transition.id_inj_or_collision hhashed hr.hashed (hid.trans hr.identified.symm)).resolve_right
      hnone
  rw [hload, hsame, Receipt.transition]

theorem reconstruct_of_holds (h : Certified a.store strings state) {chain : List Receipt}
    (hchain : ∀ r ∈ chain, r.Holds a strings state) (hnone : ¬ Collision strings) {v w : Version}
    (hleads : Leads v (chain.map Receipt.ends) w) :
    (a.reconstruct v (chain.map Receipt.id) state).answer = .ok w := by
  have hids : chain.map Receipt.id = (chain.map Receipt.transition).map Transition.id := by
    rw [List.map_map]
    exact List.map_congr_left fun r hr => (hchain r hr).identified.symm
  have hends : chain.map Receipt.ends = (chain.map Receipt.transition).map Transition.ends := by
    rw [List.map_map]
    rfl
  rw [hends] at hleads
  rw [hids]
  refine reconstruct_of_leads (List.forall_mem_map.2 fun r hr => ?_)
    (List.forall_mem_map.2 fun r hr => (hchain r hr).applies) hleads
  rw [(hchain r hr).identified]
  exact load_of_holds h (hchain r hr) hnone

/-- **Committed chains replay**, short of a collision among the strings that the commits hash. -/
theorem reconstruct_committed [Codecs] (a : Archive Memory) (hstore : MemoryBacked a.store)
    (hschema : a.verify = true ∨ a.schema.RoundTrips) (commits : List (Version × Version))
    (chain : List Receipt) (hchain : chain ⊆ (a.commitAll commits .empty).1) (v w : Version)
    (hleads : Leads v (chain.map Receipt.ends) w) :
    (a.reconstruct v (chain.map Receipt.id) (a.commitAll commits .empty).2).answer = .ok w ∨
      Collision (a.commitsHashed commits) := by
  by_cases hnone : Collision (a.commitsHashed commits)
  · exact .inr hnone
  left
  have hcertified := certified_commitAll hstore.lawful
    (certified_of_empty (a.commitsHashed commits) hstore.has_empty)
    (List.Subset.refl _)
  have hholds : ∀ r ∈ chain, r.Holds a (a.commitsHashed commits) (a.commitAll commits .empty).2 :=
    fun r hr => holds_commitAll hstore.lawful hschema (List.Subset.refl _) (hchain hr)
  exact reconstruct_of_holds hcertified hholds hnone hleads

/-- The last commit repeats the first one. -/
def threeCommits : List (Version × Version) :=
  [(oneByte 5, oneByte 9), (oneByte 9, oneByte 5), (oneByte 5, oneByte 9)]

theorem leads_threeCommits : Leads (oneByte 5) threeCommits (oneByte 9) := ⟨rfl, rfl, rfl, rfl⟩

def slicesInMemory : Archive Memory := ⟨Memory.store, .slices, false⟩

theorem reconstruct_committed_threeCommits :
    ∃ chain ⊆ (slicesInMemory.commitAll threeCommits .empty).1,
      chain.map Receipt.ends = threeCommits ∧
        ((slicesInMemory.reconstruct (oneByte 5) (chain.map Receipt.id)
            (slicesInMemory.commitAll threeCommits .empty).2).answer = .ok (oneByte 9) ∨
          Collision (slicesInMemory.commitsHashed threeCommits)) := by
  have hends := ends_commitAll (a := slicesInMemory) rfl Schema.slices_roundTrips threeCommits
    .empty
  refine ⟨_, List.Subset.refl _, hends, ?_⟩
  refine reconstruct_committed slicesInMemory .bare (.inr Schema.slices_roundTrips)
    threeCommits _ (List.Subset.refl _) (oneByte 5) (oneByte 9) ?_
  rw [hends]
  exact leads_threeCommits

end Archive

end SszArchive
