import SszArchive.Proofs.Identity

/-!
What a successful reconstruction says. The store may hold anything and the schema may do anything:
the identifiers alone fix the anchor, the order of the steps and the result.
-/

namespace SszArchive

/-- The steps meet and lead from the first version to the last one. -/
def Leads : Version → List (Version × Version) → Version → Prop
  | v, [], w => v = w
  | v, (base, target) :: rest, w => v = base ∧ Leads target rest w

def Transition.ends (c : Transition) : Version × Version := (c.base, c.target)

namespace Archive

variable {σ : Type} {a : Archive σ} {state : σ}

/-! ## Steps -/

theorem step_eq_ok_iff {number : Nat} {current next : Version} {id : DiffId} :
    a.step state number current id = .ok next ↔
      ∃ payload, a.store.load id state = .ok payload ∧
        a.schema.apply current payload = .ok next ∧ Transition.id ⟨current, next, payload⟩ = id := by
  unfold step
  constructor
  · intro h
    split at h
    · cases h
    · next payload hload =>
      split at h
      · cases h
      · next v happly =>
        split at h
        · next hid =>
          cases h
          exact ⟨payload, hload, happly, hid⟩
        · cases h
  · rintro ⟨payload, hload, happly, hid⟩
    simp only [hload, happly]
    exact if_pos hid

theorem replayFrom_cons_eq_ok_iff {number : Nat} {current v : Version} {id : DiffId}
    {rest : List DiffId} :
    (a.replayFrom state number current (id :: rest)).1 = .ok v ↔
      ∃ next, a.step state number current id = .ok next ∧
        (a.replayFrom state (number + 1) next rest).1 = .ok v := by
  rw [replayFrom]
  cases a.step state number current id with
  | error e => simp
  | ok next => simp

/-- A chain replays if each of its payloads is there and leads from its base to its target. -/
theorem replayFrom_of_leads {number : Nat} {current v : Version} {chain : List Transition}
    (hload : ∀ c ∈ chain, a.store.load c.id state = .ok c.payload)
    (happly : ∀ c ∈ chain, a.schema.apply c.base c.payload = .ok c.target)
    (hleads : Leads current (chain.map Transition.ends) v) :
    (a.replayFrom state number current (chain.map Transition.id)).1 = .ok v := by
  induction chain generalizing number current with
  | nil =>
    cases hleads
    rfl
  | cons c rest ih =>
    obtain ⟨rfl, hrest⟩ := hleads
    have hc := List.mem_cons_self (a := c) (l := rest)
    have hstep : a.step state number c.base c.id = .ok c.target :=
      step_eq_ok_iff.2 ⟨c.payload, hload c hc, happly c hc, rfl⟩
    refine replayFrom_cons_eq_ok_iff.2 ⟨c.target, hstep, ih (fun d hd => ?_) (fun d hd => ?_) hrest⟩
    · exact hload d (List.mem_cons_of_mem _ hd)
    · exact happly d (List.mem_cons_of_mem _ hd)

theorem reconstruct_of_leads {anchor v : Version} {chain : List Transition}
    (hload : ∀ c ∈ chain, a.store.load c.id state = .ok c.payload)
    (happly : ∀ c ∈ chain, a.schema.apply c.base c.payload = .ok c.target)
    (hleads : Leads anchor (chain.map Transition.ends) v) :
    (a.reconstruct anchor (chain.map Transition.id) state).answer = .ok v :=
  replayFrom_of_leads hload happly hleads

/-! ## The strings of a run -/

/-- What is hashed in a replay after the version it starts with. -/
def hashedFrom (a : Archive σ) (state : σ) : Version → List DiffId → List Bytes
  | _, [] => []
  | current, id :: rest =>
    match a.store.load id state with
    | .error _ => []
    | .ok payload =>
      match a.schema.apply current payload with
      | .error _ => []
      | .ok next =>
        next.frame :: DiffId.frame current.identity next.identity payload ::
          if DiffId.between current next payload = id then a.hashedFrom state next rest else []

/-- The strings that a reconstruction hashes. -/
def hashed (a : Archive σ) (state : σ) (anchor : Version) (chain : List DiffId) : List Bytes :=
  anchor.frame :: a.hashedFrom state anchor chain

theorem hashedFrom_cons {current next : Version} {payload : Bytes} {id : DiffId}
    {rest : List DiffId} (hload : a.store.load id state = .ok payload)
    (happly : a.schema.apply current payload = .ok next)
    (hid : Transition.id ⟨current, next, payload⟩ = id) :
    a.hashedFrom state current (id :: rest) =
      next.frame :: DiffId.frame current.identity next.identity payload ::
        a.hashedFrom state next rest := by
  simp only [hashedFrom, hload, happly]
  rw [if_pos (show DiffId.between current next payload = id from hid)]

/-! ## Soundness -/

theorem replayFrom_sound {number : Nat} {current v : Version} {chain : List Transition}
    {strings : List Bytes} (hrun : a.hashed state current (chain.map Transition.id) ⊆ strings)
    (hchain : ∀ c ∈ chain, c.hashed ⊆ strings)
    (h : (a.replayFrom state number current (chain.map Transition.id)).1 = .ok v) :
    Leads current (chain.map Transition.ends) v ∨ Collision strings := by
  induction chain generalizing number current with
  | nil =>
    left
    exact Except.ok.inj h
  | cons c rest ih =>
    rw [List.map_cons] at h hrun
    obtain ⟨next, hstep, hrest⟩ := replayFrom_cons_eq_ok_iff.1 h
    obtain ⟨payload, hload, happly, hid⟩ := step_eq_ok_iff.1 hstep
    rw [hashed, hashedFrom_cons hload happly hid] at hrun
    simp only [List.cons_subset] at hrun
    obtain ⟨hcurrent, hnext, hframe, htail⟩ := hrun
    have htaken : Transition.hashed ⟨current, next, payload⟩ ⊆ strings := by
      simp only [Transition.hashed, List.cons_subset]
      exact ⟨hcurrent, hnext, hframe, List.nil_subset _⟩
    rcases Transition.id_inj_or_collision htaken (hchain c (List.mem_cons_self ..)) hid with
      rfl | hcollision
    · have hlater := ih (List.cons_subset.2 ⟨hnext, htail⟩)
        (fun d hd => hchain d (List.mem_cons_of_mem _ hd)) hrest
      exact hlater.imp_left fun hleads => ⟨rfl, hleads⟩
    · exact .inr hcollision

/-- **Reconstruction is sound** against any store and any schema: a result is the end of a chain
of transitions that starts at the anchor, unless two of the strings hashed in the run and for the
identifiers collide. -/
theorem reconstruct_sound (a : Archive σ) (state : σ) (anchor v : Version)
    (chain : List Transition)
    (h : (a.reconstruct anchor (chain.map Transition.id) state).answer = .ok v) :
    Leads anchor (chain.map Transition.ends) v ∨
      Collision (a.hashed state anchor (chain.map Transition.id) ++
        chain.flatMap Transition.hashed) := by
  refine replayFrom_sound (List.subset_append_left _ _) (fun c hc => ?_) h
  intro b hb
  exact List.mem_append_right _ (List.mem_flatMap.2 ⟨c, hc, hb⟩)

/-- The whole value in one byte. -/
def oneByte (b : UInt8) : Version := ⟨[⟨1, 0, [b]⟩], firstFault_eq_none_iff.1 rfl⟩

/-- Sets the byte to 9, also where it is 9 already. -/
def toNine : Bytes := [1, 1, 1, 9, 0, 0, 0, 1]

/-- A store that answers every identifier with its one entry. -/
def oneEntry : Store Bytes where
  has _ _ := .ok true
  load _ entry := .ok entry
  save _ entry _ := ⟨.ok (), entry, []⟩

def twoSteps : List Transition := [⟨oneByte 5, oneByte 9, toNine⟩, ⟨oneByte 9, oneByte 9, toNine⟩]

theorem reconstruct_sound_twoSteps :
    let a : Archive Bytes := ⟨oneEntry, .slices, false⟩
    (a.reconstruct (oneByte 5) (twoSteps.map Transition.id) toNine).answer = .ok (oneByte 9) ∧
      (Leads (oneByte 5) (twoSteps.map Transition.ends) (oneByte 9) ∨
        Collision (a.hashed toNine (oneByte 5) (twoSteps.map Transition.id) ++
          twoSteps.flatMap Transition.hashed)) := by
  intro a
  have hload : ∀ c ∈ twoSteps, a.store.load c.id toNine = .ok c.payload := by
    simp only [twoSteps, List.forall_mem_cons]
    exact ⟨rfl, rfl, nofun⟩
  have happly : ∀ c ∈ twoSteps, a.schema.apply c.base c.payload = .ok c.target := by
    simp only [twoSteps, List.forall_mem_cons]
    exact ⟨rfl, rfl, nofun⟩
  have hleads : Leads (oneByte 5) (twoSteps.map Transition.ends) (oneByte 9) := ⟨rfl, rfl, rfl⟩
  have hrun := reconstruct_of_leads hload happly hleads
  exact ⟨hrun, reconstruct_sound a toNine (oneByte 5) (oneByte 9) twoSteps hrun⟩

end Archive

end SszArchive
