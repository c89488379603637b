import SszArchive.Proofs.CommittedChains
import SszArchive.Schema.WordDelta

/-!
Chains of committed diffs that do not fit. A replay never gets past the first link whose base is
not the version at hand, but which fault it ends with is up to the schema: the payload is applied
to the wrong version first, and only if that succeeds do the identifiers tell.
-/

namespace SszArchive

/-- A chain that leads nowhere has a first link that does not fit. -/
theorem exists_broken_link {anchor : Version} {chain : List Receipt}
    (h : ∀ w, ¬ Leads anchor (chain.map Receipt.ends) w) :
    ∃ front r back v, chain = front ++ r :: back ∧ Leads anchor (front.map Receipt.ends) v ∧
      v ≠ r.base := by
  induction chain generalizing anchor with
  | nil => exact absurd rfl (h anchor)
  | cons r rest ih =>
    by_cases hr : anchor = r.base
    · subst hr
      obtain ⟨front, s, back, v, rfl, hleads, hne⟩ := ih fun w hw => h w ⟨rfl, hw⟩
      exact ⟨r :: front, s, back, v, rfl, ⟨rfl, hleads⟩, hne⟩
    · exact ⟨[], r, rest, anchor, rfl, rfl, hr⟩

/-- A replay only ever finds fault with its base or with the slices that come out. -/
theorem Diff.replay_cases (d : Diff) (base : Version) :
    (∃ target, d.replay base = .ok target) ∨
      (∃ cause, d.replay base = .error (.baseMismatch cause)) ∨
      ∃ cause, d.replay base = .error (.invariant cause) := by
  unfold replay
  split
  · exact .inr (.inl ⟨_, rfl⟩)
  · split
    · exact .inr (.inr ⟨_, rfl⟩)
    · split
      · exact .inl ⟨_, rfl⟩
      · exact .inr (.inl ⟨_, rfl⟩)

namespace Archive

variable {σ : Type} {a : Archive σ} {state : σ} {strings : List Bytes}

/-- What a step on the wrong version comes to. -/
def refusal (a : Archive σ) (number : Nat) (current : Version) (c : Transition) :
    Except DiffFault Version :=
  (a.schema.apply current c.payload).bind fun _ =>
    .error (.baseMismatch (.otherBase c.id number current.identity))

theorem refusal_of_ok {number : Nat} {current next : Version} {c : Transition}
    (h : a.schema.apply current c.payload = .ok next) :
    a.refusal number current c =
      .error (.baseMismatch (.otherBase c.id number current.identity)) := by
  rw [refusal, h, Except.bind]

theorem refusal_eq_error (number : Nat) (current : Version) (c : Transition) :
    ∃ e, a.refusal number current c = .error e := by
  rw [refusal]
  cases a.schema.apply current c.payload with
  | error e => exact ⟨e, rfl⟩
  | ok next => exact ⟨_, rfl⟩

/-- Another version cannot take the place of the base, short of a collision. -/
theorem step_of_ne (number : Nat) {current : Version} {c : Transition} {rest : List DiffId}
    (hload : a.store.load c.id state = .ok c.payload) (hne : current ≠ c.base)
    (hstrings : a.hashed state current (c.id :: rest) ⊆ strings) (hc : c.hashed ⊆ strings)
    (hnone : ¬ Collision strings) :
    a.step state number current c.id = a.refusal number current c := by
  rw [step, refusal, hload]
  dsimp only
  cases happly : a.schema.apply current c.payload with
  | error e => rfl
  | ok next =>
    have hother : ¬ DiffId.between current next c.payload = c.id := by
      intro hid
      rw [hashed, hashedFrom_cons hload happly hid] at hstrings
      simp only [List.cons_subset] at hstrings
      have htaken : Transition.hashed ⟨current, next, c.payload⟩ ⊆ strings := by
        simp only [Transition.hashed, List.cons_subset]
        exact ⟨hstrings.1, hstrings.2.1, hstrings.2.2.1, List.nil_subset _⟩
      have hsame := (Transition.id_inj_or_collision htaken hc hid).resolve_right hnone
      exact hne (congrArg Transition.base hsame)
    simp only [hother, if_false]
    rfl

theorem replayFrom_broken (number : Nat) {current v : Version} {front : List Transition}
    {c : Transition} {rest : List DiffId}
    (hload : ∀ d ∈ front, a.store.load d.id state = .ok d.payload)
    (happly : ∀ d ∈ front, a.schema.apply d.base d.payload = .ok d.target)
    (hleads : Leads current (front.map Transition.ends) v)
    (hc : a.store.load c.id state = .ok c.payload) (hne : v ≠ c.base)
    (hstrings : a.hashed state current (front.map Transition.id ++ c.id :: rest) ⊆ strings)
    (hhashed : c.hashed ⊆ strings) (hnone : ¬ Collision strings) :
    (a.replayFrom state number current (front.map Transition.id ++ c.id :: rest)).1 =
      a.refusal (number + front.length) v c := by
  induction front generalizing number current with
  | nil =>
    cases hleads
    have hstep := step_of_ne number hc hne hstrings hhashed hnone
    obtain ⟨e, he⟩ := a.refusal_eq_error number v c
    rw [List.map_nil, List.nil_append, List.length_nil, Nat.add_zero, replayFrom, hstep, he]
  | cons d front ih =>
    obtain ⟨rfl, hleads⟩ := hleads
    have hd := List.mem_cons_self (a := d) (l := front)
    have hstep : a.step state number d.base d.id = .ok d.target :=
      step_eq_ok_iff.2 ⟨d.payload, hload d hd, happly d hd, rfl⟩
    have hlater : a.hashed state d.target (front.map Transition.id ++ c.id :: rest) ⊆ strings := by
      rw [List.map_cons, List.cons_append, hashed, hashedFrom_cons (hload d hd) (happly d hd) rfl]
        at hstrings
      simp only [List.cons_subset] at hstrings
      exact List.cons_subset.2 ⟨hstrings.2.1, hstrings.2.2.2⟩
    have hrest := ih (number + 1) (fun e he => hload e (List.mem_cons_of_mem _ he))
      (fun e he => happly e (List.mem_cons_of_mem _ he)) hleads hlater
    rw [List.map_cons, List.cons_append, replayFrom, hstep]
    dsimp only
    rw [hrest, List.length_cons, Nat.add_assoc, Nat.add_comm 1]

/-- **A broken chain is refused at its first broken link**, short of a collision: with a base
mismatch if the payload can be applied to the version at hand, and otherwise with whatever fault
the schema finds there. -/
theorem reconstruct_broken (a : Archive σ) (state : σ)
    (hschema : a.verify = true ∨ a.schema.RoundTrips) (chain : List Receipt)
    (hcommitted : ∀ r ∈ chain, a.prepare r.base r.target = .ok (r.id, r.payload))
    (hintact : ∀ r ∈ chain, a.store.load r.id state = .ok r.payload) (anchor : Version)
    (hbroken : ∀ w, ¬ Leads anchor (chain.map Receipt.ends) w) :
    (∃ front r back v, chain = front ++ r :: back ∧ Leads anchor (front.map Receipt.ends) v ∧
        v ≠ r.base ∧ (a.reconstruct anchor (chain.map Receipt.id) state).answer =
          a.refusal front.length v r.transition) ∨
      Collision (chain.flatMap (Transition.hashed ∘ Receipt.transition) ++
        a.hashed state anchor (chain.map Receipt.id)) := by
  by_cases hnone : Collision (chain.flatMap (Transition.hashed ∘ Receipt.transition) ++
      a.hashed state anchor (chain.map Receipt.id))
  · exact .inr hnone
  left
  obtain ⟨front, r, back, v, rfl, hleads, hne⟩ := exists_broken_link hbroken
  refine ⟨front, r, back, v, rfl, hleads, hne, ?_⟩
  have hid : ∀ s ∈ front ++ r :: back, s.id = s.transition.id :=
    fun s hs => (prepare_eq_ok_iff.1 (hcommitted s hs)).2.1.symm
  have hids : (front ++ r :: back).map Receipt.id =
      (front.map Receipt.transition).map Transition.id ++ r.transition.id :: back.map Receipt.id := by
    rw [List.map_append, List.map_cons, hid r (by simp), List.map_map]
    congr 1
    exact List.map_congr_left fun s hs => hid s (by simp [hs])
  have hends : front.map Receipt.ends = (front.map Receipt.transition).map Transition.ends := by
    rw [List.map_map]
    rfl
  rw [hends] at hleads
  rw [hids] at hnone ⊢
  have hload : ∀ s ∈ front ++ r :: back,
      a.store.load s.transition.id state = .ok s.transition.payload := fun s hs =>
    hid s hs ▸ hintact s hs
  have happly : ∀ s ∈ front, a.schema.apply s.base s.payload = .ok s.target :=
    fun s hs => apply_of_prepare hschema (hcommitted s (List.mem_append_left _ hs))
  have hr : r ∈ front ++ r :: back := List.mem_append_right _ (List.mem_cons_self ..)
  have hhashed : r.transition.hashed ⊆ (front ++ r :: back).flatMap
      (Transition.hashed ∘ Receipt.transition) :=
    fun b hb => List.mem_flatMap.2 ⟨r, hr, hb⟩
  have hreplay := replayFrom_broken 0
    (List.forall_mem_map.2 fun s hs => hload s (List.mem_append_left _ hs))
    (List.forall_mem_map.2 happly) hleads (hload r hr) hne
    (List.subset_append_right _ _) (List.Subset.trans hhashed (List.subset_append_left _ _)) hnone
  rwa [List.length_map, Nat.zero_add] at hreplay

/-! ## Faults -/

/-- A snapshot can be applied to any version, so that its identifier tells. -/
theorem refusal_snapshot {a : Archive σ} (hschema : a.schema = .snapshot) {base target : Version}
    {id : DiffId} {payload : Bytes} (h : a.prepare base target = .ok (id, payload)) (number : Nat)
    (v : Version) :
    a.refusal number v ⟨base, target, payload⟩ =
      .error (.baseMismatch (.otherBase (Transition.id ⟨base, target, payload⟩) number
        v.identity)) := by
  obtain ⟨hcompute, -, -⟩ := prepare_eq_ok_iff.1 h
  rw [hschema] at hcompute
  cases hcompute
  have happly : a.schema.apply v (Diff.between .empty target).encode = .ok target := by
    rw [hschema]
    show Diff.replayPayload .empty (Diff.between .empty target).encode = _
    rw [Diff.replayPayload_encode (Diff.writable_between .empty target), Diff.replay_between]
  exact refusal_of_ok happly

/-- A diff by slices can be read whatever the base is. -/
theorem refusal_slices {a : Archive σ} (hschema : a.schema = .slices) {base target : Version}
    {id : DiffId} {payload : Bytes} (h : a.prepare base target = .ok (id, payload)) (number : Nat)
    (v : Version) :
    (∃ cause, a.refusal number v ⟨base, target, payload⟩ = .error (.baseMismatch cause)) ∨
      ∃ cause, a.refusal number v ⟨base, target, payload⟩ = .error (.invariant cause) := by
  obtain ⟨hcompute, -, -⟩ := prepare_eq_ok_iff.1 h
  rw [hschema] at hcompute
  cases hcompute
  have happly : a.schema.apply v (Diff.between base target).encode =
      (Diff.between base target).replay v := by
    rw [hschema]
    exact Diff.replayPayload_encode (Diff.writable_between base target) v
  rw [refusal, happly]
  rcases (Diff.between base target).replay_cases v with ⟨next, h⟩ | ⟨cause, h⟩ | ⟨cause, h⟩
  · exact .inl ⟨_, by rw [h, Except.bind]⟩
  · exact .inl ⟨cause, by rw [h, Except.bind]⟩
  · exact .inr ⟨cause, by rw [h, Except.bind]⟩

/-! ## A payload that tells nothing of its base -/

/-- One word under node 2. -/
def oneWord (low : UInt8) : Version :=
  ⟨[⟨2, 0, [low, 0, 0, 0, 0, 0, 0, 0]⟩], firstFault_eq_none_iff.1 rfl⟩

def twoWords : Version :=
  ⟨[⟨2, 0, [1, 0, 0, 0, 0, 0, 0, 0, 1, 0, 0, 0, 0, 0, 0, 0]⟩], firstFault_eq_none_iff.1 rfl⟩

def wordsInMemory : Archive Memory := ⟨Memory.store, .wordDelta, true⟩

/-- Counts the word up; the layout is that of the base. -/
def countUp : Receipt :=
  ⟨oneWord 1, oneWord 2, .between (oneWord 1) (oneWord 2) [0, 0, 2], [0, 0, 2]⟩

theorem apply_countUp : Schema.wordDelta.apply (oneWord 1) [0, 0, 2] = .ok (oneWord 2) := by
  decide +kernel

theorem prepare_countUp :
    wordsInMemory.prepare countUp.base countUp.target = .ok (countUp.id, countUp.payload) := by
  have hcompute : Schema.wordDelta.compute (oneWord 1) (oneWord 2) = .ok [0, 0, 2] := by
    decide +kernel
  exact prepare_eq_ok_iff.2 ⟨hcompute, rfl, fun _ => apply_countUp⟩

/-- A memory that holds just this step. -/
def countUpMemory : Memory := (wordsInMemory.commit countUp.base countUp.target .empty).state

theorem load_countUp :
    wordsInMemory.store.load countUp.id countUpMemory = .ok countUp.payload := by
  have hstate : countUpMemory = Memory.empty.insert countUp.id countUp.payload := by
    rw [countUpMemory, commit, prepare_countUp]
    rfl
  rw [hstate]
  simp only [wordsInMemory, Memory.store, Memory.get?_insert_self]

theorem twoWords_ne_countUp : twoWords ≠ countUp.base := by
  show twoWords ≠ oneWord 1
  decide

/-- The wrong anchor has two words, and so the one delta of the payload is found to be too short:
a committed step on the wrong anchor need not end with a base mismatch. -/
theorem reconstruct_countUp_malformed :
    wordsInMemory.prepare countUp.base countUp.target = .ok (countUp.id, countUp.payload) ∧
      wordsInMemory.store.load countUp.id countUpMemory = .ok countUp.payload ∧
      twoWords ≠ countUp.base ∧
      (wordsInMemory.reconstruct twoWords [countUp.id] countUpMemory).answer =
        .error (.malformed (.shortPayload 2 2 1)) := by
  have happly : wordsInMemory.schema.apply twoWords countUp.payload =
      .error (.malformed (.shortPayload 2 2 1)) := by
    show Schema.wordDelta.apply twoWords [0, 0, 2] = _
    decide +kernel
  refine ⟨prepare_countUp, load_countUp, twoWords_ne_countUp, ?_⟩
  rw [reconstruct, replayFrom, step, load_countUp]
  simp only [happly]

theorem reconstruct_broken_countUp :
    (∀ w, ¬ Leads twoWords ([countUp].map Receipt.ends) w) ∧
      ((∃ front r back v, [countUp] = front ++ r :: back ∧
          Leads twoWords (front.map Receipt.ends) v ∧ v ≠ r.base ∧
          (wordsInMemory.reconstruct twoWords ([countUp].map Receipt.id) countUpMemory).answer =
            wordsInMemory.refusal front.length v r.transition) ∨
        Collision ([countUp].flatMap (Transition.hashed ∘ Receipt.transition) ++
          wordsInMemory.hashed countUpMemory twoWords ([countUp].map Receipt.id))) := by
  have hbroken : ∀ w, ¬ Leads twoWords ([countUp].map Receipt.ends) w := by
    rintro w ⟨h, -⟩
    exact twoWords_ne_countUp h
  refine ⟨hbroken, reconstruct_broken wordsInMemory countUpMemory (.inl rfl) [countUp] ?_ ?_
    twoWords hbroken⟩
  · exact List.forall_mem_singleton.2 prepare_countUp
  · exact List.forall_mem_singleton.2 load_countUp

end Archive

end SszArchive
