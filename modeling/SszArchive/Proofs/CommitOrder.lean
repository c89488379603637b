import Mathlib.Data.List.Dedup
import SszArchive.Proofs.Commit
import SszArchive.Proofs.Reconstruction

/-!
Many archives over one memory store. Commits with schemas of their own go to the same store, one
after the other. What a commit answers does not depend on those before it, and the store ends up
with one entry for every transition that was committed, however often and in whatever order.
-/

namespace SszArchive

/-! ## Entries of transitions -/

namespace Transition

instance : DecidableEq Transition := fun c d =>
  decidable_of_iff (c.base = d.base ∧ c.target = d.target ∧ c.payload = d.payload) (by
    cases c; cases d; simp)

/-- The payload under its identifier. -/
def entry (c : Transition) : DiffId × Bytes := (c.id, c.payload)

end Transition

namespace Memory

theorem get?_isSome_iff {m : Memory} {id : DiffId} :
    (m.get? id).isSome ↔ ∃ bytes, (id, bytes) ∈ m := by
  induction m with
  | nil => simp [get?]
  | cons stored m ih =>
    obtain ⟨key, bytes⟩ := stored
    by_cases hkey : id = key
    · subst hkey
      simp [get?]
    · simp only [get?, List.lookup_cons, beq_false_of_ne hkey] at ih ⊢
      simp [ih, hkey]

/-- An identifier that is new comes to the front of the others. -/
theorem insert_of_get?_eq_none {m : Memory} {id : DiffId} {bytes : Bytes} (h : m.get? id = none) :
    m.insert id bytes = (id, bytes) :: m := by
  have hnew : ∀ stored ∈ m, (stored.1 != id) = true := by
    intro stored hstored
    by_contra hkey
    have hsome : (m.get? id).isSome := get?_isSome_iff.2 ⟨stored.2, by
      rwa [← show stored.1 = id by simpa using hkey]⟩
    rw [h] at hsome
    cases hsome
  rw [insert, List.filter_eq_self.2 hnew]

/-- One entry for each of the transitions. -/
def ofTransitions (done : List Transition) : Memory := done.dedup.map Transition.entry

theorem get?_ofTransitions_isSome_iff {done : List Transition} {id : DiffId} :
    ((ofTransitions done).get? id).isSome ↔ ∃ c ∈ done, c.id = id := by
  simp only [get?_isSome_iff, ofTransitions, List.mem_map, List.mem_dedup, Transition.entry,
    Prod.mk.injEq]
  grind

theorem ofTransitions_perm {done again : List Transition} (h : ∀ c, c ∈ again ↔ c ∈ done) :
    (ofTransitions again).Perm (ofTransitions done) := by
  refine List.Perm.map _ ((List.perm_ext_iff_of_nodup (List.nodup_dedup _)
    (List.nodup_dedup _)).2 fun c => ?_)
  simpa only [List.mem_dedup] using h c

end Memory

/-! ## Requests -/

/-- A commit as it is asked for, of an archive that shares its store with others. -/
structure CommitRequest where
  schema : Schema
  verify : Bool
  base : Version
  target : Version

namespace CommitRequest

variable {σ : Type} {r : CommitRequest} {m : Memory}

def archive (r : CommitRequest) (s : Store σ) : Archive σ := ⟨s, r.schema, r.verify⟩

def commit (r : CommitRequest) (s : Store σ) (state : σ) : Outcome DiffFault σ (DiffId × Bytes) :=
  (r.archive s).commit r.base r.target state

/-- What is answered when nothing has been stored before. -/
def answer (r : CommitRequest) : Except DiffFault (DiffId × Bytes) :=
  (r.commit Memory.store .empty).answer

theorem answer_of_compute {payload : Bytes}
    (hcompute : r.schema.compute r.base r.target = .ok payload)
    (happly : r.verify = true → r.schema.apply r.base payload = .ok r.target) :
    r.answer = .ok (Transition.entry ⟨r.base, r.target, payload⟩) := by
  rw [answer, commit, Archive.commit_answer_memory (a := r.archive Memory.store) rfl]
  exact Archive.prepare_eq_ok_iff.2 ⟨hcompute, rfl, happly⟩

/-- The strings that are hashed, whether or not the commit succeeds. -/
def hashed (r : CommitRequest) : List Bytes :=
  (r.archive Memory.store).commitHashed r.base r.target

/-- What a successful request stores. -/
def transition? (r : CommitRequest) : Option Transition :=
  match r.answer with
  | .ok (_, payload) => some ⟨r.base, r.target, payload⟩
  | .error _ => none

theorem commit_answer (r : CommitRequest) (m : Memory) :
    (r.commit Memory.store m).answer = r.answer := by
  simp only [answer, commit, Archive.commit_answer_memory (a := r.archive Memory.store) rfl]

theorem hashed_of_transition? {c : Transition} (h : r.transition? = some c) :
    c.hashed = r.hashed := by
  simp only [transition?, answer, commit,
    Archive.commit_answer_memory (a := r.archive Memory.store) rfl] at h
  split at h
  · next id payload hprepare =>
    cases h
    exact (Archive.hashed_of_prepare hprepare).symm
  · cases h

/-- Over a memory a request fails, or it finds its identifier, or it puts its entry in front. -/
theorem commit_memory_cases (r : CommitRequest) (m : Memory) :
    (r.transition? = none ∧ (r.commit Memory.store m).state = m) ∨
      ∃ c, r.transition? = some c ∧
        ((m.get? c.id).isSome ∧ (r.commit Memory.store m).state = m ∨
          m.get? c.id = none ∧ (r.commit Memory.store m).state = c.entry :: m) := by
  have hanswer := commit_answer r m
  rcases Archive.commit_cases (a := r.archive Memory.store) Memory.store_lawful r.base r.target m
    with ⟨e, herror, hstate⟩ | ⟨id, payload, hprepare, hok, hstored⟩
  · left
    refine ⟨?_, hstate⟩
    rw [transition?, ← hanswer, commit, herror]
  · right
    obtain rfl := (Archive.prepare_eq_ok_iff.1 hprepare).2.1
    refine ⟨⟨r.base, r.target, payload⟩, ?_, ?_⟩
    · rw [transition?, ← hanswer, commit, hok]
    · rcases hstored with ⟨hhas, hstate⟩ | ⟨hhas, -, hstate⟩
      · exact .inl ⟨Except.ok.inj hhas, hstate⟩
      · have hnone := Option.isSome_eq_false_iff.1 (Except.ok.inj hhas)
        rw [Option.isNone_iff_eq_none] at hnone
        exact .inr ⟨hnone, hstate.trans (Memory.insert_of_get?_eq_none hnone)⟩

/-- Commits take nothing away and change nothing that is stored. -/
theorem suffix_commit (r : CommitRequest) (m : Memory) :
    m <:+ (r.commit Memory.store m).state := by
  rcases commit_memory_cases r m with ⟨-, hstate⟩ | ⟨c, -, ⟨-, hstate⟩ | ⟨-, hstate⟩⟩
  · exact ⟨[], hstate.symm⟩
  · exact ⟨[], hstate.symm⟩
  · exact ⟨[c.entry], hstate.symm⟩

/-- A request adds its transition to those that are stored, if it is not among them. -/
theorem commit_ofTransitions {strings : List Bytes} {done : List Transition}
    (hnone : ¬ Collision strings) (hdone : ∀ c ∈ done, c.hashed ⊆ strings)
    (hr : r.hashed ⊆ strings) :
    (r.commit Memory.store (.ofTransitions done)).state =
      .ofTransitions (r.transition?.toList ++ done) := by
  rcases commit_memory_cases r (.ofTransitions done) with
    ⟨htransition, hstate⟩ | ⟨c, htransition, hstored⟩
  · rw [hstate, htransition]
    rfl
  · have hmem : (∃ d ∈ done, d.id = c.id) ↔ c ∈ done := by
      constructor
      · rintro ⟨d, hd, hid⟩
        have hc : c.hashed ⊆ strings := hashed_of_transition? htransition ▸ hr
        exact (Transition.id_inj_or_collision (hdone d hd) hc hid).resolve_right hnone ▸ hd
      · exact fun hc => ⟨c, hc, rfl⟩
    rw [htransition, Option.toList_some, List.singleton_append]
    rcases hstored with ⟨hhas, hstate⟩ | ⟨hhas, hstate⟩
    · rw [Memory.get?_ofTransitions_isSome_iff, hmem] at hhas
      rw [hstate, Memory.ofTransitions, Memory.ofTransitions, List.dedup_cons_of_mem hhas]
    · have hnew : c ∉ done := by
        rw [← hmem, ← Memory.get?_ofTransitions_isSome_iff, hhas]
        simp
      rw [hstate, Memory.ofTransitions, Memory.ofTransitions, List.dedup_cons_of_notMem hnew,
        List.map_cons]

/-! ## Runs of requests -/

/-- Requests one after the other: what they are answered, and the last state. -/
def commitEach : List CommitRequest → Memory →
    List (Except DiffFault (DiffId × Bytes)) × Memory
  | [], m => ([], m)
  | r :: rest, m =>
    let done := r.commit Memory.store m
    let (answers, final) := commitEach rest done.state
    (done.answer :: answers, final)

/-- The transitions of the requests that succeed. -/
def transitions (requests : List CommitRequest) : List Transition :=
  requests.filterMap transition?

theorem commitEach_answers (requests : List CommitRequest) (m : Memory) :
    (commitEach requests m).1 = requests.map answer := by
  induction requests generalizing m with
  | nil => rfl
  | cons r rest ih => simp only [commitEach, List.map_cons, ih, commit_answer]

theorem commitEach_append_state (front back : List CommitRequest) (m : Memory) :
    (commitEach (front ++ back) m).2 = (commitEach back (commitEach front m).2).2 := by
  induction front generalizing m with
  | nil => rfl
  | cons r rest ih => simp only [List.cons_append, commitEach, ih]

theorem suffix_commitEach (requests : List CommitRequest) (m : Memory) :
    m <:+ (commitEach requests m).2 := by
  induction requests generalizing m with
  | nil => exact List.suffix_refl m
  | cons r rest ih => exact (suffix_commit r m).trans (ih _)

/-- The first request leaves something, if it succeeds. -/
theorem commitEach_ne_empty {receipt : DiffId × Bytes} (h : r.answer = .ok receipt)
    (rest : List CommitRequest) : (commitEach (r :: rest) .empty).2 ≠ .empty := by
  have hsuffix := suffix_commitEach rest (r.commit Memory.store .empty).state
  rcases commit_memory_cases r .empty with ⟨hnone, -⟩ | ⟨c, -, ⟨hhas, -⟩ | ⟨-, hstate⟩⟩
  · simp only [transition?, h, reduceCtorEq] at hnone
  · cases hhas
  · exact List.ne_nil_of_mem (hsuffix.subset (hstate ▸ List.mem_cons_self))

theorem commitEach_ofTransitions {strings : List Bytes} {requests : List CommitRequest}
    {done : List Transition} (hnone : ¬ Collision strings)
    (hdone : ∀ c ∈ done, c.hashed ⊆ strings) (hrequests : ∀ r ∈ requests, r.hashed ⊆ strings) :
    (commitEach requests (.ofTransitions done)).2 =
      .ofTransitions ((transitions requests).reverse ++ done) := by
  induction requests generalizing done with
  | nil => rfl
  | cons r rest ih =>
    have hr := hrequests r (List.mem_cons_self ..)
    have hadded : ∀ c ∈ r.transition?.toList ++ done, c.hashed ⊆ strings := by
      intro c hc
      rcases List.mem_append.1 hc with hc | hc
      · rwa [hashed_of_transition? (Option.mem_toList.1 hc)]
      · exact hdone c hc
    have hstep := commit_ofTransitions hnone hdone hr
    have hrun := ih hadded fun q hq => hrequests q (List.mem_cons_of_mem _ hq)
    simp only [commitEach, hstep, hrun]
    cases htransition : r.transition? <;> simp [transitions, htransition]

/-- The store that requests fill holds one entry for every transition among them. -/
theorem commitEach_perm {strings : List Bytes} {requests : List CommitRequest}
    (hnone : ¬ Collision strings) (hrequests : ∀ r ∈ requests, r.hashed ⊆ strings) :
    (commitEach requests .empty).2.Perm (Memory.ofTransitions (transitions requests)) := by
  have hnew : ∀ c ∈ ([] : List Transition), c.hashed ⊆ strings := List.forall_mem_nil _
  have hrun : (commitEach requests .empty).2 =
      .ofTransitions ((transitions requests).reverse ++ []) :=
    commitEach_ofTransitions hnone hnew hrequests
  rw [hrun]
  exact Memory.ofTransitions_perm (by simp)

theorem mem_transitions_iff {requests again : List CommitRequest}
    (h : ∀ r, r ∈ again ↔ r ∈ requests) (c : Transition) :
    c ∈ transitions again ↔ c ∈ transitions requests := by
  simp only [transitions, List.mem_filterMap, h]

/-- **Commits to a shared store do not depend on their order.** Let the same requests be made
again from the start, in another order and any number of times. Each is answered as if it were the
only one, what is stored is never touched again, and both stores hold one entry for each of the
transitions that succeed and nothing else, unless two of the strings hashed collide. -/
theorem commitEach_order_independent (requests again : List CommitRequest)
    (hsame : ∀ r, r ∈ again ↔ r ∈ requests) :
    (commitEach requests .empty).1 = requests.map answer ∧
      (commitEach again .empty).1 = again.map answer ∧
      (∀ front, front <+: requests →
        (commitEach front .empty).2 <:+ (commitEach requests .empty).2) ∧
      ((commitEach requests .empty).2.Perm (Memory.ofTransitions (transitions requests)) ∧
          (commitEach again .empty).2.Perm (Memory.ofTransitions (transitions requests)) ∨
        Collision (requests.flatMap hashed)) := by
  refine ⟨commitEach_answers requests _, commitEach_answers again _, ?_, ?_⟩
  · rintro front ⟨back, rfl⟩
    rw [commitEach_append_state]
    exact suffix_commitEach back _
  · by_cases hnone : Collision (requests.flatMap hashed)
    · exact .inr hnone
    have hstrings : ∀ r ∈ requests, r.hashed ⊆ requests.flatMap hashed :=
      fun r hr _ hb => List.mem_flatMap.2 ⟨r, hr, hb⟩
    have hagain := commitEach_perm hnone fun r hr => hstrings r ((hsame r).1 hr)
    exact .inl ⟨commitEach_perm hnone hstrings,
      hagain.trans (Memory.ofTransitions_perm (mem_transitions_iff hsame))⟩

open Archive (oneByte toNine)

/-- One step by two schemas, checked by one of them, and the step back. -/
def acrossSchemas : List CommitRequest :=
  [⟨.slices, true, oneByte 5, oneByte 9⟩, ⟨.snapshot, false, oneByte 5, oneByte 9⟩,
    ⟨.slices, false, oneByte 9, oneByte 5⟩]

/-- Backwards, then once more. -/
def acrossSchemasAgain : List CommitRequest := acrossSchemas.reverse ++ acrossSchemas

/-- What the requests store. -/
def acrossSteps : List Transition :=
  [⟨oneByte 5, oneByte 9, toNine⟩, ⟨oneByte 5, oneByte 9, [1, 1, 1, 9, 0, 1, 1, 0, 0, 1]⟩,
    ⟨oneByte 9, oneByte 5, [1, 1, 1, 5, 0, 0, 0, 1]⟩]

theorem answer_acrossSchemas :
    acrossSchemas.map answer = acrossSteps.map fun c => .ok c.entry := by
  have hchecked : answer ⟨.slices, true, oneByte 5, oneByte 9⟩ =
      .ok (Transition.entry ⟨oneByte 5, oneByte 9, toNine⟩) :=
    answer_of_compute (by decide +kernel) fun _ => by decide +kernel
  have hsnapshot : answer ⟨.snapshot, false, oneByte 5, oneByte 9⟩ =
      .ok (Transition.entry ⟨oneByte 5, oneByte 9, [1, 1, 1, 9, 0, 1, 1, 0, 0, 1]⟩) :=
    answer_of_compute (by decide +kernel) nofun
  have hback : answer ⟨.slices, false, oneByte 9, oneByte 5⟩ =
      .ok (Transition.entry ⟨oneByte 9, oneByte 5, [1, 1, 1, 5, 0, 0, 0, 1]⟩) :=
    answer_of_compute (by decide +kernel) nofun
  simp only [acrossSchemas, acrossSteps, List.map_cons, List.map_nil, hchecked, hsnapshot, hback]

theorem transitions_acrossSchemas : transitions acrossSchemas = acrossSteps := by
  have hanswers := answer_acrossSchemas
  simp only [acrossSchemas, acrossSteps, List.map_cons, List.map_nil, List.cons.injEq, and_true]
    at hanswers
  obtain ⟨hchecked, hsnapshot, hback⟩ := hanswers
  simp only [transitions, acrossSchemas, List.filterMap_cons, List.filterMap_nil, transition?,
    hchecked, hsnapshot, hback, Transition.entry]
  rfl

/-- All requests succeed, whenever they are made, and three entries are left. -/
theorem commitEach_order_independent_acrossSchemas :
    (∀ r, r ∈ acrossSchemasAgain ↔ r ∈ acrossSchemas) ∧
      (commitEach acrossSchemasAgain .empty).1 =
        (acrossSteps.reverse ++ acrossSteps).map (fun c => .ok c.entry) ∧
      (commitEach acrossSchemasAgain .empty).2 ≠ .empty ∧
      ((commitEach acrossSchemasAgain .empty).2.Perm (acrossSteps.map Transition.entry) ∨
        Collision (acrossSchemas.flatMap hashed)) := by
  have hsame : ∀ r, r ∈ acrossSchemasAgain ↔ r ∈ acrossSchemas := by
    intro r
    simp only [acrossSchemasAgain, List.mem_append, List.mem_reverse, or_self]
  obtain ⟨-, hanswers, -, hstored⟩ := commitEach_order_independent acrossSchemas _ hsame
  refine ⟨hsame, ?_, ?_, hstored.imp_left fun h => ?_⟩
  · rw [hanswers, acrossSchemasAgain, List.map_append, List.map_reverse, answer_acrossSchemas,
      List.map_append, List.map_reverse]
  · exact commitEach_ne_empty (Option.some.inj (congrArg List.getLast? answer_acrossSchemas)) _
  · have hdistinct : acrossSteps.Nodup := by decide
    have hstates := h.2
    rwa [transitions_acrossSchemas, Memory.ofTransitions, hdistinct.dedup] at hstates

end CommitRequest

end SszArchive
