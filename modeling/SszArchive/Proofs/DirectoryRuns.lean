import SszArchive.Proofs.Directory

/-!
Runs of operations on a directory that only they touch. The store may be opened again at any point,
with other options, and time passes in between. As long as no file operation fails, the replies are
those of a memory, and after each operation the directory holds what the memory holds.
-/

namespace SszArchive

inductive DirectoryOperation where
  | reopen (staleAge : Nat)
  | call (call : StoreCall)

inductive DirectoryReply where
  | opened (answer : Except StoreFault Unit)
  | replied (reply : StoreReply)

/-- The reply of a file operation that failed. -/
def DirectoryReply.IsFileFault (reply : DirectoryReply) : Prop :=
  ∃ e : FileFault, reply = .opened (.error (.files e)) ∨
    reply = .replied (.present (.error (.files e))) ∨
    reply = .replied (.loaded (.error (.files e))) ∨ reply = .replied (.saved (.error (.files e)))

/-- Each operation with the time at which it starts. -/
abbrev DirectoryRun := List (Int × DirectoryOperation)

namespace Directory

/-- The options of the store from an operation on. -/
def after (d : Directory) : DirectoryOperation → Directory
  | .reopen staleAge => ⟨d.root, staleAge⟩
  | .call _ => d

def operate (d : Directory) (t : FileTree) : DirectoryOperation → DirectoryReply × FileTree
  | .reopen staleAge =>
    let opened := Directory.open ⟨d.root, staleAge⟩ t
    (.opened opened.answer, opened.state)
  | .call c =>
    let (reply, next) := d.store.call t c
    (.replied reply, next)

def run (d : Directory) : DirectoryRun → FileTree → List DirectoryReply × FileTree
  | [], t => ([], t)
  | (now, operation) :: rest, t =>
    let (reply, next) := d.operate (t.atTime now) operation
    let (replies, final) := (d.after operation).run rest next
    (reply :: replies, final)

end Directory

namespace Memory

/-- A memory has nothing to open. -/
def operate (m : Memory) : DirectoryOperation → DirectoryReply × Memory
  | .reopen _ => (.opened (.ok ()), m)
  | .call c =>
    let (reply, next) := store.call m c
    (.replied reply, next)

def run : DirectoryRun → Memory → List DirectoryReply × Memory
  | [], m => ([], m)
  | (_, operation) :: rest, m =>
    let (reply, next) := m.operate operation
    let (replies, final) := run rest next
    (reply :: replies, final)

end Memory

namespace Directory

open FileTree

variable {d : Directory} {root : Place} {t : FileTree} {m : Memory} {operations : DirectoryRun}

/-! ## One operation -/

/-- A fault of the location is a fault of every call. -/
theorem isFileFault_of_fault? {id : DiffId} (hl : (d.location id).fault? ≠ none) {c : StoreCall}
    (hc : c = .has id ∨ c = .load id ∨ ∃ bytes, c = .save id bytes) :
    (d.operate t (.call c)).1.IsFileFault := by
  obtain ⟨e, he⟩ := Option.ne_none_iff_exists'.1 hl
  have hfind : t.find (d.location id) = .error e := by
    simp [find_eq, FileTree.place, he, Except.bind]
  have hnotFound : e ≠ .notFound := by
    rintro rfl
    unfold Location.fault? at he
    split at he
    · cases he
    · split at he <;> cases he
  have hpresent : t.present (d.location id) = .error e := by
    unfold present
    rw [hfind]
    split <;> simp_all
  rcases hc with rfl | rfl | ⟨bytes, rfl⟩
  · exact ⟨e, by simp [operate, Store.call, store, hpresent]⟩
  · refine ⟨e, .inr (.inr (.inl ?_))⟩
    simp only [operate, Store.call, store, FileTree.read, hfind]
  · exact ⟨e, by simp [operate, Store.call, store, hpresent]⟩

/-- Without a fault a new entry is saved. -/
theorem Holds.save_of_no_fault {id : DiffId} (h : Holds d.root root t m) (hget : m.get? id = none)
    (bytes : Bytes) (hfaults : ¬ (d.operate t (.call (.save id bytes))).1.IsFileFault) :
    (d.store.save id bytes t).answer = .ok () ∧
      Holds d.root root (d.store.save id bytes t).state (m.insert id bytes) ∧
      t.Within (d.store.save id bytes t).state := by
  have hl : (d.location id).fault? = none :=
    by_contra fun hl => hfaults (isFileFault_of_fault? hl (.inr (.inr ⟨bytes, rfl⟩)))
  refine (h.save_cases hl hget bytes).resolve_right ?_
  rintro ⟨-, e, hanswer⟩
  refine hfaults ⟨e, .inr (.inr (.inr ?_))⟩
  simp only [operate, Store.call, hanswer]

/-- Without a fault the reply is that of the memory, and so is what is held afterwards. -/
theorem Holds.operate_eq (h : Holds d.root root t m) (operation : DirectoryOperation)
    (hsame : ∀ id bytes old, operation = .call (.save id bytes) → m.get? id = some old →
      old = bytes)
    (hfaults : ¬ (d.operate t operation).1.IsFileFault) :
    (d.operate t operation).1 = (m.operate operation).1 ∧
      Holds d.root root (d.operate t operation).2 (m.operate operation).2 := by
  rcases operation with staleAge | id | id | ⟨id, bytes⟩
  · obtain ⟨hstate, hanswer | ⟨⟨e, he⟩, -⟩⟩ := Holds.open_eq (d := ⟨d.root, staleAge⟩) h
    · simp only [operate, Memory.operate, hstate, hanswer]
      exact ⟨trivial, h⟩
    · exact absurd ⟨e, .inl (by simp only [operate, he])⟩ hfaults
  · have hl : (d.location id).fault? = none :=
      by_contra fun hl => hfaults (isFileFault_of_fault? hl (.inl rfl))
    simp only [operate, Memory.operate, Store.call, h.has_eq hl]
    exact ⟨rfl, h⟩
  · have hl : (d.location id).fault? = none :=
      by_contra fun hl => hfaults (isFileFault_of_fault? hl (.inr (.inl rfl)))
    simp only [operate, Memory.operate, Store.call, h.load_eq hl]
    exact ⟨trivial, h⟩
  · have hl : (d.location id).fault? = none :=
      by_contra fun hl => hfaults (isFileFault_of_fault? hl (.inr (.inr ⟨bytes, rfl⟩)))
    rcases hget : m.get? id with _ | old
    · obtain ⟨hanswer, hnext, -⟩ := h.save_of_no_fault hget bytes hfaults
      simp only [operate, Memory.operate, Store.call, hanswer]
      exact ⟨rfl, hnext⟩
    · obtain ⟨hanswer, hstate⟩ := h.save_present hl (by rw [hget]; rfl) bytes
      obtain rfl := hsame id bytes old rfl hget
      simp only [operate, Memory.operate, Store.call, hanswer, hstate]
      refine ⟨rfl, h.congr fun other => ?_⟩
      simp only [Memory.store, Memory.get?_insert]
      split
      · next heq => rw [heq, hget]
      · rfl

/-- With room for the names there is no fault, whatever is saved. -/
theorem Holds.operate_no_fault (hd : d.Fits) (h : Holds d.root root t m)
    (operation : DirectoryOperation) :
    ¬ (d.operate t operation).1.IsFileFault ∧
      ∃ next, Holds d.root root (d.operate t operation).2 next := by
  have hroot := fault?_of_place h.place
  have hsim := simulates hd root
  rcases operation with staleAge | id | id | ⟨id, bytes⟩
  · obtain ⟨hstate, hanswer | ⟨-, id, hfault⟩⟩ := Holds.open_eq (d := ⟨d.root, staleAge⟩) h
    · simp only [operate, hstate, hanswer]
      exact ⟨by simp [DirectoryReply.IsFileFault], m, h⟩
    · exact absurd (Fits.folder (d := ⟨d.root, staleAge⟩) hd hroot id) hfault
  · simp only [operate, Store.call, hsim.has id h]
    exact ⟨by simp [DirectoryReply.IsFileFault], m, h⟩
  · simp only [operate, Store.call, hsim.load id h, Memory.store]
    refine ⟨?_, m, h⟩
    cases m.get? id <;> simp [DirectoryReply.IsFileFault]
  · simp only [operate, Store.call]
    rcases hget : m.get? id with _ | old
    · obtain ⟨hanswer, hnext⟩ := h.save_new hd hget bytes
      rw [hanswer]
      exact ⟨by simp [DirectoryReply.IsFileFault], _, hnext⟩
    · obtain ⟨hanswer, hstate⟩ :=
        h.save_present (hd.location hroot id) (by rw [hget]; rfl) bytes
      rw [hanswer, hstate]
      exact ⟨by simp [DirectoryReply.IsFileFault], m, h⟩

/-! ## Runs -/

theorem root_after (d : Directory) (operation : DirectoryOperation) :
    (d.after operation).root = d.root := by
  cases operation <;> rfl

/-- What `operations` do from a state that is in step with a memory. -/
theorem Holds.run_eq (h : Holds d.root root t m)
    (hsame : ∀ at₁ at₂ id bytes again, (at₁, .call (.save id bytes)) ∈ operations →
      (at₂, .call (.save id again)) ∈ operations → bytes = again)
    (hkept : ∀ time id bytes old, (time, .call (.save id bytes)) ∈ operations →
      m.get? id = some old → old = bytes)
    (hfaults : ∀ reply ∈ (d.run operations t).1, ¬ reply.IsFileFault) :
    (d.run operations t).1 = (Memory.run operations m).1 ∧
      ∀ done, done <+: operations → Holds d.root root (d.run done t).2 (Memory.run done m).2 := by
  induction operations generalizing d t m with
  | nil =>
    refine ⟨rfl, fun done hdone => ?_⟩
    rw [List.prefix_nil.1 hdone]
    exact h
  | cons first rest ih =>
    obtain ⟨now, operation⟩ := first
    simp only [run, List.forall_mem_cons] at hfaults
    obtain ⟨hreply, hnext⟩ := (h.atTime now).operate_eq operation
      (fun id bytes old heq hold => hkept now id bytes old (heq ▸ .head _) hold) hfaults.1
    have hkeptNext : ∀ time id bytes old, (time, .call (.save id bytes)) ∈ rest →
        (m.operate operation).2.get? id = some old → old = bytes := by
      intro time id bytes old hmem hold
      rcases operation with staleAge | other | other | ⟨other, written⟩
      · exact hkept time id bytes old (.tail _ hmem) hold
      · exact hkept time id bytes old (.tail _ hmem) hold
      · exact hkept time id bytes old (.tail _ hmem) hold
      · simp only [Memory.operate, Store.call, Memory.store, Memory.get?_insert] at hold
        split at hold
        · next heq =>
          cases hold
          subst heq
          exact hsame now time id _ bytes (.head _) (.tail _ hmem)
        · exact hkept time id bytes old (.tail _ hmem) hold
    obtain ⟨hreplies, hdone⟩ := ih (d := d.after operation) ((root_after d operation).symm ▸ hnext)
      (fun at₁ at₂ id bytes again hmem hagain =>
        hsame at₁ at₂ id bytes again (.tail _ hmem) (.tail _ hagain)) hkeptNext hfaults.2
    rw [root_after] at hdone
    refine ⟨by simp only [run, Memory.run, hreply, hreplies], fun done hprefix => ?_⟩
    rcases List.prefix_cons_iff.1 hprefix with rfl | ⟨more, rfl, hmore⟩
    · exact h
    · exact hdone more hmore

/-! ## Without faults -/

/-- No file operation fails, whatever is done from `t` on. -/
def Calm (d : Directory) (t : FileTree) : Prop :=
  ∀ operations, ∀ reply ∈ (d.run operations t).1, ¬ reply.IsFileFault

namespace Calm

theorem operate (h : d.Calm t) (operation : DirectoryOperation) :
    ¬ (d.operate t operation).1.IsFileFault :=
  h [(t.now, operation)] _ (List.mem_singleton_self _)

theorem call (h : d.Calm t) (c : StoreCall) : d.Calm (d.operate t (.call c)).2 :=
  fun operations reply hreply => h ((t.now, .call c) :: operations) reply (.tail _ hreply)

theorem fault?_location (h : d.Calm t) (id : DiffId) : (d.location id).fault? = none :=
  by_contra fun hl => h.operate (.call (.has id)) (isFileFault_of_fault? hl (.inl rfl))

end Calm

theorem Holds.open_of_calm (h : Holds d.root root t m) (hcalm : d.Calm t) :
    (d.open t).answer = .ok () ∧ (d.open t).state = t := by
  obtain ⟨hreply, -⟩ := h.operate_eq (.reopen d.staleAge) nofun (hcalm.operate _)
  exact ⟨DirectoryReply.opened.inj hreply, h.open_eq.1⟩

/-- With room for the names there is no fault. -/
theorem Holds.calm (hd : d.Fits) (h : Holds d.root root t m) : d.Calm t := by
  intro operations
  induction operations generalizing d t m with
  | nil => simp [run]
  | cons first rest ih =>
    obtain ⟨now, operation⟩ := first
    obtain ⟨hreply, next, hnext⟩ := (h.atTime now).operate_no_fault hd operation
    have hfits : (d.after operation).Fits := by
      rwa [Fits, root_after]
    simp only [run, List.forall_mem_cons]
    exact ⟨hreply, ih hfits ((root_after d operation).symm ▸ hnext)⟩

/-! ## From the first opening on -/

/-- A directory that can be created, or is there, with nothing in it. -/
structure Vacant (l : Location) (root : Place) (t : FileTree) : Prop where
  created : (t.createDirectories l).1 = .ok ()
  place : (t.createDirectories l).2.place l = .ok root
  empty : ∀ p node, (p, node) ∈ (t.createDirectories l).2.nodes → root <+: p → p = root

/-- Opening a vacant directory is opening it once it is there. -/
theorem Vacant.open_eq (h : Vacant d.root root t) :
    ∃ u, t.Within u ∧ Holds d.root root u .empty ∧ d.open t = d.open u := by
  rcases hcreate : t.createDirectories d.root with ⟨answer, u⟩
  obtain ⟨hcreated, hplace, hempty⟩ := h
  simp only [hcreate] at hcreated hplace hempty
  subst hcreated
  have hdirectory := contentAt?_of_find hplace (find_of_createDirectories hcreate)
  have hwithin := within_createDirectories t d.root
  rw [hcreate] at hwithin
  exact ⟨u, hwithin, ⟨.of_bare hempty, hplace, hdirectory⟩, open_of_createDirectories hcreate⟩

theorem Vacant.run_eq (h : Vacant d.root root t) (staleAge : Nat) :
    ∃ u, Holds d.root root u .empty ∧ ∀ done,
      d.run ((t.now, .reopen staleAge) :: done) t = d.run ((u.now, .reopen staleAge) :: done) u := by
  obtain ⟨u, -, hu, hopen⟩ := Vacant.open_eq (d := ⟨d.root, staleAge⟩) h
  have htime : t.atTime t.now = t ∧ u.atTime u.now = u := ⟨rfl, rfl⟩
  refine ⟨u, hu, fun done => ?_⟩
  simp only [run, operate, htime.1, htime.2, hopen]

theorem Vacant.run_no_fault (hd : d.Fits) (h : Vacant d.root root t) (staleAge : Nat) :
    ∀ reply ∈ (d.run ((t.now, .reopen staleAge) :: operations) t).1, ¬ reply.IsFileFault := by
  obtain ⟨u, hu, hrun⟩ := h.run_eq staleAge
  rw [hrun]
  exact hu.calm hd _

/-- **A directory store refines a memory.** The directory starts out empty, the store is opened and
opened again with any options, each identifier is always saved with the same bytes, and no file
operation fails. Then every reply is that of a memory, and after every operation the directory holds
one file for each entry of the memory, at its place, and no other file. -/
theorem run_eq_memory (d : Directory) (root : Place) (t : FileTree) (staleAge : Nat)
    (operations : DirectoryRun) (hvacant : Vacant d.root root t)
    (hsame : ∀ at₁ at₂ id bytes again, (at₁, .call (.save id bytes)) ∈ operations →
      (at₂, .call (.save id again)) ∈ operations → bytes = again)
    (hfaults : ∀ reply ∈ (d.run ((t.now, .reopen staleAge) :: operations) t).1,
      ¬ reply.IsFileFault) :
    (d.run ((t.now, .reopen staleAge) :: operations) t).1 =
        (Memory.run ((t.now, .reopen staleAge) :: operations) .empty).1 ∧
      ∀ done, done <+: operations →
        Holds d.root root (d.run ((t.now, .reopen staleAge) :: done) t).2
            (Memory.run ((t.now, .reopen staleAge) :: done) .empty).2 ∧
          ∀ p bytes, root <+: p →
            ((d.run ((t.now, .reopen staleAge) :: done) t).2.contentAt? p = some (.file bytes) ↔
              ∃ id, p = entryPlace root id ∧
                (Memory.run ((t.now, .reopen staleAge) :: done) .empty).2.get? id = some bytes) := by
  obtain ⟨u, hu, hrun⟩ := hvacant.run_eq staleAge
  rw [hrun] at hfaults
  obtain ⟨hreplies, hholds⟩ := hu.run_eq (by simpa using hsame)
    (by simp [Memory.empty, Memory.get?]) hfaults
  simp only [hrun]
  refine ⟨hreplies, fun done hdone => ?_⟩
  have hnow := hholds ((u.now, .reopen staleAge) :: done) (by simpa using hdone)
  exact ⟨hnow, fun p bytes hbelow => hnow.file_iff hbelow⟩

def sampleDirectory : Directory := ⟨⟨"store", ["store"], .plain⟩, usualStaleAge⟩

def sampleTree : FileTree := ⟨[(["store"], ⟨.directory, 0⟩)], 5⟩

theorem vacant_sampleTree : Vacant sampleDirectory.root ["store"] sampleTree := by
  have hplace : sampleTree.place sampleDirectory.root = .ok ["store"] := by
    rw [place_eq _ (Location.fault?_eq_none_iff.2 (by decide))]
    rfl
  have hfind : sampleTree.find sampleDirectory.root = .ok .directory := by
    rw [find_eq, hplace]
    rfl
  have hcreate := createDirectories_of_find hfind
  refine ⟨by rw [hcreate], by rw [hcreate]; exact hplace, ?_⟩
  rw [hcreate]
  intro p node hmem _
  simp [sampleTree] at hmem
  exact hmem.1

/-- An entry is saved, found after opening the store again, and saved again; another one is not
there. -/
def sampleOperations : DirectoryRun :=
  [(6, .call (.save (sampleId 1) [7, 7])), (7, .call (.has (sampleId 2))), (9, .reopen 0),
    (9, .call (.load (sampleId 1))), (9, .call (.save (sampleId 1) [7, 7])),
    (8, .call (.load (sampleId 2)))]

theorem run_eq_memory_reopened :
    (sampleDirectory.run ((5, .reopen 3) :: sampleOperations) sampleTree).1 =
      [.opened (.ok ()), .replied (.saved (.ok ())), .replied (.present (.ok false)),
        .opened (.ok ()), .replied (.loaded (.ok [7, 7])), .replied (.saved (.ok ())),
        .replied (.loaded (.error (.notFound (sampleId 2))))] := by
  have hfits : sampleDirectory.Fits := by
    unfold Fits
    decide
  have hsame : ∀ at₁ at₂ id bytes again, (at₁, .call (.save id bytes)) ∈ sampleOperations →
      (at₂, .call (.save id again)) ∈ sampleOperations → bytes = again := by
    intro at₁ at₂ id bytes again h hagain
    simp [sampleOperations] at h hagain
    grind
  obtain ⟨hreplies, -⟩ := run_eq_memory sampleDirectory ["store"] sampleTree 3 sampleOperations
    vacant_sampleTree hsame (vacant_sampleTree.run_no_fault hfits 3)
  rw [show (5 : Int) = sampleTree.now from rfl, hreplies]
  rfl

end Directory

end SszArchive
