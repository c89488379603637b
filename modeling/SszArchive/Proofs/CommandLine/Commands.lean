import SszArchive.CommandLine.Run
import SszArchive.Proofs.DirectoryRuns
import SszArchive.Proofs.Refinement
import SszArchive.Proofs.SchemaTree
import SszArchive.Proofs.WordDelta

/-!
Single commands on a store that earlier commands may have written. A diff command prints the
identifier of its step, which depends on the versions and on the nodes given as words alone, and
leaves a store with that step; an apply command replays the steps that it is given.
-/

namespace SszArchive.CommandLine

open FileTree

variable {t u : FileTree} {l store : Location} {root : Place} {m : Memory} {source : Source}
  {v : Version}

/-! ## Text -/

/-- What is printed for an identifier. -/
def idLine (id : DiffId) : Bytes := textBytes (id.hex ++ "\n")

/-- A node is picked by a selector or by its inverse. -/
theorem countP_invert (s : Selector) {g : GIndex} (hg : GIndex.valid g = true) :
    [s, s.invert].countP (·.selects g) = 1 := by
  have hall : Selector.all.selects g = true := hg
  cases hs : s.selects g <;> simp [Selector.invert, Selector.selects, hs, hg]

/-- The command line's schema reads back what it writes, whatever nodes are given as words. -/
theorem schemaFor_apply_compute (words : List GIndex) (base target : Version) :
    ∃ payload, (schemaFor words).compute base target = .ok payload ∧
      (payload.length < Wire.bufferBound →
        (schemaFor words).apply base payload = .ok target) := by
  unfold schemaFor
  rcases numeric? words with _ | numeric
  · obtain ⟨payload, hcompute, happly⟩ := Schema.slices_roundTrips base target
    exact ⟨payload, hcompute, fun _ => happly⟩
  · let tree : SchemaTree :=
      .composite [(numeric, .leaf .wordDelta), (numeric.invert, .leaf .slices)]
    have hlawful : tree.Lawful :=
      ⟨Schema.wordDelta_roundTrips, Schema.slices_roundTrips, trivial⟩
    have hcovers : tree.Covers target := by
      refine ⟨⟨trivial, trivial, trivial⟩, fun s hs => ?_⟩
      have hnode := target.wellFormed.nodeNonzero s hs
      exact countP_invert numeric (by simpa [GIndex.valid] using hnode)
    obtain ⟨payload, hcompute, happly⟩ := tree.apply_compute hlawful base target
    exact ⟨payload, hcompute, fun hshort => (happly hshort).1.2 hcovers⟩

/-- What is written for the step between two versions. -/
def stepPayload (words : List GIndex) (base target : Version) : Bytes :=
  match (schemaFor words).compute base target with
  | .ok payload => payload
  | .error _ => []

def step (words : List GIndex) (base target : Version) : Transition :=
  ⟨base, target, stepPayload words base target⟩

theorem compute_step (words : List GIndex) (base target : Version) :
    (schemaFor words).compute base target = .ok (stepPayload words base target) := by
  obtain ⟨payload, hcompute, -⟩ := schemaFor_apply_compute words base target
  simp only [stepPayload, hcompute]

theorem apply_step {words : List GIndex} {base target : Version}
    (hshort : (stepPayload words base target).length < Wire.bufferBound) :
    (schemaFor words).apply base (stepPayload words base target) = .ok target := by
  obtain ⟨payload, hcompute, happly⟩ := schemaFor_apply_compute words base target
  rw [compute_step] at hcompute
  cases hcompute
  exact happly hshort

/-! ## Versions -/

/-- The store at a location can be opened, and leads to `root`. Its directory is there or can be
created, which adds nothing beneath it, and then no file operation of the store fails. -/
structure Opens (l : Location) (root : Place) (t : FileTree) : Prop where
  created : (t.createDirectories l).1 = .ok ()
  place : (t.createDirectories l).2.place l = .ok root
  same : SameBeneath root t (t.createDirectories l).2
  calm : (directoryAt l).Calm (t.createDirectories l).2

section

variable [Codecs]

/-- What is beneath `root` are the packed entries of `m`. -/
def Kept (root : Place) (t : FileTree) (m : Memory) : Prop :=
  ∃ entries, Directory.HoldsBeneath root t entries ∧ entries.UnpacksTo m

theorem Kept.of_bare (h : ∀ p node, (p, node) ∈ t.nodes → root <+: p → p = root) :
    Kept root t .empty :=
  ⟨.empty, .of_bare h, .empty⟩

theorem Kept.of_same (hsame : SameBeneath root t u) (h : Kept root t m) : Kept root u m := by
  obtain ⟨entries, hentries, hunpacks⟩ := h
  exact ⟨entries, hentries.of_same hsame, hunpacks⟩

theorem Kept.of_holds (h : Directory.HoldsPacked l root t m) : Kept root t m := by
  obtain ⟨entries, hentries, hunpacks⟩ := h
  exact ⟨entries, hentries.toHoldsBeneath, hunpacks⟩

/-- A directory that is there opens, if there is room for the names. -/
theorem Kept.opens (h : Kept root t m) (hfits : (directoryAt l).Fits)
    (hplace : t.place l = .ok root) (hfind : t.find l = .ok .directory) : Opens l root t := by
  obtain ⟨entries, hentries, -⟩ := h
  have hcreate := createDirectories_of_find hfind
  refine ⟨?_, ?_, ?_, ?_⟩ <;> rw [hcreate]
  · exact hplace
  · exact fun _ _ _ _ => Iff.rfl
  · exact Directory.Holds.calm hfits ⟨hentries, hplace, contentAt?_of_find hplace hfind⟩

/-- Opening the store only adds its directory. -/
theorem Kept.open_eq (h : Kept root t m) (hopens : Opens l root t) :
    ∃ u, ((directoryAt l).open t).answer = .ok () ∧ ((directoryAt l).open t).state = u ∧
      t.Within u ∧ Directory.HoldsPacked l root u m ∧ (directoryAt l).Calm u := by
  obtain ⟨entries, hentries, hunpacks⟩ := h
  obtain ⟨hcreated, hplace, hsame, hcalm⟩ := hopens
  have hwithin := within_createDirectories t l
  rcases hcreate : t.createDirectories l with ⟨answer, u⟩
  simp only [hcreate] at hcreated hplace hsame hcalm hwithin
  subst hcreated
  have hu : Directory.Holds l root u entries :=
    ⟨hentries.of_same hsame, hplace,
      contentAt?_of_find hplace (find_of_createDirectories hcreate)⟩
  obtain ⟨hanswer, hstate⟩ := Directory.Holds.open_of_calm (d := directoryAt l) hu hcalm
  rw [Directory.open_of_createDirectories (d := directoryAt l) hcreate]
  exact ⟨u, hanswer, hstate, hwithin, ⟨entries, hu, hunpacks⟩, hcalm⟩

theorem withStore_of_open {α : Type} {c : Compression}
    (use : Store FileTree → FileTree → Outcome DiffFault FileTree α)
    (hanswer : ((directoryAt store).open t).answer = .ok ())
    (hstate : ((directoryAt store).open t).state = u) :
    (withStore store c t use).answer =
        (use ((directoryAt store).store.packed c.backend) u).answer.mapError DiffFault.message ∧
      (withStore store c t use).state =
        (use ((directoryAt store).store.packed c.backend) u).state := by
  simp only [withStore, hanswer, hstate]
  exact ⟨trivial, trivial⟩

end

theorem builtIn_compressionFor (method : Method) (level : Nat) :
    (compressionFor method level).BuiltIn := by
  cases method <;> exact nofun

/-! ## Diff -/

/-- A diff command with what its arguments mean and the versions that it reads. -/
structure DiffCommand where
  args : List String
  settings : Settings
  store : Location
  words : List GIndex
  old : Source
  new : Source
  method : Method
  level : Nat
  verify : Bool
  base : Version
  target : Version

namespace DiffCommand

variable {c : DiffCommand}

def step (c : DiffCommand) : Transition := CommandLine.step c.words c.base c.target

def ends (c : DiffCommand) : Version × Version := (c.base, c.target)

def compression (c : DiffCommand) : Compression := compressionFor c.method c.level

/-- The arguments are those of the command, the files hold its versions, and the store opens. -/
structure Reads (c : DiffCommand) (root : Place) (t : FileTree) : Prop where
  parsed : parse c.args =
    .ok (c.settings, .diff c.store c.words c.old c.new c.method c.level c.verify)
  base : load t c.old = .ok c.base
  target : load t c.new = .ok c.target
  opens : Opens c.store root t

/-- The payload has room in memory, and decompressing it undoes compressing it. -/
structure Storable [Codecs] (c : DiffCommand) : Prop where
  short : c.step.payload.length < Wire.bufferBound
  undoes : c.compression.backend.UndoesOn c.step.payload

def request (c : DiffCommand) : CommitRequest :=
  ⟨schemaFor c.words, c.verify, c.base, c.target⟩

theorem answer_request (hshort : c.step.payload.length < Wire.bufferBound) :
    c.request.answer = .ok (c.step.id, c.step.payload) :=
  CommitRequest.answer_of_compute (compute_step c.words c.base c.target)
    fun _ => apply_step hshort

/-- A diff command prints its identifier and commits its step. -/
theorem run_eq [Codecs] (h : Kept root t m) (hreads : c.Reads root t) (hstorable : c.Storable) :
    (run c.args t).exit = 0 ∧ (run c.args t).stdout = idLine c.step.id ∧
      t.Within (run c.args t).tree ∧
      Kept root (run c.args t).tree (c.request.commit Memory.store m).state := by
  obtain ⟨u, hanswer, hstate, hwithin, hholds, hcalm⟩ := h.open_eq hreads.opens
  have hrefines := Directory.refines_packed (directoryAt c.store) root t
    (builtIn_compressionFor c.method c.level)
  obtain ⟨hcommit, hnext, -, hadds⟩ := hrefines.commit c.request ⟨hholds, hcalm, hwithin⟩ (by
    intro id payload h
    rw [answer_request hstorable.short] at h
    cases h
    exact hstorable.undoes)
  rw [answer_request hstorable.short] at hcommit
  obtain ⟨hdone, hleft⟩ := withStore_of_open (c := c.compression)
    (fun s tree => (Archive.mk s (schemaFor c.words) c.verify).commit c.base c.target tree)
    hanswer hstate
  have hanswered : (withStore c.store c.compression t fun s tree =>
      (Archive.mk s (schemaFor c.words) c.verify).commit c.base c.target tree).answer =
        .ok (c.step.id, c.step.payload) := by
    rw [hdone]
    exact congrArg (Except.mapError DiffFault.message) hcommit
  have hrun : run c.args t =
      runDiff c.settings c.store c.words c.old c.new c.compression c.verify t := by
    simp only [run, hreads.parsed, runCommand, compression]
  rw [hrun, runDiff, hreads.base, hreads.target]
  simp only [hanswered, hleft]
  exact ⟨trivial, rfl, hadds, .of_holds hnext⟩

end DiffCommand

/-! ## Apply -/

/-- A file to write to can be written once the store is open, and it is not there or may be
replaced. -/
def Writable (s : Settings) (store : Location) (t : FileTree) (output : Option Location)
    (bytes : Bytes) : Prop :=
  ∀ l, output = some l → (s.force = true ∨ (t.find l).isOk = false) ∧
    ∃ written, ((directoryAt store).open t).state.write l bytes = .ok written

end SszArchive.CommandLine
