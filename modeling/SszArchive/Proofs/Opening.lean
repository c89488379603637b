import SszArchive.Proofs.Sweep

/-!
Opening a directory store takes away the temporary files that are old enough and nothing else, in
whatever order directories are listed and wherever it is cut short. Where nothing interferes it is
the opening that runs.
-/

namespace SszArchive.Directory

open FileTree

/-- Creates the root, which cannot be refused where it is there. -/
def createRoot (d : Directory) (s : Surroundings) (t : FileTree) :
    Except FileFault Unit × FileTree :=
  match s.creation, t.find d.root with
  | none, _ => t.createDirectories d.root
  | some _, .ok .directory => (.ok (), t)
  | some (reached, reason), _ => (.error (.other reason), (t.createDirectories reached).2)

/-- Opens the store as the surroundings have it. -/
def openIn (d : Directory) (s : Surroundings) (t : FileTree) : Outcome StoreFault FileTree Unit :=
  match d.createRoot s t with
  | (.error e, t) => ⟨.error (.files e), t, []⟩
  | (.ok (), t) =>
    match t.place d.root with
    | .error e => ⟨.error (.files e), t, []⟩
    | .ok root =>
      let (folders, broken) := s.listing d.root (t.children root)
      let swept := each (d.visitFolder s root) broken folders 0 t
      match swept.answer with
      | .error e => ⟨.error e, swept.state, swept.log⟩
      | .ok removed =>
        let warning : Log :=
          if removed = 0 then []
          else [⟨.warn, s!"fs store {d.root.text}: removed {removed} interrupted write(s)"⟩]
        ⟨.ok (), swept.state,
          swept.log ++ warning ++ [⟨.debug, s!"fs store opened at {d.root.text}"⟩]⟩

variable {d : Directory} {s : Surroundings} {t u : FileTree} {root p : Place} {gone : List Place}
  {folder name : String} {node : Node} {l : Location} {removed : Nat} {id : DiffId}

/-! ## Entries -/

theorem names_location (d : Directory) (id : DiffId) :
    (d.location id).names = d.root.names ++ [id.folderName, id.hex] := by
  simp [location, folder, Location.child, DiffId.folderName]

/-- What is at the location of an entry depends on what is at its place and above. -/
theorem find_location (hroot : t.place d.root = .ok root) (hl : (d.location id).fault? = none) :
    t.find (d.location id) =
      match t.contentAt? root, t.contentAt? (folderPlace root id) with
      | some .directory, some .directory =>
        match t.contentAt? (entryPlace root id) with
        | none => .error .notFound
        | some content => .ok content
      | some .directory, none => .error .notFound
      | none, _ => .error .notFound
      | _, _ => .error .notDirectory := by
  have hending : (d.location id).ending = .plain := rfl
  have hfolder : id.folderName ≠ ".." := (id.isHex_hexChars.take 2).ne_up
  have hentry : id.hex ≠ ".." := id.isHex_hexChars.ne_up
  have hfolderSize : ¬ longestName < id.folderName.utf8ByteSize := by
    rw [id.utf8ByteSize_folderName]
    decide
  have hentrySize : ¬ longestName < id.hex.utf8ByteSize := by
    rw [id.utf8ByteSize_hex]
    decide
  rw [place_eq t (fault?_of_place hroot)] at hroot
  rw [find_eq, place_eq t hl, names_location, follow_append, hroot, Except.bind]
  simp only [follow_cons, hfolder, hentry, hfolderSize, hentrySize, if_false, hending, entryPlace,
    folderPlace]
  rcases t.contentAt? root with _ | _ | _
  · rfl
  · rfl
  · rcases t.contentAt? (root ++ [id.folderName]) with _ | _ | _
    · rfl
    · rfl
    · simp only [follow, Except.bind]
      rcases t.contentAt? (root ++ [id.folderName] ++ [id.hex]) with _ | _ | _ <;> rfl

/-- No entry has the name of a temporary file, so each is found as before. -/
theorem find_location_without (hroot : t.place d.root = .ok root)
    (hgone : ∀ p ∈ gone, d.Leftover root t p) (id : DiffId) :
    (t.without gone).find (d.location id) = t.find (d.location id) := by
  have hfiles := files_of_leftovers hgone
  rcases hl : (d.location id).fault? with _ | e
  · have hkept : ∀ p, (∀ folder name, name.startsWith temporaryMark →
        p ≠ root ++ [folder] ++ [name]) → (t.without gone).contentAt? p = t.contentAt? p := by
      intro p hp
      rw [contentAt?_without hfiles, if_neg]
      intro hmem
      obtain ⟨folder, name, -, -, heq, -, hname, -⟩ := hgone p hmem
      exact hp folder name hname heq
    rw [find_location hroot hl, find_location ((place_without_iff hfiles).2 hroot) hl, hkept root,
      hkept (folderPlace root id), hkept (entryPlace root id)]
    · rintro folder name hname heq
      obtain ⟨-, rfl⟩ : id.folderName = folder ∧ id.hex = name := by
        simpa [entryPlace, folderPlace] using heq
      rw [DiffId.hex, id.isHex_hexChars.not_temporary] at hname
      cases hname
    · intro folder name _ heq
      simpa [folderPlace] using congrArg List.length heq
    · intro folder name _ heq
      simpa using congrArg List.length heq
  · simp [find_eq, FileTree.place, hl, Except.bind]

/-- In a directory that is missing there are no entries. -/
theorem find_location_of_missing (hl : (d.location id).fault? = none)
    (hmissing : t.place d.root = .error .notFound ∨
      ∃ p, t.place d.root = .ok p ∧ t.contentAt? p = none) :
    t.find (d.location id) = .error .notFound := by
  have hfault := Location.fault?_of_child (Location.fault?_of_child hl)
  rw [place_eq t hfault] at hmissing
  rw [find_eq, place_eq t hl, names_location, follow_append]
  rcases hmissing with hplace | ⟨p, hplace, hnone⟩
  · rw [hplace]
    rfl
  · rw [hplace, Except.bind, follow_cons, hnone]
    rfl

/-- Where the root is created, entries are missing before and after. Two dots are left out: behind
a name that is missing they hide a directory that is there, and creating the name uncovers it. -/
theorem find_location_created (ht : t.WellFormed) (hup : ".." ∉ d.root.names)
    (hcreate : t.createDirectories d.root = (.ok (), u)) (hfind : t.find d.root ≠ .ok .directory)
    (id : DiffId) : u.find (d.location id) = t.find (d.location id) := by
  rcases hl : (d.location id).fault? with _ | e
  · have hfault := Location.fault?_of_child (Location.fault?_of_child hl)
    have hmissing := missing_of_createDirectories hcreate hfind
    have hroot := find_of_createDirectories hcreate
    obtain ⟨root, hplace⟩ := exists_place_of_find hroot
    obtain rfl : root = d.root.names := by
      rw [place_eq u hfault] at hplace
      exact eq_append_of_follow hup hplace
    have hdirectory := contentAt?_of_find hplace hroot
    have hnone : u.contentAt? (folderPlace d.root.names id) = none := by
      have hfolder : t.contentAt? (folderPlace d.root.names id) = none :=
        ht.contentAt?_append_eq_none (ht.contentAt?_of_missing hup hmissing) [id.folderName]
      have hadds := (addsDirectories_createDirectories t d.root).2 (folderPlace d.root.names id)
      rw [hcreate] at hadds
      rcases hadds with hsame | ⟨-, -, hlength⟩
      · rwa [contentAt?, hsame]
      · simp only [folderPlace, List.length_append, List.length_singleton] at hlength
        omega
    rw [find_location_of_missing hl hmissing, find_location hplace hl, hdirectory, hnone]
  · simp [find_eq, FileTree.place, hl, Except.bind]

/-! ## Opening -/

theorem leftover_iff_of_adds {depth : Nat} (ht : t.WellFormed) (h : AddsDirectories depth t u) :
    d.Leftover root u p ↔ d.Leftover root t p := by
  constructor
  · rintro ⟨folder, name, bytes, modified, rfl, -, hname, hnode, hage⟩
    rw [h.1] at hage
    rcases h.2 (root ++ [folder] ++ [name]) with hsame | ⟨-, hdirectory, -⟩
    · rw [hsame] at hnode
      have hfolder := ht.above_of_contentAt? (contentAt?_of_node? hnode)
      rw [List.dropLast_concat] at hfolder
      exact ⟨folder, name, bytes, modified, rfl, hfolder, hname, hnode, hage⟩
    · rw [contentAt?_of_node? hnode] at hdirectory
      cases hdirectory
  · rintro ⟨folder, name, bytes, modified, rfl, hfolder, hname, hnode, hage⟩
    have hkept : ∀ {q node}, t.node? q = some node → u.node? q = some node := by
      intro q node hq
      rcases h.2 q with hsame | ⟨hnone, -⟩
      · rw [hsame, hq]
      · cases hnone.symm.trans hq
    refine ⟨folder, name, bytes, modified, rfl, ?_, hname, hkept hnode, h.1 ▸ hage⟩
    obtain ⟨node, hq, hcontent⟩ := Option.map_eq_some_iff.1 hfolder
    rw [contentAt?_of_node? (hkept hq), hcontent]

theorem createRoot_cases (d : Directory) (s : Surroundings) (t : FileTree) :
    d.createRoot s t = t.createDirectories d.root ∨ t.find d.root ≠ .ok .directory ∧
      ∃ reached reason,
        d.createRoot s t = (.error (.other reason), (t.createDirectories reached).2) := by
  rcases hcreation : s.creation with _ | ⟨reached, reason⟩
  · exact .inl (by rw [createRoot, hcreation])
  · by_cases hfind : t.find d.root = .ok .directory
    · exact .inl (by rw [createRoot, hcreation, hfind, createDirectories_of_find hfind])
    · refine .inr ⟨hfind, reached, reason, ?_⟩
      rw [createRoot, hcreation]
      split <;> simp_all

theorem createDirectories_of_createRoot (h : d.createRoot s t = (.ok (), u)) :
    t.createDirectories d.root = (.ok (), u) := by
  rcases createRoot_cases d s t with hcreate | ⟨-, reached, reason, hcreate⟩
  · rw [← hcreate, h]
  · cases h.symm.trans hcreate

theorem wellFormed_createRoot (ht : t.WellFormed) (d : Directory) (s : Surroundings) :
    (d.createRoot s t).2.WellFormed := by
  rcases createRoot_cases d s t with hcreate | ⟨-, reached, reason, hcreate⟩ <;> rw [hcreate]
  · exact ht.createDirectories d.root
  · exact ht.createDirectories reached

theorem addsDirectories_createRoot (d : Directory) (s : Surroundings) (t : FileTree) :
    ∃ depth, AddsDirectories depth t (d.createRoot s t).2 := by
  rcases createRoot_cases d s t with hcreate | ⟨-, reached, reason, hcreate⟩ <;> rw [hcreate]
  · exact ⟨_, addsDirectories_createDirectories t d.root⟩
  · exact ⟨_, addsDirectories_createDirectories t reached⟩

/-- Opening creates the root and takes leftovers away, and all of them if it succeeds. -/
theorem openIn_cases (ht : t.WellFormed) (d : Directory) (s : Surroundings) :
    ∃ final, (d.openIn s t).state = (d.createRoot s t).2.without final ∧
      (d.createRoot s t).2.Files final ∧
      (final = [] ∨ ∃ root, (d.createRoot s t).2.place d.root = .ok root ∧
        ∀ p ∈ final, d.Leftover root (d.createRoot s t).2 p) ∧
      ((d.openIn s t).answer = .ok () → ∃ u root, d.createRoot s t = (.ok (), u) ∧
        u.place d.root = .ok root ∧ ∀ p, p ∈ final ↔ d.Leftover root u p) := by
  rcases hcreate : d.createRoot s t with ⟨e | _, u⟩
  · refine ⟨[], ?_, ?_, .inl rfl, ?_⟩ <;> simp [openIn, hcreate, Files]
  · have hcreated := createDirectories_of_createRoot hcreate
    have hu := wellFormed_createRoot ht d s
    rw [hcreate] at hu
    have hfind := find_of_createDirectories hcreated
    obtain ⟨root, hroot⟩ := exists_place_of_find hfind
    obtain ⟨final, hstate, -, hframe, hall⟩ :=
      sweeps_root hu hroot (contentAt?_of_find hroot hfind) s 0
    have hleft : ∀ p ∈ final, d.Leftover root u p := fun p hp => by simpa using hframe p hp
    refine ⟨final, ?_, files_of_leftovers hleft, .inr ⟨root, hroot, hleft⟩, fun hanswer =>
      ⟨u, root, rfl, hroot, ?_⟩⟩
    · simp only [openIn, hcreate, hroot]
      split <;> exact hstate
    · simp only [openIn, hcreate, hroot] at hanswer
      split at hanswer
      · cases hanswer
      · next removed hcount => exact fun p => ⟨hleft p, fun hp => hall removed hcount p hp hp⟩

/-- So the store can be opened again. -/
theorem wellFormed_openIn (ht : t.WellFormed) (d : Directory) (s : Surroundings) :
    (d.openIn s t).state.WellFormed := by
  obtain ⟨final, hstate, hfiles, -⟩ := openIn_cases ht d s
  rw [hstate]
  exact (wellFormed_createRoot ht d s).without hfiles

/-! ## Calm surroundings -/

theorem sweep_append (files more : List (Except FileFault (Location × Node))) (removed : Nat)
    (t : FileTree) :
    d.sweep (files ++ more) removed t = andThen (d.sweep files removed t) (d.sweep more) := by
  induction files generalizing removed t with
  | nil => rfl
  | cons file rest ih =>
    rcases file with e | ⟨l, node⟩
    · rfl
    · simp only [List.cons_append, sweep]
      split
      · split
        · exact ih _ _
        · exact ih _ _
        · rfl
      · rw [ih, andThen, andThen]
        rcases (d.sweep rest removed t).answer with _ | _ <;> rfl

/-- The temporary files among the entries of the directory at `l`. -/
def temporaryEntries (l : Location) (entries : List (String × Node)) :
    List (Except FileFault (Location × Node)) :=
  entries.filterMap fun (name, node) =>
    if name.startsWith temporaryMark then some (.ok (l.child name, node)) else none

theorem each_visitFile_calm (l : Location) (entries : List (String × Node)) (removed : Nat)
    (t : FileTree) :
    each (d.visitFile .calm l) none entries removed t =
      d.sweep (temporaryEntries l entries) removed t := by
  induction entries generalizing removed t with
  | nil => rfl
  | cons entry rest ih =>
    obtain ⟨name, node⟩ := entry
    have hnext : each (d.visitFile .calm l) none rest = d.sweep (temporaryEntries l rest) :=
      funext fun removed => funext fun t => ih removed t
    rw [each, hnext]
    by_cases hname : name.startsWith temporaryMark
    · have hentries : temporaryEntries l ((name, node) :: rest) =
          .ok (l.child name, node) :: temporaryEntries l rest :=
        List.filterMap_cons_some (by simp [hname])
      rw [hentries, sweep]
      simp only [visitFile, hname, if_true, unlessRefused, Surroundings.calm, removeFile]
      split
      · rcases t.remove (l.child name) with e | u
        · cases e <;> rfl
        · rfl
      · rfl
    · have hentries : temporaryEntries l ((name, node) :: rest) = temporaryEntries l rest :=
        List.filterMap_cons_none (by simp [hname])
      rw [hentries, visitFile, if_neg hname]
      rfl

theorem andThen_congr {first : Outcome StoreFault FileTree Nat}
    {next other : Nat → FileTree → Outcome StoreFault FileTree Nat}
    (h : ∀ removed, first.answer = .ok removed →
      next removed first.state = other removed first.state) :
    andThen first next = andThen first other := by
  unfold andThen
  rcases hanswer : first.answer with e | removed
  · rfl
  · simp only [h removed hanswer]

/-- The temporary files in one entry of the root. -/
def filesBelow (d : Directory) (t : FileTree) (root : Place) (entry : String × Node) :
    List (Except FileFault (Location × Node)) :=
  match entry.2.content, t.find (d.root.child entry.1) with
  | .file _, _ => []
  | .directory, .error e => [.error e]
  | .directory, .ok _ =>
    temporaryEntries (d.root.child entry.1) (t.children (root ++ [entry.1]))

theorem find_folder_without (ht : t.WellFormed) (hroot : t.place d.root = .ok root)
    (hdirectory : t.contentAt? root = some .directory) (hfiles : t.Files gone)
    (hmem : (root ++ [folder], node) ∈ t.nodes) (hkept : root ++ [folder] ∉ gone) :
    (t.without gone).find (d.root.child folder) = t.find (d.root.child folder) := by
  have hup : folder ≠ ".." := by
    rintro rfl
    exact ht.up hmem (by simp)
  rw [find_eq, find_eq, place_child hroot hdirectory hup,
    place_child ((place_without_iff hfiles).2 hroot) ((directory_without_iff hfiles).2 hdirectory)
      hup]
  rcases (d.root.child folder).fault? with _ | e
  · by_cases hsize : longestName < folder.utf8ByteSize
    · simp [hsize, Except.bind]
    · simp [hsize, Except.bind, contentAt?_without hfiles, hkept]
  · rfl

theorem visitFolder_calm {entry : String × Node}
    (hfind : u.find (d.root.child entry.1) = t.find (d.root.child entry.1))
    (hchildren : u.children (root ++ [entry.1]) = t.children (root ++ [entry.1])) (removed : Nat) :
    d.visitFolder .calm root entry removed u = d.sweep (d.filesBelow t root entry) removed u := by
  obtain ⟨folder, content, modified⟩ := entry
  simp only [visitFolder, filesBelow, hfind, hchildren]
  cases content with
  | file bytes => rfl
  | directory =>
    rcases t.find (d.root.child folder) with e | found
    · rfl
    · exact each_visitFile_calm _ _ _ _

/-- The folders in the order of the tree, each listed when it is reached, are swept as if all had
been listed before: what is taken away in one folder is in no other. -/
theorem each_visitFolder_calm (ht : t.WellFormed) (hroot : t.place d.root = .ok root)
    (hdirectory : t.contentAt? root = some .directory) {folders : List (String × Node)}
    (hmem : ∀ entry ∈ folders, entry ∈ t.children root) (hdistinct : (folders.map Prod.fst).Nodup)
    (hgone : ∀ p ∈ gone, d.Leftover root t p)
    (hother : ∀ p ∈ gone, ∀ entry ∈ folders, p.dropLast ≠ root ++ [entry.1]) (removed : Nat) :
    each (d.visitFolder .calm root) none folders removed (t.without gone) =
      d.sweep (folders.flatMap (d.filesBelow t root)) removed (t.without gone) := by
  induction folders generalizing gone removed with
  | nil => rfl
  | cons entry rest ih =>
    have hlisted := mem_children.1 (hmem entry List.mem_cons_self)
    have hfiles := files_of_leftovers hgone
    have hvisit : d.visitFolder .calm root entry removed (t.without gone) =
        d.sweep (d.filesBelow t root entry) removed (t.without gone) := by
      refine visitFolder_calm (find_folder_without ht hroot hdirectory hfiles hlisted ?_)
        (children_without fun p hp => hother p hp entry List.mem_cons_self) removed
      intro hp
      obtain ⟨folder, name, -, -, heq, -⟩ := hgone _ hp
      simpa using congrArg List.length heq
    rw [each, List.flatMap_cons, sweep_append, ← hvisit]
    refine andThen_congr fun count _ => ?_
    obtain ⟨final, hstate, -, hframe, -⟩ :=
      sweeps_visitFolder (s := .calm) ht hroot hdirectory hlisted hgone removed
    rw [List.map_cons, List.nodup_cons] at hdistinct
    rw [hstate]
    refine ih (fun next hnext => hmem next (List.mem_cons_of_mem _ hnext)) hdistinct.2 ?_ ?_ count
    · exact fun p hp => (hframe p hp).elim (hgone p) And.right
    · intro p hp next hnext
      rcases hframe p hp with hp | ⟨⟨name, rfl⟩, -⟩
      · exact hother p hp next (List.mem_cons_of_mem _ hnext)
      · rw [List.dropLast_concat]
        intro heq
        have hname : entry.1 = next.1 := by simpa using heq
        exact hdistinct.1 (hname ▸ List.mem_map_of_mem hnext)

/-- In calm surroundings the store is opened as it is. -/
theorem openIn_calm (ht : t.WellFormed) (d : Directory) : d.openIn .calm t = d.open t := by
  have hcalm : d.createRoot .calm t = t.createDirectories d.root := rfl
  rcases hcreate : t.createDirectories d.root with ⟨e | _, u⟩
  · simp [openIn, Directory.open, hcalm, hcreate]
  · have hu := ht.createDirectories d.root
    rw [hcreate] at hu
    have hfind := find_of_createDirectories hcreate
    obtain ⟨root, hroot⟩ := exists_place_of_find hfind
    have hsweep : each (d.visitFolder .calm root) none (u.children root) 0 (u.without []) =
        d.sweep (d.temporaryFiles u root) 0 (u.without []) :=
      each_visitFolder_calm hu hroot (contentAt?_of_find hroot hfind) (fun _ => id)
        (hu.nodup_children root) (by simp) (by simp) 0
    rw [without_nil] at hsweep
    simp only [openIn, Directory.open, hcalm, hcreate, hroot]
    rw [← hsweep]
    rfl

/-! ## Success -/

/-- A file that was found is removed, unless it was taken away before. -/
theorem eq_notFound_of_remove (hfiles : t.Files gone) (hplace : t.place l = .ok p)
    (hfile : t.contentAt? p ≠ some .directory) {e : FileFault}
    (h : (t.without gone).remove l = .error e) : e = .notFound := by
  simp only [remove, (place_without_iff hfiles).2 hplace] at h
  rcases hnode : (t.without gone).node? p with _ | ⟨bytes | _, modified⟩ <;>
    simp only [hnode] at h <;> cases h
  · rfl
  · exact absurd ((directory_without_iff hfiles).1 (contentAt?_of_node? hnode)) hfile

/-- Files that can all be found are swept to the end. -/
theorem exists_sweep_eq_ok {files : List (Except FileFault (Location × Node))}
    (hall : ∀ file ∈ files, ∃ l node p bytes, file = .ok (l, node) ∧ t.place l = .ok p ∧
      t.contentAt? p = some (.file bytes))
    (hfiles : t.Files gone) (removed : Nat) :
    ∃ count, (d.sweep files removed (t.without gone)).answer = .ok count := by
  induction files generalizing gone removed with
  | nil => exact ⟨removed, rfl⟩
  | cons file rest ih =>
    rw [List.forall_mem_cons] at hall
    obtain ⟨⟨l, node, p, bytes, rfl, hplace, hfile⟩, hrest⟩ := hall
    rw [sweep]
    split
    · rcases hremove : (t.without gone).remove l with e | u
      · obtain rfl := eq_notFound_of_remove hfiles hplace (by simp [hfile]) hremove
        exact ih hrest hfiles removed
      · obtain ⟨q, _, _, hq, -, rfl⟩ := remove_eq_ok hremove
        cases hq.symm.trans ((place_without_iff hfiles).2 hplace)
        rw [drop_without]
        refine ih hrest ?_ (removed + 1)
        simpa [Files, hfile] using hfiles
    · exact ih hrest hfiles removed

/-- The folders can be listed, and the temporary files in them are files that can be found. -/
structure Reachable (d : Directory) (root : Place) (t : FileTree) : Prop where
  folder : ∀ {folder node}, (root ++ [folder], node) ∈ t.nodes → node.content = .directory →
    t.find (d.root.child folder) = .ok .directory
  file : ∀ {folder name node}, (root ++ [folder] ++ [name], node) ∈ t.nodes →
    name.startsWith temporaryMark → ∃ p bytes,
      t.place ((d.root.child folder).child name) = .ok p ∧ t.contentAt? p = some (.file bytes)

/-- Where everything can be reached, a store that is there can be opened. -/
theorem Reachable.open_answer (h : d.Reachable root t) (hroot : t.place d.root = .ok root)
    (hfind : t.find d.root = .ok .directory) : (d.open t).answer = .ok () := by
  have hall : ∀ file ∈ d.temporaryFiles t root, ∃ l node p bytes, file = .ok (l, node) ∧
      t.place l = .ok p ∧ t.contentAt? p = some (.file bytes) := by
    intro file hfile
    simp only [temporaryFiles, List.mem_flatMap, Prod.exists] at hfile
    obtain ⟨folder, ⟨content, modified⟩, hlisted, hfile⟩ := hfile
    cases content with
    | file bytes => cases hfile
    | directory =>
      simp only [h.folder (mem_children.1 hlisted) rfl, List.mem_filterMap, Prod.exists] at hfile
      obtain ⟨name, node, hmem, hfile⟩ := hfile
      split at hfile
      · next hname =>
        cases hfile
        obtain ⟨p, bytes, hplace, hcontent⟩ := h.file (mem_children.1 hmem) hname
        exact ⟨_, node, p, bytes, rfl, hplace, hcontent⟩
      · cases hfile
  obtain ⟨count, hcount⟩ : ∃ count,
      (d.sweep (d.temporaryFiles t root) 0 (t.without [])).answer = .ok count :=
    exists_sweep_eq_ok hall (by simp [Files]) 0
  rw [without_nil] at hcount
  simp only [Directory.open, createDirectories_of_find hfind, hroot, hcount]

/-! ## What is left -/

/-- A place is as it was, or the root was missing and there is one of the directories that were
created. -/
def Kept (d : Directory) (t u : FileTree) (p : Place) : Prop :=
  u.node? p = t.node? p ∨
    t.find d.root ≠ .ok .directory ∧ t.node? p = none ∧ u.contentAt? p = some .directory

theorem kept_of_notMem (hfiles : (d.createRoot s t).2.Files gone) (hp : p ∉ gone) :
    d.Kept t ((d.createRoot s t).2.without gone) p := by
  rw [Kept, node?_without hfiles.nil_notMem, contentAt?_without hfiles, if_neg hp, if_neg hp]
  obtain ⟨depth, -, hadds⟩ := addsDirectories_createRoot d s t
  rcases hadds p with hsame | ⟨hnone, hdirectory, -⟩
  · exact .inl hsame
  · refine .inr ⟨fun hfind => ?_, hnone, hdirectory⟩
    rcases createRoot_cases d s t with hcreate | ⟨hmissing, -⟩
    · rw [hcreate, createDirectories_of_find hfind, contentAt?, hnone] at hdirectory
      cases hdirectory
    · exact hmissing hfind

/-- An entry that is found in the same way is there and is loaded as before. -/
theorem store_congr (h : u.find (d.location id) = t.find (d.location id)) :
    d.store.has id u = d.store.has id t ∧ d.store.load id u = d.store.load id t := by
  simp only [store, present, FileTree.read, h, and_self]

/-- **Opening a store takes away leftovers and nothing else.** The tree is any, directories are
listed in any order, and opening may be cut short at any call. If it succeeds, all leftovers are
gone, every other place is as it was, and the entries that are there and what is loaded are the
same. If it fails, each place is as it was or had a leftover that is gone. -/
theorem open_sweeps (ht : t.WellFormed) (d : Directory) (s : Surroundings) :
    d.openIn .calm t = d.open t ∧
      ((d.openIn s t).answer = .ok () →
        (∃ root, (d.openIn s t).state.place d.root = .ok root ∧ ∀ p,
          (d.Leftover root t p → (d.openIn s t).state.node? p = none) ∧
            (¬ d.Leftover root t p → d.Kept t (d.openIn s t).state p)) ∧
        (t.find d.root = .ok .directory ∨ ".." ∉ d.root.names → ∀ id,
          d.store.has id (d.openIn s t).state = d.store.has id t ∧
            d.store.load id (d.openIn s t).state = d.store.load id t)) ∧
      ∀ e, (d.openIn s t).answer = .error e → ∀ p, d.Kept t (d.openIn s t).state p ∨
        ∃ root, (d.openIn s t).state.place d.root = .ok root ∧ d.Leftover root t p ∧
          (d.openIn s t).state.node? p = none := by
  refine ⟨openIn_calm ht d, ?_⟩
  obtain ⟨final, hstate, hfiles, hfinal, hdone⟩ := openIn_cases ht d s
  obtain ⟨depth, hadds⟩ := addsDirectories_createRoot d s t
  have hgone : ∀ p ∈ final, (d.openIn s t).state.node? p = none := by
    intro p hp
    rw [hstate, node?_without hfiles.nil_notMem, if_pos hp]
  have hkept : ∀ p, p ∉ final → d.Kept t (d.openIn s t).state p := by
    intro p hp
    rw [hstate]
    exact kept_of_notMem hfiles hp
  refine ⟨fun hanswer => ⟨?_, ?_⟩, fun e _ p => ?_⟩
  · obtain ⟨u, root, hcreate, hroot, hall⟩ := hdone hanswer
    rw [hcreate] at hadds hfiles
    have hleft : ∀ p, p ∈ final ↔ d.Leftover root t p :=
      fun p => (hall p).trans (leftover_iff_of_adds ht hadds)
    refine ⟨root, ?_, fun p => ⟨fun hp => hgone p ((hleft p).2 hp), fun hp => ?_⟩⟩
    · rwa [hstate, hcreate, place_without_iff hfiles]
    · exact hkept p fun hmem => hp ((hleft p).1 hmem)
  · intro hfound id
    obtain ⟨u, root, hcreate, hroot, hall⟩ := hdone hanswer
    have hcreated := createDirectories_of_createRoot hcreate
    rw [hstate, hcreate]
    refine store_congr ?_
    rw [find_location_without hroot fun p => (hall p).1]
    by_cases hfind : t.find d.root = .ok .directory
    · rw [createDirectories_of_find hfind] at hcreated
      cases hcreated
      rfl
    · exact find_location_created ht (hfound.resolve_left hfind) hcreated hfind id
  · by_cases hp : p ∈ final
    · rcases hfinal with rfl | ⟨root, hroot, hleft⟩
      · cases hp
      · refine .inr ⟨root, ?_, (leftover_iff_of_adds ht hadds).1 (hleft p hp), hgone p hp⟩
        rwa [hstate, place_without_iff hfiles]
    · exact .inl (hkept p hp)

def leftoverDirectory : Directory := ⟨⟨"store", ["store"], .plain⟩, 100⟩

/-- Temporary files in the root, in a folder and in a directory of the folder, one of them just old
enough, one too young and one from the future; an entry, and a file of someone else. -/
def leftoverTree : FileTree where
  nodes :=
    [(["store"], ⟨.directory, 0⟩), (["store", ".tmp-root"], ⟨.file [1], 0⟩),
      (["store", "05"], ⟨.directory, 0⟩), (["store", "05", ".tmp-edge"], ⟨.file [2], 900⟩),
      (["store", "05", ".tmp-young"], ⟨.file [3], 901⟩),
      (["store", "05", ".tmp-future"], ⟨.file [4], 2000⟩),
      (["store", "05", "notes"], ⟨.file [5], 0⟩), (["store", "05", "deep"], ⟨.directory, 0⟩),
      (["store", "05", "deep", ".tmp-old"], ⟨.file [6], 0⟩),
      (["store", "05", (sampleId 5).hex], ⟨.file [7], 0⟩)]
  now := 1000

theorem wellFormed_leftoverTree : leftoverTree.WellFormed := by
  have hlisted : ∀ entry ∈ leftoverTree.nodes,
      leftoverTree.contentAt? entry.1.dropLast = some .directory ∧ ".." ∉ entry.1 := by
    decide +kernel
  exact ⟨by decide +kernel, fun hmem => (hlisted _ hmem).1, fun hmem => (hlisted _ hmem).2⟩

theorem leftover_leftoverTree {p : Place} :
    leftoverDirectory.Leftover ["store"] leftoverTree p ↔ p = ["store", "05", ".tmp-edge"] := by
  constructor
  · rintro ⟨folder, name, bytes, modified, rfl, -, hname, hnode, hage⟩
    have hmem := mem_of_node? (by simp) hnode
    simp [leftoverTree] at hmem
    rcases hmem with ⟨⟨rfl, rfl⟩, -⟩ | ⟨-, -, rfl⟩ | ⟨-, -, rfl⟩ | ⟨⟨-, rfl⟩, -⟩ | ⟨⟨-, rfl⟩, -⟩
    · rfl
    · exact absurd hage (by decide)
    · exact absurd hage (by decide)
    · rw [String.startsWith_string_iff] at hname
      exact absurd hname (by decide)
    · rw [DiffId.hex, (sampleId 5).isHex_hexChars.not_temporary] at hname
      cases hname
  · rintro rfl
    exact ⟨"05", ".tmp-edge", [2], 900, rfl, rfl, String.startsWith_string_iff.2 (by decide), rfl,
      by decide⟩

theorem place_store : leftoverTree.place leftoverDirectory.root = .ok ["store"] := by
  rw [place_eq _ (Location.fault?_eq_none_iff.2 (by decide))]
  rfl

theorem find_store : leftoverTree.find leftoverDirectory.root = .ok .directory := by
  rw [find_eq, place_store]
  rfl

theorem fits_leftoverDirectory : leftoverDirectory.Fits := by
  unfold Fits
  decide

theorem reachable_leftoverTree : leftoverDirectory.Reachable ["store"] leftoverTree := by
  have hroot := fault?_of_place place_store
  constructor
  · intro folder node hmem hdirectory
    simp [leftoverTree] at hmem
    rcases hmem with ⟨rfl, rfl⟩ | ⟨rfl, rfl⟩
    · cases hdirectory
    · have hplace : leftoverTree.place (leftoverDirectory.root.child "05") =
          leftoverTree.follow [] ["store", "05"] :=
        place_eq _ (fits_leftoverDirectory.folder hroot (sampleId 5))
      rw [find_eq, hplace]
      rfl
  · intro folder name node hmem hname
    have hchild : Char.ofNat 0 ∉ name.toList → name.utf8ByteSize ≤ 77 →
        leftoverTree.place ((leftoverDirectory.root.child "05").child name) =
          leftoverTree.follow [] ["store", "05", name] := fun hnul hsize =>
      place_eq _ (show ((leftoverDirectory.folder (sampleId 5)).child name).fault? = none from
        fits_leftoverDirectory.child hroot hnul hsize)
    have hmark := String.startsWith_string_iff.1 hname
    simp [leftoverTree] at hmem
    rcases hmem with ⟨⟨rfl, rfl⟩, -⟩ | ⟨⟨rfl, rfl⟩, -⟩ | ⟨⟨rfl, rfl⟩, -⟩ | ⟨⟨-, rfl⟩, -⟩ |
      ⟨⟨-, rfl⟩, -⟩ | ⟨⟨-, rfl⟩, -⟩
    · exact ⟨_, [2], hchild (by decide) (by decide), rfl⟩
    · exact ⟨_, [3], hchild (by decide) (by decide), rfl⟩
    · exact ⟨_, [4], hchild (by decide) (by decide), rfl⟩
    · exact absurd hmark (by decide)
    · exact absurd hmark (by decide)
    · rw [DiffId.hex, (sampleId 5).isHex_hexChars.not_temporary] at hname
      cases hname

theorem open_sweeps_leftoverTree :
    (leftoverDirectory.open leftoverTree).answer = .ok () ∧
      (∀ p, (leftoverDirectory.open leftoverTree).state.node? p =
        if p = ["store", "05", ".tmp-edge"] then none else leftoverTree.node? p) ∧
      leftoverDirectory.store.load (sampleId 5) (leftoverDirectory.open leftoverTree).state =
        .ok [7] := by
  have hfault := fault?_of_place place_store
  have hanswer := reachable_leftoverTree.open_answer place_store find_store
  obtain ⟨hcalm, hsuccess, -⟩ := open_sweeps wellFormed_leftoverTree leftoverDirectory .calm
  rw [hcalm] at hsuccess
  obtain ⟨⟨root, hplace, hplaces⟩, hentries⟩ := hsuccess hanswer
  obtain rfl : root = ["store"] := by
    rw [place_of_names hfault rfl (by decide) (by decide)] at hplace
    cases hplace
    rfl
  simp only [leftover_leftoverTree] at hplaces
  refine ⟨hanswer, fun p => ?_, ?_⟩
  · split
    · next h => exact (hplaces p).1 h
    · next h => exact ((hplaces p).2 h).resolve_right fun hmissing => hmissing.1 find_store
  · have hl : (leftoverDirectory.location (sampleId 5)).fault? = none :=
      fits_leftoverDirectory.location hfault _
    have hfolder : leftoverTree.contentAt? (folderPlace ["store"] (sampleId 5)) =
        some .directory := by decide +kernel
    have hentry : leftoverTree.contentAt? (entryPlace ["store"] (sampleId 5)) =
        some (.file [7]) := by decide +kernel
    have hload : leftoverTree.find (leftoverDirectory.location (sampleId 5)) = .ok (.file [7]) := by
      rw [find_location place_store hl, hfolder, hentry]
      rfl
    rw [(hentries (.inl find_store) (sampleId 5)).2]
    simp only [store, FileTree.read, hload]

end SszArchive.Directory
