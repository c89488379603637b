import SszArchive.Proofs.Directory
import SszArchive.Proofs.TreeShape
import Mathlib.Data.List.Perm.Subperm

/-!
The sweep of a directory store, with each directory listed when it is reached, in whatever order,
and each call answered or refused. It takes away temporary files that are old enough and nothing
else, and all of them if it comes to its end.
-/

namespace SszArchive

/-! ## Surroundings -/

/-- What opening a store meets besides the tree. Creating the root may be refused when only the
directories down to another location are created. A listing has the entries of a directory in some
order and may be broken off; looking at an entry and removing it may be refused. -/
structure Surroundings where
  creation : Option (Location × String)
  listing : Location → List (String × Node) → List (String × Node) × Option String
  inspection : Location → Option String
  removal : Location → Option String
  subperm : ∀ l entries, (listing l entries).1.Subperm entries
  perm : ∀ l entries, (listing l entries).2 = none → (listing l entries).1.Perm entries

/-- The order of the tree, and nothing is refused. -/
def Surroundings.calm : Surroundings where
  creation := none
  listing _ entries := (entries, none)
  inspection _ := none
  removal _ := none
  subperm _ _ := .refl _
  perm _ _ _ := .refl _

namespace Directory

open FileTree

/-- The answer of a call, unless it is refused. -/
def unlessRefused {α : Type} (refusal : Option String) (answer : Except FileFault α) :
    Except FileFault α :=
  match refusal with
  | some reason => .error (.other reason)
  | none => answer

/-- Goes on with the count and the tree, unless there was a fault. -/
def andThen (first : Outcome StoreFault FileTree Nat)
    (next : Nat → FileTree → Outcome StoreFault FileTree Nat) : Outcome StoreFault FileTree Nat :=
  match first.answer with
  | .error e => ⟨.error e, first.state, first.log⟩
  | .ok removed =>
    let final := next removed first.state
    { final with log := first.log ++ final.log }

/-- Visits what is listed, up to the first fault. -/
def each {α : Type} (visit : α → Nat → FileTree → Outcome StoreFault FileTree Nat)
    (broken : Option String) : List α → Nat → FileTree → Outcome StoreFault FileTree Nat
  | [], removed, t => ⟨(unlessRefused broken (.ok removed)).mapError .files, t, []⟩
  | item :: rest, removed, t => andThen (visit item removed t) (each visit broken rest)

/-- Removes a file and counts it. One that is not there any more is no fault. -/
def removeFile (s : Surroundings) (l : Location) (removed : Nat) (t : FileTree) :
    Outcome StoreFault FileTree Nat :=
  match unlessRefused (s.removal l) (t.remove l) with
  | .ok t => ⟨.ok (removed + 1), t, []⟩
  | .error .notFound => ⟨.ok removed, t, []⟩
  | .error e => ⟨.error (.files e), t, []⟩

/-- Removes an entry of the directory at `l` if it is a stale temporary file. -/
def visitFile (d : Directory) (s : Surroundings) (l : Location) (entry : String × Node)
    (removed : Nat) (t : FileTree) : Outcome StoreFault FileTree Nat :=
  let file := l.child entry.1
  if entry.1.startsWith temporaryMark then
    match unlessRefused (s.inspection file) (.ok entry.2) with
    | .error e => ⟨.error (.files e), t, []⟩
    | .ok node =>
      if d.stale t.now node then removeFile s file removed t
      else ⟨.ok removed, t, [⟨.trace, s!"fs store: keeping in-flight {file.text}"⟩]⟩
  else ⟨.ok removed, t, []⟩

/-- Visits what is in an entry of the root, if it is a directory. -/
def visitFolder (d : Directory) (s : Surroundings) (root : Place) (entry : String × Node)
    (removed : Nat) (t : FileTree) : Outcome StoreFault FileTree Nat :=
  let l := d.root.child entry.1
  match unlessRefused (s.inspection l) (.ok entry.2.content), t.find l with
  | .error e, _ => ⟨.error (.files e), t, []⟩
  | .ok (.file _), _ => ⟨.ok removed, t, []⟩
  | .ok .directory, .error e => ⟨.error (.files e), t, []⟩
  | .ok .directory, .ok _ =>
    let (files, broken) := s.listing l (t.children (root ++ [entry.1]))
    each (d.visitFile s l) broken files removed t

variable {d : Directory} {s : Surroundings} {t u : FileTree} {root p : Place} {gone : List Place}
  {folder name : String} {node : Node} {l : Location} {removed : Nat} {id : DiffId}

/-! ## Leftovers -/

/-- A temporary file of a subdirectory, not modified for the stale age. -/
def Leftover (d : Directory) (root : Place) (t : FileTree) (p : Place) : Prop :=
  ∃ folder name bytes modified, p = root ++ [folder] ++ [name] ∧
    t.contentAt? (root ++ [folder]) = some .directory ∧ name.startsWith temporaryMark ∧
    t.node? p = some ⟨.file bytes, modified⟩ ∧ modified + d.staleAge ≤ t.now

theorem stale_iff {now : Int} : d.stale now node ↔ node.modified + d.staleAge ≤ now := by
  simp only [stale, Bool.and_eq_true, decide_eq_true_eq]
  omega

theorem Leftover.mem_nodes (h : d.Leftover root t p) : ∃ node, (p, node) ∈ t.nodes := by
  obtain ⟨folder, name, bytes, modified, rfl, -, -, hnode, -⟩ := h
  exact ⟨_, mem_of_node? (by simp) hnode⟩

theorem files_of_leftovers (hgone : ∀ p ∈ gone, d.Leftover root t p) : t.Files gone := by
  intro p hmem
  obtain ⟨-, -, bytes, modified, -, -, -, hnode, -⟩ := hgone p hmem
  simp [contentAt?_of_node? hnode]

/-- From the tree without `gone` on, a visit takes nothing away but leftovers that it is after, and
all of these if it ends well. -/
def Sweeps (d : Directory) (root : Place) (t : FileTree) (gone : List Place) (after : Place → Prop)
    (o : Outcome StoreFault FileTree Nat) : Prop :=
  ∃ final, o.state = t.without final ∧ gone ⊆ final ∧
    (∀ p ∈ final, p ∈ gone ∨ after p ∧ d.Leftover root t p) ∧
    ∀ removed, o.answer = .ok removed → ∀ p, after p → d.Leftover root t p → p ∈ final

theorem Sweeps.each {α : Type} {visit : α → Nat → FileTree → Outcome StoreFault FileTree Nat}
    {after : α → Place → Prop} {items : List α} {broken : Option String}
    (hvisit : ∀ item ∈ items, ∀ removed gone, (∀ p ∈ gone, d.Leftover root t p) →
      d.Sweeps root t gone (after item) (visit item removed (t.without gone)))
    (hgone : ∀ p ∈ gone, d.Leftover root t p) (removed : Nat) :
    d.Sweeps root t gone (fun p => ∃ item ∈ items, after item p)
      (Directory.each visit broken items removed (t.without gone)) := by
  induction items generalizing gone removed with
  | nil => exact ⟨gone, rfl, List.Subset.refl _, fun p => .inl, by simp⟩
  | cons item rest ih =>
    obtain ⟨between, hstate, hsub, hframe, hall⟩ :=
      hvisit item List.mem_cons_self removed gone hgone
    have hbetween : ∀ p ∈ between, d.Leftover root t p :=
      fun p hmem => (hframe p hmem).elim (hgone p) And.right
    rcases hanswer : (visit item removed (t.without gone)).answer with e | more
    · refine ⟨between, ?_, hsub, fun p hmem => ?_, ?_⟩
      · simp [Directory.each, andThen, hanswer, hstate]
      · exact (hframe p hmem).imp_right (And.imp_left fun h => ⟨item, List.mem_cons_self, h⟩)
      · simp [Directory.each, andThen, hanswer]
    · obtain ⟨final, hfinal, hmore, hrest, hdone⟩ :=
        ih (fun next hnext => hvisit next (List.mem_cons_of_mem _ hnext)) hbetween more
      refine ⟨final, ?_, List.Subset.trans hsub hmore, fun p hmem => ?_, ?_⟩
      · simp [Directory.each, andThen, hanswer, hstate, hfinal]
      · rcases hrest p hmem with hp | ⟨⟨next, hnext, hp⟩, hleft⟩
        · exact (hframe p hp).imp_right (And.imp_left fun h => ⟨item, List.mem_cons_self, h⟩)
        · exact .inr ⟨⟨next, List.mem_cons_of_mem _ hnext, hp⟩, hleft⟩
      · rintro count hcount p ⟨next, hnext, hp⟩ hleft
        rcases List.mem_cons.1 hnext with rfl | hnext
        · exact hmore (hall more hanswer p hp hleft)
        · refine hdone count ?_ p ⟨next, hnext, hp⟩ hleft
          simpa [Directory.each, andThen, hanswer, hstate] using hcount

/-- A visit that takes nothing away, and leaves nothing that it is after if it ends well. -/
theorem Sweeps.of_unchanged {after : Place → Prop} {o : Outcome StoreFault FileTree Nat}
    (hstate : o.state = t.without gone)
    (hdone : ∀ removed, o.answer = .ok removed → ∀ p, after p → d.Leftover root t p → p ∈ gone) :
    d.Sweeps root t gone after o :=
  ⟨gone, hstate, List.Subset.refl _, fun _ => .inl, hdone⟩

theorem broken_eq_none_of_each {α : Type}
    {visit : α → Nat → FileTree → Outcome StoreFault FileTree Nat} {broken : Option String}
    {items : List α} {count : Nat} (h : (each visit broken items removed t).answer = .ok count) :
    broken = none := by
  induction items generalizing removed t with
  | nil => cases broken <;> simp [each, unlessRefused, Except.mapError] at h ⊢
  | cons item rest ih =>
    rw [each, andThen] at h
    rcases hanswer : (visit item removed t).answer with e | more <;> simp only [hanswer] at h
    · cases h
    · exact ih h

/-- Visiting what a directory lists visits all that is in it, unless the listing is broken off. -/
theorem Sweeps.listing {visit : String × Node → Nat → FileTree → Outcome StoreFault FileTree Nat}
    {q : Place} {after : String → Place → Prop}
    (hvisit : ∀ name node, (q ++ [name], node) ∈ t.nodes → ∀ removed gone,
      (∀ p ∈ gone, d.Leftover root t p) →
        d.Sweeps root t gone (after name) (visit (name, node) removed (t.without gone)))
    (hlisted : ∀ name p, after name p → d.Leftover root t p →
      p ∈ gone ∨ ∃ node, (q ++ [name], node) ∈ (t.without gone).nodes)
    (hgone : ∀ p ∈ gone, d.Leftover root t p) (s : Surroundings) (l : Location) (removed : Nat) :
    d.Sweeps root t gone (fun p => ∃ name, after name p)
      (Directory.each visit (s.listing l ((t.without gone).children q)).2
        (s.listing l ((t.without gone).children q)).1 removed (t.without gone)) := by
  have hentries : ∀ entry ∈ (s.listing l ((t.without gone).children q)).1,
      (q ++ [entry.1], entry.2) ∈ t.nodes := fun entry hentry =>
    (mem_without.1 (mem_children.1 ((s.subperm _ _).subset hentry))).1
  have hsweeps : d.Sweeps root t gone
      (fun p => ∃ entry ∈ (s.listing l ((t.without gone).children q)).1, after entry.1 p)
      (Directory.each visit (s.listing l ((t.without gone).children q)).2
        (s.listing l ((t.without gone).children q)).1 removed (t.without gone)) :=
    .each (fun entry hentry => hvisit entry.1 entry.2 (hentries entry hentry)) hgone removed
  obtain ⟨final, hstate, hsub, hframe, hall⟩ := hsweeps
  refine ⟨final, hstate, hsub, fun p hp => ?_, ?_⟩
  · exact (hframe p hp).imp_right (And.imp_left fun ⟨entry, _, hp⟩ => ⟨entry.1, hp⟩)
  · rintro count hcount p ⟨name, hp⟩ hleft
    rcases hlisted name p hp hleft with hmem | ⟨node, hmem⟩
    · exact hsub hmem
    · have hperm := s.perm _ _ (broken_eq_none_of_each hcount)
      exact hall count hcount p ⟨(name, node), hperm.mem_iff.2 (mem_children.2 hmem), hp⟩ hleft

/-! ## Visits -/

theorem sweeps_removeFile (hnode : t.node? p = some node)
    (hplace : (t.without gone).place l = .ok p ∨
      ∃ e, e ≠ .notFound ∧ (t.without gone).place l = .error e)
    (hleft : ∀ bytes, node.content = .file bytes → d.Leftover root t p)
    (hgone : [] ∉ gone) (removed : Nat) :
    d.Sweeps root t gone (· = p) (removeFile s l removed (t.without gone)) := by
  unfold removeFile
  rcases hremoval : s.removal l with _ | reason <;> simp only [unlessRefused]
  · rcases hremove : (t.without gone).remove l with e | u
    · refine .of_unchanged (by cases e <;> rfl) ?_
      rintro count hanswer q rfl -
      -- the place is found, so the file can only be missing if it was taken away before
      obtain rfl : e = .notFound := by cases e <;> first | rfl | cases hanswer
      rcases hplace with hplace | ⟨e, he, hplace⟩
      · have hnone := node?_of_remove hplace hremove
        rw [node?_without hgone, hnode] at hnone
        by_contra hmem
        simp [hmem] at hnone
      · simp only [remove, hplace, Except.error.injEq] at hremove
        exact absurd hremove he
    · obtain ⟨q, bytes, modified, hq, hfile, rfl⟩ := remove_eq_ok hremove
      rcases hplace with hplace | ⟨e, -, hplace⟩ <;> cases hq.symm.trans hplace
      rw [node?_without hgone] at hfile
      split at hfile
      · cases hfile
      · next hmem =>
        cases hnode.symm.trans hfile
        refine ⟨p :: gone, drop_without t gone p, List.subset_cons_self _ _, ?_, ?_⟩
        · intro q hq
          rcases List.mem_cons.1 hq with rfl | hq
          · exact .inr ⟨rfl, hleft bytes rfl⟩
          · exact .inl hq
        · rintro - - q rfl -
          exact List.mem_cons_self
  · exact .of_unchanged rfl (by simp)

theorem sweeps_visitFile (ht : t.WellFormed) (hplace : t.place l = .ok (root ++ [folder]))
    (hdirectory : t.contentAt? (root ++ [folder]) = some .directory)
    (hmem : (root ++ [folder] ++ [name], node) ∈ t.nodes)
    (hgone : ∀ p ∈ gone, d.Leftover root t p) (removed : Nat) :
    d.Sweeps root t gone (· = root ++ [folder] ++ [name])
      (d.visitFile s l (name, node) removed (t.without gone)) := by
  have hfiles := files_of_leftovers hgone
  have hnode := ht.node?_of_mem (by simp) hmem
  have hchild : (t.without gone).place (l.child name) = .ok (root ++ [folder] ++ [name]) ∨
      ∃ e, e ≠ .notFound ∧ (t.without gone).place (l.child name) = .error e := by
    refine place_child_cases ((place_without_iff hfiles).2 hplace)
      ((directory_without_iff hfiles).2 hdirectory) ?_
    rintro rfl
    exact ht.up hmem (by simp)
  unfold visitFile
  split
  · next hname =>
    rcases hinspection : s.inspection (l.child name) with _ | reason <;>
      simp only [hinspection, unlessRefused]
    · split
      · next hstale =>
        refine sweeps_removeFile hnode hchild (fun bytes hbytes => ?_) hfiles.nil_notMem removed
        obtain ⟨_, modified⟩ := node
        cases hbytes
        exact ⟨folder, name, bytes, modified, rfl, hdirectory, hname, hnode, stale_iff.1 hstale⟩
      · next hstale =>
        refine .of_unchanged rfl ?_
        rintro - - p rfl ⟨-, -, bytes, modified, -, -, -, hnode', hage⟩
        rw [hnode] at hnode'
        cases hnode'
        exact absurd (stale_iff.2 hage) hstale
    · exact .of_unchanged rfl (by simp)
  · next hname =>
    refine .of_unchanged rfl ?_
    rintro - - p rfl ⟨folder, other, bytes, modified, heq, -, hother, -⟩
    obtain ⟨rfl, rfl⟩ : _ = folder ∧ name = other := by simpa using heq
    exact absurd hother hname

/-- A directory that is found below the root is where its name is. -/
theorem place_child_of_find (ht : t.WellFormed) (hroot : t.place d.root = .ok root)
    (hdirectory : t.contentAt? root = some .directory) (hfiles : t.Files gone)
    (hmem : (root ++ [folder], node) ∈ t.nodes) {content : Content}
    (hfind : (t.without gone).find (d.root.child folder) = .ok content) :
    t.place (d.root.child folder) = .ok (root ++ [folder]) := by
  have hup : folder ≠ ".." := by
    rintro rfl
    exact ht.up hmem (by simp)
  obtain ⟨p, hplace⟩ := exists_place_of_find hfind
  rcases place_child_cases ((place_without_iff hfiles).2 hroot)
      ((directory_without_iff hfiles).2 hdirectory) hup with hchild | ⟨e, -, hchild⟩
  · exact (place_without_iff hfiles).1 hchild
  · cases hplace.symm.trans hchild

theorem sweeps_visitFolder (ht : t.WellFormed) (hroot : t.place d.root = .ok root)
    (hdirectory : t.contentAt? root = some .directory)
    (hmem : (root ++ [folder], node) ∈ t.nodes) (hgone : ∀ p ∈ gone, d.Leftover root t p)
    (removed : Nat) :
    d.Sweeps root t gone (fun p => ∃ name, p = root ++ [folder] ++ [name])
      (d.visitFolder s root (folder, node) removed (t.without gone)) := by
  have hfiles := files_of_leftovers hgone
  have hcontent := contentAt?_of_node? (ht.node?_of_mem (by simp) hmem)
  unfold visitFolder
  rcases hinspection : s.inspection (d.root.child folder) with _ | reason <;>
    simp only [hinspection, unlessRefused]
  · obtain ⟨content, modified⟩ := node
    cases content with
    | file bytes =>
      refine .of_unchanged rfl ?_
      rintro - - p ⟨name, rfl⟩ ⟨other, file, -, -, heq, hfolder, -⟩
      obtain ⟨rfl, rfl⟩ : folder = other ∧ name = file := by simpa using heq
      cases hcontent.symm.trans hfolder
    | directory =>
      rcases hfind : (t.without gone).find (d.root.child folder) with e | content <;> simp only
      · exact .of_unchanged rfl (by simp)
      · have hplace := place_child_of_find ht hroot hdirectory hfiles hmem hfind
        refine .listing (fun name node hmem removed gone hgone =>
          sweeps_visitFile ht hplace hcontent hmem hgone removed) ?_ hgone s _ removed
        rintro name p rfl hleft
        rw [or_iff_not_imp_left]
        intro hnot
        obtain ⟨node, hnode⟩ := hleft.mem_nodes
        exact ⟨node, mem_without.2 ⟨hnode, hnot⟩⟩
  · exact .of_unchanged rfl (by simp)

theorem sweeps_root (ht : t.WellFormed) (hroot : t.place d.root = .ok root)
    (hdirectory : t.contentAt? root = some .directory) (s : Surroundings) (removed : Nat) :
    d.Sweeps root t [] (d.Leftover root t)
      (each (d.visitFolder s root) (s.listing d.root (t.children root)).2
        (s.listing d.root (t.children root)).1 removed t) := by
  have hlisted : ∀ folder p, (∃ name, p = root ++ [folder] ++ [name]) → d.Leftover root t p →
      p ∈ [] ∨ ∃ node, (root ++ [folder], node) ∈ (t.without []).nodes := by
    rintro folder p ⟨name, rfl⟩ ⟨other, file, -, -, heq, hfolder, -⟩
    obtain ⟨rfl, rfl⟩ : folder = other ∧ name = file := by simpa using heq
    obtain ⟨modified, hmem⟩ := exists_mem_of_contentAt? (by simp) hfolder
    exact .inr ⟨_, by simpa using hmem⟩
  obtain ⟨final, hstate, hsub, hframe, hall⟩ := Sweeps.listing (fun folder node hmem removed gone
    hgone => sweeps_visitFolder ht hroot hdirectory hmem hgone removed) hlisted (by simp) s d.root
    removed
  rw [without_nil] at hstate hall
  refine ⟨final, hstate, hsub, fun p hp => ?_, fun count hcount p hleft _ => ?_⟩
  · exact (hframe p hp).imp_right fun h => ⟨h.2, h.2⟩
  · obtain ⟨folder, name, -, -, heq, -⟩ := id hleft
    exact hall count hcount p ⟨folder, name, heq⟩ hleft

end Directory

end SszArchive
