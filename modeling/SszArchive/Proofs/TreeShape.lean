import SszArchive.Proofs.FileTree
import Mathlib.Data.List.Basic

/-!
The shape of a tree of files: each place is listed once, in a directory, and no name leads upwards.
Creating directories keeps it and adds nothing else. Where files are taken away, everything else is
as before and is found in the same way.
-/

namespace SszArchive

theorem Location.length_above (l : Location) : l.above.names.length ≤ l.names.length := by
  simp only [above, List.length_dropLast]
  omega

/-- What is wrong with a text is not that nothing is there. -/
theorem Location.ne_notFound {l : Location} {e : FileFault} (h : l.fault? = some e) :
    e ≠ .notFound := by
  rintro rfl
  unfold fault? at h
  split at h
  · cases h
  · split at h <;> cases h

/-- Keys that are filtered out are not found, and the others as before. -/
theorem lookup_filter_key {α β : Type} [BEq α] [LawfulBEq α] (keep : α → Bool)
    (entries : List (α × β)) (key : α) :
    (entries.filter fun entry => keep entry.1).lookup key =
      if keep key then entries.lookup key else none := by
  induction entries with
  | nil => simp
  | cons entry rest ih =>
    obtain ⟨found, value⟩ := entry
    by_cases hkey : key = found
    · subst hkey
      by_cases hkeep : keep key
      · simp [hkeep]
      · rw [List.filter_cons_of_neg (by simpa using hkeep), ih]
        simp [hkeep]
    · rw [List.lookup_cons, beq_false_of_ne hkey, ← ih]
      by_cases hkeep : keep found
      · rw [List.filter_cons_of_pos (by exact hkeep), List.lookup_cons, beq_false_of_ne hkey]
      · rw [List.filter_cons_of_neg (by exact hkeep)]

namespace FileTree

variable {t u v : FileTree} {p q : Place} {names : List String} {name : String} {l : Location}
  {content : Content} {node : Node} {gone : List Place}

/-- What every operation keeps. A tree that is only a list could name a place twice, or one that no
location leads to. -/
structure WellFormed (t : FileTree) : Prop where
  distinct : (t.nodes.map Prod.fst).Nodup
  above : ∀ {p node}, (p, node) ∈ t.nodes → t.contentAt? p.dropLast = some .directory
  up : ∀ {p node}, (p, node) ∈ t.nodes → ".." ∉ p

theorem contentAt?_of_node? (h : t.node? p = some node) : t.contentAt? p = some node.content := by
  rw [contentAt?, h, Option.map_some]

theorem mem_of_node? (hplace : p ≠ []) (h : t.node? p = some node) : (p, node) ∈ t.nodes := by
  rw [node?, if_neg hplace] at h
  obtain ⟨before, behind, hnodes, -⟩ := List.lookup_eq_some_iff.1 h
  simp [hnodes]

theorem node?_put_of_ne (h : q ≠ p) : (t.put p content).node? q = t.node? q := by
  simp only [node?, put, List.lookup_cons, beq_false_of_ne h, lookup_filter_of_ne h]

namespace WellFormed

theorem node?_of_mem (ht : t.WellFormed) (hplace : p ≠ []) (hmem : (p, node) ∈ t.nodes) :
    t.node? p = some node := by
  rw [node?, if_neg hplace, List.lookup_eq_some_iff]
  obtain ⟨before, behind, hnodes⟩ := List.append_of_mem hmem
  refine ⟨before, behind, hnodes, fun entry hentry => ?_⟩
  have hdistinct := ht.distinct
  rw [hnodes, List.map_append, List.map_cons, List.nodup_append] at hdistinct
  have hne := hdistinct.2.2 entry.1 (List.mem_map_of_mem hentry) p List.mem_cons_self
  simpa using hne.symm

/-- No name stands for two things in a directory. -/
theorem nodup_children (ht : t.WellFormed) (p : Place) : ((t.children p).map Prod.fst).Nodup := by
  have hplace : ∀ {entry : Place × Node} {child : String × Node},
      (if entry.1.dropLast = p then entry.1.getLast?.map fun name => (name, entry.2) else none) =
        some child → entry.1 = p ++ [child.1] := by
    rintro ⟨q, node⟩ child h
    split at h
    · next hq =>
      obtain ⟨last, hlast, rfl⟩ := Option.map_eq_some_iff.1 h
      obtain ⟨above, rfl⟩ := List.getLast?_eq_some_iff.1 hlast
      rw [List.dropLast_concat] at hq
      rw [hq]
    · cases h
  have hdistinct := ht.distinct
  rw [List.Nodup, List.pairwise_map] at hdistinct ⊢
  rw [children, List.pairwise_filterMap]
  refine hdistinct.imp fun hne child hchild other hother heq => hne ?_
  rw [hplace hchild, hplace hother, heq]

theorem above_of_contentAt? (ht : t.WellFormed) (h : t.contentAt? p = some content) :
    t.contentAt? p.dropLast = some .directory := by
  by_cases hplace : p = []
  · simp [hplace]
  · obtain ⟨modified, hmem⟩ := exists_mem_of_contentAt? hplace h
    exact ht.above hmem

/-- Nothing is in a place that is no directory. -/
theorem contentAt?_concat_eq_none (ht : t.WellFormed) (h : t.contentAt? p ≠ some .directory)
    (name : String) : t.contentAt? (p ++ [name]) = none := by
  rcases hcontent : t.contentAt? (p ++ [name]) with _ | content
  · rfl
  · have := ht.above_of_contentAt? hcontent
    rw [List.dropLast_concat] at this
    exact absurd this h

theorem contentAt?_append_eq_none (ht : t.WellFormed) (h : t.contentAt? p = none)
    (names : List String) : t.contentAt? (p ++ names) = none := by
  induction names generalizing p with
  | nil => rwa [List.append_nil]
  | cons name rest ih =>
    rw [← List.singleton_append, ← List.append_assoc]
    exact ih (ht.contentAt?_concat_eq_none (by simp [h]) name)

/-- The place that names lead to is in a directory, whether or not there is something. -/
theorem follow (ht : t.WellFormed) (habove : t.contentAt? p.dropLast = some .directory)
    (hup : ".." ∉ p) (h : t.follow p names = .ok q) :
    t.contentAt? q.dropLast = some .directory ∧ ".." ∉ q := by
  induction names generalizing p with
  | nil =>
    cases h
    exact ⟨habove, hup⟩
  | cons name rest ih =>
    rw [follow_cons] at h
    rcases hcontent : t.contentAt? p with _ | _ | _ <;> simp only [hcontent] at h
    · cases h
    · cases h
    · split at h
      · exact ih (ht.above_of_contentAt? habove)
          (fun hmem => hup ((List.dropLast_sublist p).subset hmem)) h
      · next hname =>
        split at h
        · cases h
        · refine ih ?_ ?_ h
          · rwa [List.dropLast_concat]
          · simpa [hup] using Ne.symm hname

theorem put (ht : t.WellFormed) (hfree : t.contentAt? p ≠ some .directory)
    (habove : t.contentAt? p.dropLast = some .directory) (hup : ".." ∉ p) (content : Content) :
    (t.put p content).WellFormed := by
  have hplace : p ≠ [] := by
    rintro rfl
    exact hfree rfl
  have hstays : ∀ {q}, t.contentAt? q = some .directory →
      (t.put p content).contentAt? q = some .directory := by
    intro q hq
    have hne : q ≠ p := by
      rintro rfl
      exact hfree hq
    rw [contentAt?_put hplace, if_neg hne, hq]
  refine ⟨?_, ?_, ?_⟩
  · simp only [FileTree.put, List.map_cons, List.nodup_cons]
    exact ⟨by simp, ht.distinct.sublist (List.filter_sublist.map _)⟩
  · intro q node hmem
    rcases mem_put.1 hmem with heq | ⟨hmem, -⟩
    · cases heq
      exact hstays habove
    · exact hstays (ht.above hmem)
  · intro q node hmem
    rcases mem_put.1 hmem with heq | ⟨hmem, -⟩
    · cases heq
      exact hup
    · exact ht.up hmem

theorem put_place (ht : t.WellFormed) (hplace : t.place l = .ok p)
    (hfree : t.contentAt? p ≠ some .directory) (content : Content) :
    (t.put p content).WellFormed := by
  rw [place_eq t (fault?_of_place hplace)] at hplace
  obtain ⟨habove, hup⟩ := ht.follow rfl List.not_mem_nil hplace
  exact ht.put hfree habove hup content

theorem write (ht : t.WellFormed) {bytes : Bytes} (h : t.write l bytes = .ok u) :
    u.WellFormed := by
  obtain ⟨-, p, hplace, hfree, rfl⟩ := write_eq_ok h
  exact ht.put_place hplace hfree _

end WellFormed

/-! ## Following names -/

/-- Without a way up the names are the place. -/
theorem eq_append_of_follow (hup : ".." ∉ names) (h : t.follow p names = .ok q) :
    q = p ++ names := by
  induction names generalizing p with
  | nil =>
    cases h
    simp
  | cons name rest ih =>
    rw [List.mem_cons, not_or] at hup
    rw [follow_cons] at h
    rcases hcontent : t.contentAt? p with _ | _ | _ <;> simp only [hcontent] at h
    · cases h
    · cases h
    · rw [if_neg (Ne.symm hup.1)] at h
      split at h
      · cases h
      · rw [ih hup.2 h, List.append_assoc, List.singleton_append]

/-- Names that are not found lead to nothing. -/
theorem WellFormed.contentAt?_of_follow (ht : t.WellFormed) (hup : ".." ∉ names)
    (h : t.follow p names = .error .notFound) : t.contentAt? (p ++ names) = none := by
  induction names generalizing p with
  | nil => cases h
  | cons name rest ih =>
    rw [List.mem_cons, not_or] at hup
    rw [follow_cons] at h
    rcases hcontent : t.contentAt? p with _ | _ | _ <;> simp only [hcontent] at h
    · exact ht.contentAt?_append_eq_none hcontent _
    · cases h
    · rw [if_neg (Ne.symm hup.1)] at h
      split at h
      · cases h
      · have := ih hup.2 h
        rwa [List.append_assoc, List.singleton_append] at this

theorem length_le_of_follow (h : t.follow p names = .ok q) :
    q.length ≤ p.length + names.length := by
  induction names generalizing p with
  | nil =>
    cases h
    exact Nat.le_add_right _ _
  | cons name rest ih =>
    rw [follow_cons] at h
    rcases hcontent : t.contentAt? p with _ | _ | _ <;> simp only [hcontent] at h
    · cases h
    · cases h
    · rw [List.length_cons]
      split at h
      · have := ih h
        rw [List.length_dropLast] at this
        omega
      · split at h
        · cases h
        · have := ih h
          rw [List.length_append, List.length_singleton] at this
          omega

theorem exists_place_of_find (h : t.find l = .ok content) : ∃ p, t.place l = .ok p := by
  rw [find_eq] at h
  rcases hplace : t.place l with e | p
  · rw [hplace] at h
    cases h
  · exact ⟨p, rfl⟩

/-- The place of a name in a directory that is there. -/
theorem place_child (hplace : t.place l = .ok p) (hdirectory : t.contentAt? p = some .directory)
    (hup : name ≠ "..") :
    t.place (l.child name) =
      match (l.child name).fault? with
      | some e => .error e
      | none =>
        if longestName < name.utf8ByteSize then .error .nameTooLong else .ok (p ++ [name]) := by
  rcases hfault : (l.child name).fault? with _ | e
  · have hnames : (l.child name).names = l.names ++ [name] := rfl
    rw [place_eq t (fault?_of_place hplace)] at hplace
    rw [place_eq t hfault, hnames, follow_append, hplace]
    simp only [Except.bind, follow_cons, hdirectory, hup, if_false]
    rfl
  · simp [FileTree.place, hfault]

/-- A name in a directory that is there is refused or leads to its place. -/
theorem place_child_cases (hplace : t.place l = .ok p)
    (hdirectory : t.contentAt? p = some .directory) (hup : name ≠ "..") :
    t.place (l.child name) = .ok (p ++ [name]) ∨
      ∃ e, e ≠ .notFound ∧ t.place (l.child name) = .error e := by
  rw [place_child hplace hdirectory hup]
  rcases hfault : (l.child name).fault? with _ | e
  · by_cases hsize : longestName < name.utf8ByteSize
    · exact .inr ⟨.nameTooLong, by simp, by simp [hsize]⟩
    · simp [hsize]
  · exact .inr ⟨e, Location.ne_notFound hfault, rfl⟩

/-! ## Creating directories -/

theorem ensureDirectory_cases (h : t.ensureDirectory l = .ok u) :
    t.createDirectory l = .ok u ∨ u = t := by
  unfold ensureDirectory at h
  split at h
  · next hcreated => exact .inl (hcreated.trans h)
  · split at h <;> cases h
    exact .inr rfl

/-- What each single creation on the way keeps is kept, also when a later one fails. -/
theorem createDirectories_keeps {P : FileTree → Prop}
    (hstep : ∀ {t u m}, m.names.length ≤ l.names.length → t.createDirectory m = .ok u → P t → P u)
    (ht : P t) : P (t.createDirectories l).2 := by
  have hensure : ∀ {l t u}, (t.createDirectory l = .ok u → P t → P u) →
      t.ensureDirectory l = .ok u → P t → P u := by
    intro l t u hcreate h ht
    rcases ensureDirectory_cases h with hcreated | rfl
    · exact hcreate hcreated ht
    · exact ht
  fun_induction t.createDirectories l with
  | case1 l u h => exact hensure (hstep (Nat.le_refl _)) h ht
  | case2 => exact ht
  | case3 l h hnames e u habove ih =>
    rw [habove] at ih
    exact ih (fun hlength => hstep (Nat.le_trans hlength (Location.length_above l)))
  | case4 l h hnames u habove v hagain ih =>
    rw [habove] at ih
    exact hensure (hstep (Nat.le_refl _)) hagain
      (ih fun hlength => hstep (Nat.le_trans hlength (Location.length_above l)))
  | case5 l h hnames u habove e hagain ih =>
    rw [habove] at ih
    exact ih fun hlength => hstep (Nat.le_trans hlength (Location.length_above l))
  | case6 => exact ht

theorem WellFormed.createDirectory (ht : t.WellFormed) (h : t.createDirectory l = .ok u) :
    u.WellFormed := by
  obtain ⟨p, hplace, hnone, rfl⟩ := createDirectory_eq_ok h
  exact ht.put_place hplace (by simp [hnone]) _

theorem WellFormed.createDirectories (ht : t.WellFormed) (l : Location) :
    (t.createDirectories l).2.WellFormed :=
  createDirectories_keeps (fun _ hcreated hu => hu.createDirectory hcreated) ht

/-- Only a directory that is missing is created. -/
theorem missing_of_createDirectories (h : t.createDirectories l = (.ok (), u))
    (hfind : t.find l ≠ .ok .directory) :
    t.place l = .error .notFound ∨ ∃ p, t.place l = .ok p ∧ t.contentAt? p = none := by
  have hmissing : t.createDirectory l = .ok u ∨ t.createDirectory l = .error .notFound := by
    rcases hcreated : t.createDirectory l with e | v
    · have hensure : t.ensureDirectory l = .error e := by
        simp only [ensureDirectory, hcreated]
      rw [createDirectories, hensure] at h
      cases e <;> first | exact .inr rfl | cases h
    · have hensure : t.ensureDirectory l = .ok v := by rw [ensureDirectory, hcreated]
      rw [createDirectories, hensure] at h
      cases h
      exact .inl rfl
  rcases hmissing with hcreated | hcreated
  · obtain ⟨p, hplace, hnone, -⟩ := createDirectory_eq_ok hcreated
    exact .inr ⟨p, hplace, hnone⟩
  · unfold createDirectory at hcreated
    rcases hplace : t.place l with e | p <;> simp only [hplace] at hcreated
    · cases hcreated
      exact .inl rfl
    · rcases hnode : t.node? p with _ | ⟨_ | _, _⟩
      · exact .inr ⟨p, rfl, by rw [contentAt?, hnode, Option.map_none]⟩
      · rcases hending : l.ending <;> simp [hnode, hending] at hcreated
      · rcases hending : l.ending <;> simp [hnode, hending] at hcreated

theorem WellFormed.contentAt?_of_missing (ht : t.WellFormed) (hup : ".." ∉ l.names)
    (h : t.place l = .error .notFound ∨ ∃ p, t.place l = .ok p ∧ t.contentAt? p = none) :
    t.contentAt? l.names = none := by
  rcases hl : l.fault? with _ | e
  · rw [place_eq t hl] at h
    rcases h with hplace | ⟨p, hplace, hnone⟩
    · exact ht.contentAt?_of_follow hup hplace
    · obtain rfl := eq_append_of_follow hup hplace
      exact hnone
  · have hplace : t.place l = .error e := by simp [FileTree.place, hl]
    rcases h with hnotFound | ⟨p, hp, -⟩
    · exact absurd (Except.error.inj (hplace.symm.trans hnotFound)) (Location.ne_notFound hl)
    · cases hplace.symm.trans hp

/-- Every node stays as it is, and where there was nothing there is at most a directory, not too
deep. -/
def AddsDirectories (depth : Nat) (t u : FileTree) : Prop :=
  u.now = t.now ∧ ∀ p, u.node? p = t.node? p ∨
    t.node? p = none ∧ u.contentAt? p = some .directory ∧ p.length ≤ depth

theorem AddsDirectories.createDirectory {depth : Nat} (h : AddsDirectories depth t u)
    (hdepth : l.names.length ≤ depth) (hcreated : u.createDirectory l = .ok v) :
    AddsDirectories depth t v := by
  obtain ⟨p, hplace, hnone, rfl⟩ := createDirectory_eq_ok hcreated
  have hnil : p ≠ [] := by
    rintro rfl
    cases hnone
  rw [place_eq u (fault?_of_place hplace)] at hplace
  have hlength := length_le_of_follow hplace
  refine ⟨h.1, fun q => ?_⟩
  by_cases hq : q = p
  · subst hq
    right
    rcases h.2 q with hsame | ⟨-, hdirectory, -⟩
    · have hnode : u.node? q = none := Option.map_eq_none_iff.1 hnone
      refine ⟨hsame ▸ hnode, ?_, ?_⟩
      · rw [contentAt?_put hnil, if_pos rfl]
      · simp only [List.length_nil] at hlength
        omega
    · rw [hnone] at hdirectory
      cases hdirectory
  · rw [node?_put_of_ne hq, contentAt?_put hnil, if_neg hq]
    exact h.2 q

theorem addsDirectories_createDirectories (t : FileTree) (l : Location) :
    AddsDirectories l.names.length t (t.createDirectories l).2 :=
  createDirectories_keeps (fun hlength hcreated hu => hu.createDirectory hlength hcreated)
    ⟨rfl, fun _ => .inl rfl⟩

/-! ## Taking away -/

/-- What is left without the nodes at some places. -/
def without (t : FileTree) (gone : List Place) : FileTree :=
  { t with nodes := t.nodes.filter fun entry => !gone.contains entry.1 }

@[simp]
theorem without_nil (t : FileTree) : t.without [] = t := by
  simp [without]

@[simp]
theorem now_without (t : FileTree) (gone : List Place) : (t.without gone).now = t.now := rfl

theorem drop_without (t : FileTree) (gone : List Place) (p : Place) :
    (t.without gone).drop p = t.without (p :: gone) := by
  simp only [drop, without, List.filter_filter, List.contains_cons, Bool.not_or]
  rfl

theorem mem_without : (p, node) ∈ (t.without gone).nodes ↔ (p, node) ∈ t.nodes ∧ p ∉ gone := by
  simp [without]

theorem node?_without (hgone : [] ∉ gone) (p : Place) :
    (t.without gone).node? p = if p ∈ gone then none else t.node? p := by
  by_cases hplace : p = []
  · subst hplace
    rw [if_neg hgone]
    rfl
  · simp only [node?, hplace, if_false, without,
      lookup_filter_key fun place => !gone.contains place]
    by_cases hmem : p ∈ gone <;> simp [hmem]

/-- Only files are taken away. -/
def Files (t : FileTree) (gone : List Place) : Prop :=
  ∀ p ∈ gone, t.contentAt? p ≠ some .directory

theorem Files.nil_notMem (h : t.Files gone) : [] ∉ gone := fun hmem => h [] hmem rfl

theorem contentAt?_without (h : t.Files gone) (p : Place) :
    (t.without gone).contentAt? p = if p ∈ gone then none else t.contentAt? p := by
  rw [contentAt?, node?_without h.nil_notMem]
  split <;> rfl

theorem directory_without_iff (h : t.Files gone) :
    (t.without gone).contentAt? p = some .directory ↔ t.contentAt? p = some .directory := by
  rw [contentAt?_without h]
  split
  · next hmem => simpa using h p hmem
  · rfl

theorem place_without_iff (h : t.Files gone) :
    (t.without gone).place l = .ok p ↔ t.place l = .ok p := by
  rcases hl : l.fault? with _ | e
  · rw [place_eq _ hl, place_eq t hl]
    exact ⟨follow_of_directories fun q => (directory_without_iff h).1,
      follow_of_directories fun q => (directory_without_iff h).2⟩
  · simp [FileTree.place, hl]

theorem WellFormed.without (ht : t.WellFormed) (h : t.Files gone) :
    (t.without gone).WellFormed where
  distinct := ht.distinct.sublist (List.filter_sublist.map _)
  above hmem := (directory_without_iff h).2 (ht.above (mem_without.1 hmem).1)
  up hmem := ht.up (mem_without.1 hmem).1

theorem children_without (h : ∀ p ∈ gone, p.dropLast ≠ q) :
    (t.without gone).children q = t.children q := by
  simp only [children, without, List.filterMap_filter]
  refine List.filterMap_congr fun entry _ => ?_
  obtain ⟨p, node⟩ := entry
  by_cases hmem : p ∈ gone
  · simp [hmem, h p hmem]
  · simp [hmem]

/-! ## Removing a file -/

theorem remove_eq_ok (h : t.remove l = .ok u) :
    ∃ p bytes modified, t.place l = .ok p ∧ t.node? p = some ⟨.file bytes, modified⟩ ∧
      u = t.drop p := by
  unfold remove at h
  rcases hplace : t.place l with e | p <;> simp only [hplace] at h
  · cases h
  · rcases hnode : t.node? p with _ | ⟨bytes | _, modified⟩ <;> simp only [hnode] at h <;> cases h
    exact ⟨p, bytes, modified, rfl, hnode, rfl⟩

theorem node?_of_remove (hplace : t.place l = .ok p) (h : t.remove l = .error .notFound) :
    t.node? p = none := by
  unfold remove at h
  rw [hplace] at h
  rcases hnode : t.node? p with _ | ⟨_ | _, _⟩ <;> simp [hnode] at h ⊢

theorem WellFormed.drop (ht : t.WellFormed) (hfile : t.contentAt? p ≠ some .directory) :
    (t.drop p).WellFormed := by
  have hdrop := drop_without t [] p
  rw [without_nil] at hdrop
  rw [hdrop]
  exact ht.without fun q hq => List.mem_singleton.1 hq ▸ hfile

theorem WellFormed.remove (ht : t.WellFormed) (h : t.remove l = .ok u) : u.WellFormed := by
  obtain ⟨p, bytes, modified, -, hnode, rfl⟩ := remove_eq_ok h
  exact ht.drop (by simp [contentAt?_of_node? hnode])

theorem WellFormed.rename (ht : t.WellFormed) {old new : Location}
    (h : t.rename old new = .ok u) : u.WellFormed := by
  unfold FileTree.rename at h
  split at h
  · next bytes p hread hplace =>
    refine (ht.drop ?_).write h
    rw [FileTree.read, find_eq, hplace] at hread
    intro hdirectory
    simp [Except.bind, hdirectory] at hread
  · cases h
  · cases h

end FileTree

end SszArchive
