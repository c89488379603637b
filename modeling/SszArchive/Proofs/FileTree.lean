import SszArchive.FileTree
import SszArchive.Proofs.Store

/-!
What operations on a tree of files find and leave. A location leads to the same place after a change
that only adds, and what was found there is still found. Creating a directory is such a change.
-/

namespace SszArchive.FileTree

variable {t u v : FileTree} {p other : Place} {names more : List String} {name : String}
  {l : Location} {content : Content}

/-! ## Contents -/

/-- What is at a place, whenever it was modified. -/
def contentAt? (t : FileTree) (place : Place) : Option Content :=
  (t.node? place).map Node.content

/-- The same files at another time. -/
def atTime (t : FileTree) (now : Int) : FileTree := { t with now := now }

@[simp]
theorem contentAt?_nil (t : FileTree) : t.contentAt? [] = some .directory := rfl

@[simp]
theorem contentAt?_atTime (t : FileTree) (now : Int) (p : Place) :
    (t.atTime now).contentAt? p = t.contentAt? p := by
  by_cases hplace : p = []
  · subst hplace
    rfl
  · simp [contentAt?, node?, atTime, hplace]

/-- The content of a node that is listed there and nowhere before. -/
theorem exists_mem_of_contentAt? (hplace : p ≠ []) (h : t.contentAt? p = some content) :
    ∃ modified, (p, ⟨content, modified⟩) ∈ t.nodes := by
  simp only [contentAt?, node?, hplace, if_false, Option.map_eq_some_iff] at h
  obtain ⟨node, hnode, rfl⟩ := h
  obtain ⟨before, behind, hnodes, -⟩ := List.lookup_eq_some_iff.1 hnode
  exact ⟨node.modified, by simp [hnodes]⟩

theorem contentAt?_put (hplace : p ≠ []) :
    (t.put p content).contentAt? other =
      if other = p then some content else t.contentAt? other := by
  by_cases hother : other = []
  · simp [hother, hplace.symm]
  · split
    · next h =>
      subst h
      simp [contentAt?, node?, put, hother]
    · next h =>
      simp only [contentAt?, node?, put, hother, if_false, List.lookup_cons, beq_false_of_ne h,
        lookup_filter_of_ne h]

theorem isSome_contentAt?_of_mem {node : Node} (h : (p, node) ∈ t.nodes) :
    (t.contentAt? p).isSome := by
  by_cases hnil : p = []
  · simp [hnil]
  · rw [Option.isSome_iff_ne_none]
    intro hnone
    simp only [contentAt?, node?, hnil, if_false, Option.map_eq_none_iff,
      List.lookup_eq_none_iff] at hnone
    simpa using hnone _ h

theorem mem_put {entry : Place × Node} :
    entry ∈ (t.put p content).nodes ↔
      entry = (p, ⟨content, t.now⟩) ∨ entry ∈ t.nodes ∧ entry.1 ≠ p := by
  simp [put]

/-- What was put where nothing was is dropped without a trace. -/
theorem drop_put (h : ∀ node, (p, node) ∉ t.nodes) : (t.put p content).drop p = t := by
  have hother : ∀ entry ∈ t.nodes, entry.1 ≠ p := by
    rintro ⟨place, node⟩ hmem rfl
    exact h node hmem
  simp only [drop, put, List.filter_cons, bne_self_eq_false, Bool.false_eq_true, if_false,
    List.filter_filter, Bool.and_self]
  rw [List.filter_eq_self.2 fun entry hmem => by simpa using hother entry hmem]

theorem mem_children {node : Node} :
    (name, node) ∈ t.children p ↔ (p ++ [name], node) ∈ t.nodes := by
  simp only [children, List.mem_filterMap, Prod.exists]
  constructor
  · rintro ⟨place, found, hmem, h⟩
    split at h
    · next hplace =>
      obtain ⟨last, hlast, heq⟩ := Option.map_eq_some_iff.1 h
      obtain ⟨above, rfl⟩ := List.getLast?_eq_some_iff.1 hlast
      rw [List.dropLast_concat] at hplace
      cases heq
      exact hplace ▸ hmem
    · cases h
  · intro hmem
    exact ⟨_, _, hmem, by simp⟩

/-! ## Finding -/

theorem follow_cons (t : FileTree) (p : Place) (name : String) (rest : List String) :
    t.follow p (name :: rest) =
      match t.contentAt? p with
      | none => .error .notFound
      | some (.file _) => .error .notDirectory
      | some .directory =>
        if name = ".." then t.follow p.dropLast rest
        else if longestName < name.utf8ByteSize then .error .nameTooLong
        else t.follow (p ++ [name]) rest := by
  rw [follow, contentAt?]
  rcases t.node? p with _ | ⟨_ | _, _⟩ <;> rfl

theorem follow_append (t : FileTree) (p : Place) (names more : List String) :
    t.follow p (names ++ more) = (t.follow p names).bind fun p => t.follow p more := by
  induction names generalizing p with
  | nil => rfl
  | cons name rest ih =>
    rw [List.cons_append, follow_cons, follow_cons]
    rcases t.contentAt? p with _ | _ | _
    · rfl
    · rfl
    · simp only [ih]
      split
      · rfl
      · split <;> rfl

/-- A name that stays in the directory, and is not too long. -/
theorem follow_name (hdirectory : t.contentAt? p = some .directory) (hup : name ≠ "..")
    (hsize : name.utf8ByteSize ≤ longestName) (rest : List String) :
    t.follow p (name :: rest) = t.follow (p ++ [name]) rest := by
  simp only [follow_cons, hdirectory, hup, if_false, Nat.not_lt.2 hsize]

theorem place_eq (t : FileTree) (hl : l.fault? = none) : t.place l = t.follow [] l.names := by
  simp only [FileTree.place, hl]

/-- A name in the directory where relative locations start. -/
theorem place_of_names (hl : l.fault? = none) (hnames : l.names = [name]) (hup : name ≠ "..")
    (hsize : name.utf8ByteSize ≤ longestName) : t.place l = .ok [name] := by
  rw [place_eq t hl, hnames, follow_name rfl hup hsize]
  rfl

theorem fault?_of_place (h : t.place l = .ok p) : l.fault? = none := by
  unfold FileTree.place at h
  split at h
  · cases h
  · assumption

theorem find_eq (t : FileTree) (l : Location) :
    t.find l = (t.place l).bind fun p =>
      match t.contentAt? p, l.ending with
      | none, _ => .error .notFound
      | some (.file bytes), .plain => .ok (.file bytes)
      | some (.file _), _ => .error .notDirectory
      | some .directory, _ => .ok .directory := by
  rw [find]
  rcases t.place l with e | p
  · rfl
  · simp only [contentAt?, Except.bind]
    rcases t.node? p with _ | ⟨_ | _, _⟩ <;> rcases l.ending <;> rfl

/-- Only directories are passed on the way. -/
theorem follow_of_directories
    (h : ∀ q, t.contentAt? q = some .directory → u.contentAt? q = some .directory)
    (hfollow : t.follow p names = .ok other) :
    u.follow p names = .ok other := by
  induction names generalizing p with
  | nil => exact hfollow
  | cons name rest ih =>
    rw [follow_cons] at hfollow ⊢
    rcases hcontent : t.contentAt? p with _ | _ | _
    · simp [hcontent] at hfollow
    · simp [hcontent] at hfollow
    · rw [hcontent] at hfollow
      rw [h _ hcontent]
      simp only at hfollow ⊢
      split
      · next hup =>
        rw [if_pos hup] at hfollow
        exact ih hfollow
      · next hup =>
        rw [if_neg hup] at hfollow
        split
        · next hsize =>
          rw [if_pos hsize] at hfollow
          cases hfollow
        · next hsize =>
          rw [if_neg hsize] at hfollow
          exact ih hfollow

/-! ## Additions -/

/-- Whatever is in `t` is in `u`. -/
def Within (t u : FileTree) : Prop :=
  ∀ p content, t.contentAt? p = some content → u.contentAt? p = some content

namespace Within

theorem refl (t : FileTree) : t.Within t := fun _ _ h => h

theorem trans (htu : t.Within u) (huv : u.Within v) : t.Within v :=
  fun p content h => huv p content (htu p content h)

theorem atTime (t : FileTree) (now : Int) : t.Within (t.atTime now) := by
  intro p content h
  rwa [contentAt?_atTime]

theorem put (hplace : t.contentAt? p = none) (content : Content) :
    t.Within (t.put p content) := by
  have hnil : p ≠ [] := by
    rintro rfl
    cases hplace
  intro other found h
  rw [contentAt?_put hnil]
  split
  · next heq =>
    rw [heq, hplace] at h
    cases h
  · exact h

theorem follow (h : t.Within u) (hfollow : t.follow p names = .ok other) :
    u.follow p names = .ok other :=
  follow_of_directories (fun q => h q .directory) hfollow

theorem place (h : t.Within u) (hplace : t.place l = .ok other) : u.place l = .ok other := by
  have hl := fault?_of_place hplace
  rw [place_eq t hl] at hplace
  rw [place_eq u hl, h.follow hplace]

theorem find (h : t.Within u) (hfind : t.find l = .ok content) : u.find l = .ok content := by
  rw [find_eq] at hfind ⊢
  rcases hplace : t.place l with e | other
  · rw [hplace] at hfind
    cases hfind
  · rw [hplace] at hfind
    rw [h.place hplace]
    simp only [Except.bind] at hfind ⊢
    rcases hcontent : t.contentAt? other with _ | _ | _ <;> rw [hcontent] at hfind
    · simp at hfind
    · rw [h _ _ hcontent]
      exact hfind
    · rw [h _ _ hcontent]
      exact hfind

theorem read (h : t.Within u) {bytes : Bytes} (hread : t.read l = .ok bytes) :
    u.read l = .ok bytes := by
  unfold FileTree.read at hread ⊢
  rcases hfind : t.find l with e | _ | _ <;> rw [hfind] at hread
  · cases hread
  · rwa [h.find hfind]
  · cases hread

theorem readText (h : t.Within u) {text : String} (hread : t.readText l = .ok text) :
    u.readText l = .ok text := by
  unfold FileTree.readText at hread ⊢
  rcases hbytes : t.read l with e | bytes <;> rw [hbytes] at hread
  · cases hread
  · rwa [h.read hbytes]

end Within

/-- Beneath a place there is the same in both trees. -/
def SameBeneath (root : Place) (t u : FileTree) : Prop :=
  ∀ p node, root <+: p → p ≠ root → ((p, node) ∈ t.nodes ↔ (p, node) ∈ u.nodes)

theorem SameBeneath.exists_content {root : Place} (h : SameBeneath root t u) (hnil : p ≠ [])
    (hbelow : root <+: p) (hne : p ≠ root) (hcontent : t.contentAt? p = some content) :
    ∃ found, u.contentAt? p = some found := by
  obtain ⟨modified, hmem⟩ := exists_mem_of_contentAt? hnil hcontent
  exact Option.isSome_iff_exists.1 (isSome_contentAt?_of_mem ((h _ _ hbelow hne).1 hmem))

/-! ## Writing -/

theorem write_eq_ok {bytes : Bytes} (h : t.write l bytes = .ok u) :
    l.ending = .plain ∧ ∃ p, t.place l = .ok p ∧ t.contentAt? p ≠ some .directory ∧
      u = t.put p (.file bytes) := by
  unfold write at h
  rcases hending : l.ending <;> rw [hending] at h
  · rcases hplace : t.place l with e | p
    · simp [hplace] at h
    · rcases hnode : t.node? p with _ | ⟨_ | _, _⟩ <;> simp [hplace, hnode] at h
      all_goals exact ⟨rfl, p, rfl, by simp [contentAt?, hnode], h.symm⟩
  · simp only at h
    split at h <;> cases h
  · rcases hplace : t.place l with e | p
    · simp [hplace] at h
    · rcases hnode : t.node? p with _ | ⟨_ | _, _⟩ <;> simp [hplace, hnode] at h

theorem createDirectory_eq_ok (h : t.createDirectory l = .ok u) :
    ∃ p, t.place l = .ok p ∧ t.contentAt? p = none ∧ u = t.put p .directory := by
  unfold createDirectory at h
  rcases hplace : t.place l with e | p
  · simp [hplace] at h
  · rcases hnode : t.node? p with _ | ⟨_ | _, _⟩ <;> rcases hending : l.ending <;>
      simp [hplace, hnode, hending] at h
    all_goals exact ⟨p, rfl, by simp [contentAt?, hnode], h.symm⟩

theorem createDirectory_finds (h : t.createDirectory l = .ok u) : u.find l = .ok .directory := by
  obtain ⟨p, hplace, hnone, rfl⟩ := createDirectory_eq_ok h
  have hnil : p ≠ [] := by
    rintro rfl
    cases hnone
  rw [find_eq, (Within.put hnone _).place hplace]
  simp only [Except.bind, contentAt?_put hnil, if_true]

theorem ensureDirectory_eq_ok (h : t.ensureDirectory l = .ok u) :
    t.Within u ∧ u.find l = .ok .directory := by
  unfold ensureDirectory at h
  split at h
  · next created hcreated =>
    cases h
    obtain ⟨p, -, hnone, rfl⟩ := createDirectory_eq_ok hcreated
    exact ⟨Within.put hnone _, createDirectory_finds hcreated⟩
  · split at h
    · next hfound =>
      cases h
      exact ⟨Within.refl t, hfound⟩
    · cases h

/-- Creating directories only adds, also when it fails in the middle. -/
theorem within_createDirectories (t : FileTree) (l : Location) :
    t.Within (t.createDirectories l).2 := by
  fun_induction t.createDirectories l with
  | case1 l u hensure => exact (ensureDirectory_eq_ok hensure).1
  | case2 => exact Within.refl _
  | case3 l hensure hnames e u habove ih =>
    rw [habove] at ih
    exact ih
  | case4 l hensure hnames u habove v hagain ih =>
    rw [habove] at ih
    exact ih.trans (ensureDirectory_eq_ok hagain).1
  | case5 l hensure hnames u habove e hagain ih =>
    rw [habove] at ih
    exact ih
  | case6 => exact Within.refl _

theorem find_of_createDirectories (h : t.createDirectories l = (.ok (), u)) :
    u.find l = .ok .directory := by
  unfold createDirectories at h
  split at h
  · next hensure =>
    cases h
    exact (ensureDirectory_eq_ok hensure).2
  · split at h
    · cases h
    · split at h
      · cases h
      · split at h
        · next hagain =>
          cases h
          exact (ensureDirectory_eq_ok hagain).2
        · cases h
  · cases h

theorem contentAt?_of_find (hplace : t.place l = .ok p) (hfind : t.find l = .ok .directory) :
    t.contentAt? p = some .directory := by
  rw [find_eq, hplace] at hfind
  simp only [Except.bind] at hfind
  split at hfind <;> simp_all

/-- A directory that is there is left alone. -/
theorem createDirectories_of_find (h : t.find l = .ok .directory) :
    t.createDirectories l = (.ok (), t) := by
  have hensure : t.ensureDirectory l = .ok t := by
    rw [ensureDirectory, h]
    split
    · next created hcreated =>
      obtain ⟨p, hplace, hnone, -⟩ := createDirectory_eq_ok hcreated
      rw [find_eq, hplace] at h
      simp [Except.bind, hnone] at h
    · rfl
  rw [createDirectories, hensure]

end SszArchive.FileTree
