import SszArchive.Proofs.EntryNames
import SszArchive.Proofs.FileTree
import SszArchive.Proofs.Simulation

/-!
A directory store stands for a memory. Below its root there are the entries, each under its own
name, their folders, and nothing else: no entry is written twice, a temporary file has another name
than every entry, and it is gone when the operation ends.
-/

namespace SszArchive.Directory

open FileTree

variable {l : Location} {root : Place} {t u : FileTree} {m next : Memory} {id other : DiffId}
  {name : String} {bytes : Bytes} {d : Directory}

/-! ## Places -/

def folderPlace (root : Place) (id : DiffId) : Place := root ++ [id.folderName]

def entryPlace (root : Place) (id : DiffId) : Place := folderPlace root id ++ [id.hex]

theorem folderPlace_ne_nil (root : Place) (id : DiffId) : folderPlace root id ≠ [] := by
  simp [folderPlace]

theorem entryPlace_ne_nil (root : Place) (id : DiffId) : entryPlace root id ≠ [] := by
  simp [entryPlace]

theorem folderPlace_ne_root (root : Place) (id : DiffId) : folderPlace root id ≠ root := by
  simp [folderPlace]

theorem entryPlace_ne_root (root : Place) (id : DiffId) : entryPlace root id ≠ root := by
  simp [entryPlace, folderPlace]

theorem prefix_folderPlace (root : Place) (id : DiffId) : root <+: folderPlace root id :=
  List.prefix_append _ _

theorem prefix_entryPlace (root : Place) (id : DiffId) : root <+: entryPlace root id :=
  (prefix_folderPlace root id).trans (List.prefix_append _ _)

theorem folderPlace_ne_entryPlace (root : Place) (id other : DiffId) :
    folderPlace root id ≠ entryPlace root other := by
  intro h
  have := congrArg List.length h
  simp [entryPlace, folderPlace] at this

theorem entryPlace_injective (h : entryPlace root id = entryPlace root other) : id = other := by
  have hlast := congrArg List.getLast? h
  simp only [entryPlace, List.getLast?_concat, Option.some.injEq] at hlast
  exact DiffId.hex_injective hlast

/-! ## The relation -/

/-- Beneath `root` there are the entries of `m`, each in one file, their folders, and nothing
else. -/
structure HoldsBeneath (root : Place) (t : FileTree) (m : Memory) : Prop where
  beneath : ∀ {p node}, (p, node) ∈ t.nodes → root <+: p → p ≠ root →
    (∃ id, p = folderPlace root id ∧ node.content = .directory) ∨
      ∃ id bytes, p = entryPlace root id ∧ node.content = .file bytes ∧ m.get? id = some bytes
  entry : ∀ {id bytes}, m.get? id = some bytes →
    t.contentAt? (folderPlace root id) = some .directory ∧
      t.contentAt? (entryPlace root id) = some (.file bytes)

/-- The directory at `l` holds the entries of `m`. -/
structure Holds (l : Location) (root : Place) (t : FileTree) (m : Memory) : Prop
    extends HoldsBeneath root t m where
  place : t.place l = .ok root
  directory : t.contentAt? root = some .directory

namespace HoldsBeneath

theorem of_bare (h : ∀ p node, (p, node) ∈ t.nodes → root <+: p → p = root) :
    HoldsBeneath root t .empty where
  beneath hmem hbelow hne := absurd (h _ _ hmem hbelow) hne
  entry hget := nomatch hget

/-- It does not matter what is elsewhere. -/
theorem of_same (hsame : SameBeneath root t u) (h : HoldsBeneath root t m) :
    HoldsBeneath root u m := by
  have hbeneath : ∀ {p content}, p ≠ [] → root <+: p → p ≠ root →
      u.contentAt? p = some content →
      (∃ id, p = folderPlace root id ∧ content = .directory) ∨
        ∃ id bytes, p = entryPlace root id ∧ content = .file bytes ∧ m.get? id = some bytes := by
    intro p content hnil hbelow hne hcontent
    obtain ⟨modified, hmem⟩ := exists_mem_of_contentAt? hnil hcontent
    exact h.beneath ((hsame _ _ hbelow hne).2 hmem) hbelow hne
  refine ⟨fun hmem hbelow hne => h.beneath ((hsame _ _ hbelow hne).2 hmem) hbelow hne, ?_⟩
  intro id bytes hget
  obtain ⟨hfolder, hentry⟩ := h.entry hget
  constructor
  · obtain ⟨content, hcontent⟩ := hsame.exists_content (folderPlace_ne_nil root id)
      (prefix_folderPlace root id) (folderPlace_ne_root root id) hfolder
    rcases hbeneath (folderPlace_ne_nil root id) (prefix_folderPlace root id)
        (folderPlace_ne_root root id) hcontent with ⟨other, -, rfl⟩ | ⟨other, found, hplace, -⟩
    · exact hcontent
    · exact absurd hplace (folderPlace_ne_entryPlace root id other)
  · obtain ⟨content, hcontent⟩ := hsame.exists_content (entryPlace_ne_nil root id)
      (prefix_entryPlace root id) (entryPlace_ne_root root id) hentry
    rcases hbeneath (entryPlace_ne_nil root id) (prefix_entryPlace root id)
        (entryPlace_ne_root root id) hcontent with
      ⟨other, hplace, -⟩ | ⟨other, found, hplace, rfl, hfound⟩
    · exact absurd hplace.symm (folderPlace_ne_entryPlace root other id)
    · rw [← entryPlace_injective hplace, hget] at hfound
      cases hfound
      exact hcontent

end HoldsBeneath

namespace Holds

/-- Only what a memory gives matters. -/
theorem congr (h : Holds l root t m) (hget : ∀ id, next.get? id = m.get? id) :
    Holds l root t next where
  place := h.place
  directory := h.directory
  beneath hmem hbelow hne := by
    simp only [hget]
    exact h.beneath hmem hbelow hne
  entry hid := h.entry (hget _ ▸ hid)

theorem atTime (h : Holds l root t m) (now : Int) : Holds l root (t.atTime now) m where
  place := (Within.atTime t now).place h.place
  directory := (contentAt?_atTime t now root).trans h.directory
  beneath hmem hbelow hne := h.beneath hmem hbelow hne
  entry hid := by simpa using h.entry hid

/-- At the name of an entry there is that entry, or nothing. -/
theorem contentAt?_entryPlace (h : Holds l root t m) (id : DiffId) :
    t.contentAt? (entryPlace root id) = (m.get? id).map .file := by
  rcases hget : m.get? id with _ | bytes
  · rw [Option.map_none, ← Option.not_isSome_iff_eq_none, Option.isSome_iff_exists]
    rintro ⟨content, hcontent⟩
    obtain ⟨modified, hmem⟩ := exists_mem_of_contentAt? (entryPlace_ne_nil root id) hcontent
    rcases h.beneath hmem (prefix_entryPlace root id) (entryPlace_ne_root root id) with
      ⟨other, hplace, -⟩ | ⟨other, bytes, hplace, -, hother⟩
    · exact folderPlace_ne_entryPlace root other id hplace.symm
    · rw [entryPlace_injective hplace, hother] at hget
      cases hget
  · exact (h.entry hget).2

theorem contentAt?_folderPlace (h : Holds l root t m) (id : DiffId) :
    t.contentAt? (folderPlace root id) = some .directory ∨
      t.contentAt? (folderPlace root id) = none ∧ m.get? id = none := by
  rcases hcontent : t.contentAt? (folderPlace root id) with _ | content
  · right
    refine ⟨rfl, ?_⟩
    rcases hget : m.get? id with _ | bytes
    · rfl
    · rw [(h.entry hget).1] at hcontent
      cases hcontent
  · left
    obtain ⟨modified, hmem⟩ := exists_mem_of_contentAt? (folderPlace_ne_nil root id) hcontent
    rcases h.beneath hmem (prefix_folderPlace root id) (folderPlace_ne_root root id) with
      ⟨other, -, rfl⟩ | ⟨other, bytes, hplace, -⟩
    · rfl
    · exact absurd hplace (folderPlace_ne_entryPlace root id other)

/-- The files are those of the entries. -/
theorem file_iff (h : Holds l root t m) {p : Place} (hbelow : root <+: p) :
    t.contentAt? p = some (.file bytes) ↔
      ∃ id, p = entryPlace root id ∧ m.get? id = some bytes := by
  constructor
  · intro hcontent
    have hne : p ≠ root := by
      rintro rfl
      rw [h.directory] at hcontent
      cases hcontent
    have hnil : p ≠ [] := by
      rintro rfl
      cases hcontent
    obtain ⟨modified, hmem⟩ := exists_mem_of_contentAt? hnil hcontent
    rcases h.beneath hmem hbelow hne with ⟨id, -, hfolder⟩ | ⟨id, found, hplace, hfile, hget⟩
    · cases hfolder
    · cases hfile
      exact ⟨id, hplace, hget⟩
  · rintro ⟨id, rfl, hget⟩
    exact (h.entry hget).2

/-- No file in a folder has the name of a temporary one. -/
theorem not_temporary (h : Holds l root t m) {node : Node}
    (hmem : (name, node) ∈ t.children (folderPlace root id)) :
    name.startsWith temporaryMark = false := by
  rw [mem_children] at hmem
  rcases h.beneath hmem ((prefix_folderPlace root id).trans (List.prefix_append _ _))
      (by simp [folderPlace]) with ⟨other, hplace, -⟩ | ⟨other, bytes, hplace, -⟩
  · have := congrArg List.length hplace
    simp [folderPlace] at this
  · have hlast := congrArg List.getLast? hplace
    simp only [entryPlace, List.getLast?_concat, Option.some.injEq] at hlast
    rw [hlast]
    exact other.isHex_hexChars.not_temporary

/-! ## Finding an entry -/

theorem place_folder (h : Holds d.root root t m) (hl : (d.folder id).fault? = none) :
    t.place (d.folder id) = .ok (folderPlace root id) := by
  have hroot := h.place
  rw [place_eq t (fault?_of_place hroot)] at hroot
  have hsize : id.folderName.utf8ByteSize ≤ longestName := by
    rw [id.utf8ByteSize_folderName]
    decide
  have hnames : (d.folder id).names = d.root.names ++ [id.folderName] := rfl
  rw [place_eq t hl, hnames, follow_append, hroot, Except.bind]
  exact follow_name h.directory (id.isHex_hexChars.take 2).ne_up hsize []

/-- A file in the folder of an entry. -/
theorem place_child (h : Holds d.root root t m) (hup : name ≠ "..")
    (hsize : name.utf8ByteSize ≤ longestName) (hl : ((d.folder id).child name).fault? = none) :
    t.place ((d.folder id).child name) =
      if t.contentAt? (folderPlace root id) = none then .error .notFound
      else .ok (folderPlace root id ++ [name]) := by
  have hfolder := h.place_folder (Location.fault?_of_child hl)
  rw [place_eq t (Location.fault?_of_child hl)] at hfolder
  have hnames : ((d.folder id).child name).names = (d.folder id).names ++ [name] := rfl
  rw [place_eq t hl, hnames, follow_append, hfolder, Except.bind]
  rcases h.contentAt?_folderPlace id with hcontent | ⟨hcontent, -⟩
  · rw [follow_name hcontent hup hsize]
    simp [hcontent, follow]
  · simp [follow_cons, hcontent]

theorem place_location (h : Holds d.root root t m) (hl : (d.location id).fault? = none) :
    t.place (d.location id) =
      if t.contentAt? (folderPlace root id) = none then .error .notFound
      else .ok (entryPlace root id) := by
  have hsize : id.hex.utf8ByteSize ≤ longestName := by
    rw [id.utf8ByteSize_hex]
    decide
  exact h.place_child id.isHex_hexChars.ne_up hsize hl

theorem find_location (h : Holds d.root root t m) (hl : (d.location id).fault? = none) :
    t.find (d.location id) =
      match m.get? id with
      | some bytes => .ok (.file bytes)
      | none => .error .notFound := by
  have hending : (d.location id).ending = .plain := rfl
  rw [find_eq, h.place_location hl]
  rcases h.contentAt?_folderPlace id with hcontent | ⟨hcontent, hget⟩
  · rw [if_neg (by simp [hcontent])]
    simp only [Except.bind, h.contentAt?_entryPlace, hending]
    cases m.get? id <;> rfl
  · simp [hcontent, hget, Except.bind]

/-! ## Changing -/

/-- A folder does not disturb the entries. -/
theorem put_folder (h : Holds l root t m) (hnone : t.contentAt? (folderPlace root id) = none) :
    Holds l root (t.put (folderPlace root id) .directory) m where
  place := (Within.put hnone _).place h.place
  directory := Within.put hnone _ _ _ h.directory
  beneath hmem hbelow hne := by
    rcases mem_put.1 hmem with heq | ⟨hmem, -⟩
    · cases heq
      exact .inl ⟨id, rfl, rfl⟩
    · exact h.beneath hmem hbelow hne
  entry hget := by
    obtain ⟨hfolder, hentry⟩ := h.entry hget
    exact ⟨Within.put hnone _ _ _ hfolder, Within.put hnone _ _ _ hentry⟩

theorem put_entry (h : Holds l root t m) (hget : m.get? id = none)
    (hfolder : t.contentAt? (folderPlace root id) = some .directory) :
    Holds l root (t.put (entryPlace root id) (.file bytes)) (m.insert id bytes) := by
  have hnone : t.contentAt? (entryPlace root id) = none := by
    rw [h.contentAt?_entryPlace, hget, Option.map_none]
  have hwithin := Within.put hnone (.file bytes)
  refine ⟨⟨?_, ?_⟩, hwithin.place h.place, hwithin _ _ h.directory⟩
  · intro p node hmem hbelow hne
    rcases mem_put.1 hmem with heq | ⟨hmem, hother⟩
    · cases heq
      exact .inr ⟨id, bytes, rfl, rfl, Memory.get?_insert_self m id bytes⟩
    · rcases h.beneath hmem hbelow hne with hdirectory | ⟨other, found, rfl, hcontent, hget⟩
      · exact .inl hdirectory
      · have hdifferent : other ≠ id := fun heq => hother (heq ▸ rfl)
        exact .inr ⟨other, found, rfl, hcontent, by rwa [Memory.get?_insert_of_ne hdifferent]⟩
  · intro other found hfound
    rw [Memory.get?_insert] at hfound
    split at hfound
    · next heq =>
      cases hfound
      subst heq
      refine ⟨hwithin _ _ hfolder, ?_⟩
      rw [contentAt?_put (entryPlace_ne_nil root other), if_pos rfl]
    · obtain ⟨hfolder, hentry⟩ := h.entry hfound
      exact ⟨hwithin _ _ hfolder, hwithin _ _ hentry⟩

/-- The folder of an entry is there, or it is created. -/
theorem createFolder (h : Holds d.root root t m) (hl : (d.folder id).fault? = none) :
    ∃ u, t.createDirectories (d.folder id) = (.ok (), u) ∧ Holds d.root root u m ∧
      u.contentAt? (folderPlace root id) = some .directory ∧ t.Within u ∧ u.now = t.now := by
  have hplace := h.place_folder hl
  rcases h.contentAt?_folderPlace id with hcontent | ⟨hcontent, -⟩
  · refine ⟨t, createDirectories_of_find ?_, h, hcontent, Within.refl t, rfl⟩
    rw [find_eq, hplace]
    simp only [Except.bind, hcontent]
  · have hnode : t.node? (folderPlace root id) = none := Option.map_eq_none_iff.1 hcontent
    have hending : (d.folder id).ending = .plain := rfl
    have hcreated : t.createDirectory (d.folder id) =
        .ok (t.put (folderPlace root id) .directory) := by
      simp [createDirectory, hplace, hnode, hending]
    refine ⟨_, ?_, h.put_folder hcontent, ?_, Within.put hcontent _, rfl⟩
    · rw [createDirectories, ensureDirectory, hcreated]
    · rw [contentAt?_put (folderPlace_ne_nil root id), if_pos rfl]

/-- A file with another name than all entries is written and moved away without a trace. -/
theorem write_and_rename (h : Holds d.root root t m) (bytes : Bytes) (hget : m.get? id = none)
    (hfolder : t.contentAt? (folderPlace root id) = some .directory)
    (hname : name.startsWith temporaryMark) (hsize : name.utf8ByteSize ≤ longestName)
    (htemporary : ((d.folder id).child name).fault? = none)
    (hl : (d.location id).fault? = none) :
    ∃ written, t.write ((d.folder id).child name) bytes = .ok written ∧
      written.rename ((d.folder id).child name) (d.location id) =
        .ok (t.put (entryPlace root id) (.file bytes)) := by
  have hup : name ≠ ".." := by
    rintro rfl
    have hlength := (String.startsWith_string_iff.1 hname).length_le
    exact absurd hlength (by decide)
  have hplace : t.place ((d.folder id).child name) = .ok (folderPlace root id ++ [name]) := by
    rw [h.place_child hup hsize htemporary, if_neg]
    simp [hfolder]
  have hfree : ∀ node, (folderPlace root id ++ [name], node) ∉ t.nodes := by
    intro node hmem
    have := h.not_temporary (mem_children.2 hmem)
    rw [hname] at this
    cases this
  have hnone : t.contentAt? (folderPlace root id ++ [name]) = none := by
    by_contra hsome
    obtain ⟨content, hcontent⟩ := Option.ne_none_iff_exists'.1 hsome
    obtain ⟨modified, hmem⟩ := exists_mem_of_contentAt? (by simp) hcontent
    exact hfree _ hmem
  have hentry : t.place (d.location id) = .ok (entryPlace root id) := by
    rw [h.place_location hl, if_neg]
    simp [hfolder]
  have hempty : t.node? (entryPlace root id) = none := by
    rw [← Option.map_eq_none_iff (f := Node.content)]
    exact (h.contentAt?_entryPlace id).trans (by rw [hget, Option.map_none])
  have hplain : ((d.folder id).child name).ending = .plain ∧ (d.location id).ending = .plain :=
    ⟨rfl, rfl⟩
  have hread : (t.put (folderPlace root id ++ [name]) (.file bytes)).read
      ((d.folder id).child name) = .ok bytes := by
    rw [FileTree.read, find_eq, (Within.put hnone _).place hplace]
    simp only [Except.bind, contentAt?_put (p := folderPlace root id ++ [name]) (by simp), if_true,
      hplain.1]
  refine ⟨t.put (folderPlace root id ++ [name]) (.file bytes), ?_, ?_⟩
  · simp [write, hplain.1, hplace, Option.map_eq_none_iff.1 hnone]
  · rw [rename, hread, (Within.put hnone _).place hplace]
    simp [drop_put hfree, write, hplain.2, hentry, hempty]

/-! ## Operations -/

theorem has_eq (h : Holds d.root root t m) (hl : (d.location id).fault? = none) :
    d.store.has id t = .ok (m.get? id).isSome := by
  simp only [store, present, h.find_location hl]
  cases m.get? id <;> rfl

theorem load_eq (h : Holds d.root root t m) (hl : (d.location id).fault? = none) :
    d.store.load id t = Memory.store.load id m := by
  simp only [store, FileTree.read, h.find_location hl, Memory.store]
  cases m.get? id <;> rfl

/-- An entry that is there is kept. -/
theorem save_present (h : Holds d.root root t m) (hl : (d.location id).fault? = none)
    (hget : (m.get? id).isSome) (bytes : Bytes) :
    (d.store.save id bytes t).answer = .ok () ∧ (d.store.save id bytes t).state = t := by
  obtain ⟨old, hold⟩ := Option.isSome_iff_exists.1 hget
  simp [store, present, h.find_location hl, hold]

/-- A new entry is written, unless the location of its temporary file is at fault. -/
theorem writeEntry_cases (h : Holds d.root root t m) (hl : (d.location id).fault? = none)
    (hget : m.get? id = none) (bytes : Bytes) :
    (d.writeEntry id bytes t).1 = .ok () ∧
        Holds d.root root (d.writeEntry id bytes t).2 (m.insert id bytes) ∧
        t.Within (d.writeEntry id bytes t).2 ∨
      ((d.folder id).child (temporaryText t.now id 0)).fault? ≠ none ∧
        ∃ e, (d.writeEntry id bytes t).1 = .error e := by
  obtain ⟨u, hcreate, hu, hfolder, hwithin, hnow⟩ := h.createFolder (Location.fault?_of_child hl)
  have hplace := hu.place_folder (Location.fault?_of_child hl)
  have hname : temporaryName ((u.children (folderPlace root id)).map Prod.fst) u.now id =
      temporaryText t.now id 0 := by
    rw [temporaryName_eq, hnow]
    intro name hmem
    obtain ⟨⟨_, node⟩, hchild, rfl⟩ := List.mem_map.1 hmem
    exact hu.not_temporary hchild
  rcases htemporary : ((d.folder id).child (temporaryText t.now id 0)).fault? with _ | e
  · left
    have hsize : (temporaryText t.now id 0).utf8ByteSize ≤ longestName := by
      have := (temporaryText_fits t.now id).1
      simp only [longestName]
      omega
    obtain ⟨written, hwritten, hrename⟩ := hu.write_and_rename bytes hget hfolder
      (temporaryText_startsWith t.now id 0) hsize htemporary hl
    have hnone : u.contentAt? (entryPlace root id) = none := by
      rw [hu.contentAt?_entryPlace, hget, Option.map_none]
    simp only [writeEntry, hcreate, hplace, hname, hwritten, hrename]
    exact ⟨trivial, hu.put_entry hget hfolder, hwithin.trans (Within.put hnone _)⟩
  · right
    have hending : ((d.folder id).child (temporaryText t.now id 0)).ending = .plain := rfl
    have hwrite : u.write ((d.folder id).child (temporaryText t.now id 0)) bytes = .error e := by
      simp [write, hending, FileTree.place, htemporary]
    exact ⟨Option.some_ne_none e, e, by simp only [writeEntry, hcreate, hplace, hname, hwrite]⟩

theorem save_absent (h : Holds d.root root t m) (hl : (d.location id).fault? = none)
    (hget : m.get? id = none) (bytes : Bytes) :
    (d.store.save id bytes t).answer = (d.writeEntry id bytes t).1.mapError .files ∧
      (d.store.save id bytes t).state = (d.writeEntry id bytes t).2 := by
  have hpresent : t.present (d.location id) = .ok false := by
    simp [present, h.find_location hl, hget]
  simp only [store, hpresent]
  rcases d.writeEntry id bytes t with ⟨_ | _, u⟩ <;> exact ⟨rfl, rfl⟩

/-- A new entry is saved, or the location of its temporary file is at fault. -/
theorem save_cases (h : Holds d.root root t m) (hl : (d.location id).fault? = none)
    (hget : m.get? id = none) (bytes : Bytes) :
    (d.store.save id bytes t).answer = .ok () ∧
        Holds d.root root (d.store.save id bytes t).state (m.insert id bytes) ∧
        t.Within (d.store.save id bytes t).state ∨
      ((d.folder id).child (temporaryText t.now id 0)).fault? ≠ none ∧
        ∃ e, (d.store.save id bytes t).answer = .error (.files e) := by
  obtain ⟨hanswer, hstate⟩ := h.save_absent hl hget bytes
  rw [hanswer, hstate]
  rcases h.writeEntry_cases hl hget bytes with ⟨hwrite, hnext, hwithin⟩ | ⟨hfault, e, hwrite⟩
  · exact .inl ⟨by rw [hwrite]; rfl, hnext, hwithin⟩
  · exact .inr ⟨hfault, e, by rw [hwrite]; rfl⟩

/-! ## Opening -/

end Holds

/-- Opening a directory that is created is opening it once it is there. -/
theorem open_of_createDirectories (hcreate : t.createDirectories d.root = (.ok (), u)) :
    d.open t = d.open u := by
  unfold Directory.open
  rw [hcreate, createDirectories_of_find (find_of_createDirectories hcreate)]

namespace Holds

/-- There are no temporary files; at most a folder cannot be reached. -/
theorem mem_temporaryFiles (h : Holds d.root root t m) {found : Except FileFault (Location × Node)}
    (hfound : found ∈ d.temporaryFiles t root) :
    (∃ e, found = .error e) ∧ ∃ id, (d.folder id).fault? ≠ none := by
  simp only [temporaryFiles, List.mem_flatMap, Prod.exists] at hfound
  obtain ⟨folder, node, hchild, hfound⟩ := hfound
  rw [mem_children] at hchild
  rcases h.beneath hchild (List.prefix_append _ _) (by simp) with
    ⟨id, hplace, hcontent⟩ | ⟨id, bytes, -, hcontent, -⟩
  · have hname : folder = id.folderName := by simpa [folderPlace] using hplace
    subst hname
    have hlocation : d.root.child id.folderName = d.folder id := rfl
    rw [hcontent, hlocation] at hfound
    rcases hfind : t.find (d.folder id) with e | content
    · simp only [hfind, List.mem_singleton] at hfound
      refine ⟨⟨e, hfound⟩, id, fun hl => ?_⟩
      have hdirectory : t.contentAt? (folderPlace root id) = some .directory := by
        rcases h.contentAt?_folderPlace id with hsome | ⟨hnone, -⟩
        · exact hsome
        · have := isSome_contentAt?_of_mem hchild
          rw [hplace, hnone] at this
          cases this
      rw [find_eq, h.place_folder hl] at hfind
      simp [Except.bind, hdirectory] at hfind
    · simp only [hfind, List.mem_filterMap, Prod.exists] at hfound
      obtain ⟨name, node, hmem, hname⟩ := hfound
      rw [hplace] at hmem
      simp [h.not_temporary hmem] at hname
  · simp [hcontent] at hfound

/-- Opening changes nothing, and succeeds if all folders can be reached. -/
theorem open_eq (h : Holds d.root root t m) :
    (d.open t).state = t ∧
      ((d.open t).answer = .ok () ∨
        (∃ e, (d.open t).answer = .error (.files e)) ∧ ∃ id, (d.folder id).fault? ≠ none) := by
  have hfind : t.find d.root = .ok .directory := by
    rw [find_eq, h.place]
    simp only [Except.bind, h.directory]
  have hcreate := createDirectories_of_find hfind
  rcases hfiles : d.temporaryFiles t root with _ | ⟨found, rest⟩
  · simp [Directory.open, hcreate, h.place, hfiles, sweep]
  · obtain ⟨⟨e, rfl⟩, hfault⟩ := h.mem_temporaryFiles (hfiles ▸ List.mem_cons_self)
    simp [Directory.open, hcreate, h.place, hfiles, sweep, hfault]

end Holds

/-! ## Room for names -/

/-- The longest location that is used, that of a temporary file, is not too long. -/
def Fits (d : Directory) : Prop := d.root.text.utf8ByteSize + 81 ≤ Location.longestText

namespace Fits

theorem folder (hd : d.Fits) (hroot : d.root.fault? = none) (id : DiffId) :
    (d.folder id).fault? = none := by
  have hname : Char.ofNat 0 ∉ id.folderName.toList := by
    rw [DiffId.folderName, String.toList_ofList]
    exact (id.isHex_hexChars.take 2).notMem (by decide)
  refine Location.fault?_child hroot hname ?_
  have hsize := id.utf8ByteSize_folderName
  unfold Fits at hd
  simp only [DiffId.folderName] at hsize
  omega

theorem child (hd : d.Fits) (hroot : d.root.fault? = none) (hname : Char.ofNat 0 ∉ name.toList)
    (hsize : name.utf8ByteSize ≤ 77) : ((d.folder id).child name).fault? = none := by
  refine Location.fault?_child (hd.folder hroot id) hname ?_
  have hfolder : (d.folder id).text.utf8ByteSize ≤
      d.root.text.utf8ByteSize + 1 + id.folderName.utf8ByteSize :=
    (Location.utf8ByteSize_child d.root id.folderName).2
  rw [id.utf8ByteSize_folderName] at hfolder
  unfold Fits at hd
  omega

theorem location (hd : d.Fits) (hroot : d.root.fault? = none) (id : DiffId) :
    (d.location id).fault? = none := by
  have hname : Char.ofNat 0 ∉ id.hex.toList := by
    rw [DiffId.hex, String.toList_ofList]
    exact id.isHex_hexChars.notMem (by decide)
  refine hd.child hroot hname ?_
  rw [id.utf8ByteSize_hex]
  decide

theorem temporary (hd : d.Fits) (hroot : d.root.fault? = none) (now : Int) (id : DiffId) :
    ((d.folder id).child (temporaryText now id 0)).fault? = none :=
  hd.child hroot (temporaryText_fits now id).2 (temporaryText_fits now id).1

end Fits

/-- With room for the names a new entry is saved. -/
theorem Holds.save_new (hd : d.Fits) (h : Holds d.root root t m) (hget : m.get? id = none)
    (bytes : Bytes) :
    (d.store.save id bytes t).answer = .ok () ∧
      Holds d.root root (d.store.save id bytes t).state (m.insert id bytes) := by
  have hroot := fault?_of_place h.place
  rcases h.save_cases (hd.location hroot id) hget bytes with ⟨hanswer, hnext, -⟩ | ⟨hfault, -⟩
  · exact ⟨hanswer, hnext⟩
  · exact absurd (hd.temporary hroot t.now id) hfault

/-- With room for the names a directory store stands for a memory. -/
theorem simulates (hd : d.Fits) (root : Place) : d.store.Simulates (Holds d.root root) where
  has id h := h.has_eq (hd.location (fault?_of_place h.place) id)
  load id h := h.load_eq (hd.location (fault?_of_place h.place) id)
  save id bytes h := by
    rename_i t m
    rcases hget : m.get? id with _ | old
    · exact .inl (h.save_new hd hget bytes)
    · have hl := hd.location (fault?_of_place h.place) id
      obtain ⟨hanswer, hstate⟩ := h.save_present hl (by rw [hget]; rfl) bytes
      right
      left
      rw [hstate]
      exact ⟨hanswer, rfl, h⟩

end SszArchive.Directory
