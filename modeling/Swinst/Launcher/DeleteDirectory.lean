import Swinst.Launcher.FileSystem

/-! `deletedir.c`: a directory is deleted with everything in it. No path is longer than `MAX_PATH`. -/

namespace Swinst.Launcher

open Paths

/-- `concat`, with `none` for a null pointer -/
def concat (malloc : Nat → Bool) : (str1 str2 : Option Text) → Option Text
  | some str1, some str2 => if malloc (str1.length + str2.length + 1) then some (str1 ++ str2) else none
  | _, _ => none

/-- A file is deleted, and the result is the error. -/
def deleteFileAt (filePath : Text) (m : Machine) : Nat × Machine :=
  let (ok, m) := m.setFileAttributes filePath
  let result := if ok then 0 else m.lastError
  let (ok, m) := m.deleteFile filePath
  (if ok then result else m.lastError, m)

/-- One turn of the loop over a directory. `recurse` is `_delete_directory`, and there is `none` where it
does not end. -/
def deleteEntry (malloc : Nat → Bool) (recurse : Text → Machine → Option (Nat × Machine)) (rootDirectory : Text)
    (fileInfo : FindData) (m : Machine) : Option (Nat × Machine) :=
  if fileInfo.cFileName.head? = some '.' then some (0, m)
  else
    let filePath := concat malloc (some rootDirectory) (some ['\\'])
    match concat malloc filePath (some fileInfo.cFileName) with
    | none => some (ERROR_NOT_ENOUGH_MEMORY, m)
    | some filePath => if fileInfo.directory then recurse filePath m else some (deleteFileAt filePath m)

/-- The loop. It ends when `FindNextFile` finds nothing more. -/
def deleteEntries (malloc : Nat → Bool) (recurse : Text → Machine → Option (Nat × Machine)) (rootDirectory : Text) :
    List FindData → Machine → Option (Nat × Machine)
  | [], m => some (0, { m with lastError := ERROR_NO_MORE_FILES })
  | fileInfo :: found, m =>
    match deleteEntry malloc recurse rootDirectory fileInfo m with
    | none => none
    | some (result, m) =>
      if result ≠ 0 then some (result, m) else deleteEntries malloc recurse rootDirectory found m

/-- What is done behind the loop -/
def removeRoot (rootDirectory : Text) (m : Machine) : Nat × Machine :=
  if m.lastError ≠ ERROR_NO_MORE_FILES then (m.lastError, m)
  else
    let (ok, m) := m.setFileAttributes rootDirectory
    if !ok then (m.lastError, m)
    else
      let (ok, m) := m.removeDirectory rootDirectory
      if !ok then (m.lastError, m) else (0, m)

/-- `_delete_directory`, for directories that are nested at most as deep as a number -/
def _deleteDirectory (malloc : Nat → Bool) : Nat → Text → Machine → Option (Nat × Machine)
  | 0, _, _ => none
  | k + 1, rootDirectory, m =>
    match concat malloc (some rootDirectory) (some "\\*.*".toList) with
    | none => some (ERROR_NOT_ENOUGH_MEMORY, m)
    | some pattern =>
      match m.findFirstFile pattern with
      | (none, m) => some (0, m)
      | (some found, m) =>
        match deleteEntries malloc (_deleteDirectory malloc k) rootDirectory found m with
        | none => none
        | some (result, m) => if result ≠ 0 then some (result, m) else some (removeRoot rootDirectory m)

def deleteDirectory (malloc : Nat → Bool) (getFullPathName : Text → Option Text) (k : Nat)
    (targetDirectory : Text) (m : Machine) : Option (Nat × Machine) :=
  match getFullPathName targetDirectory with
  | some absPath => _deleteDirectory malloc k absPath m
  | none => some (1, m)

/-- There is memory for the paths that are put together for an entry below a directory, and the name of the
entry does not begin with a dot. -/
structure Deletable (malloc : Nat → Bool) (root path : Text) (directory : Bool) : Prop where
  listed : directory = true → malloc (path.length + 5) = true
  named : ∀ dir name, '\\' ∉ name → path = child dir name → Below path root →
    name.head? ≠ some '.' ∧ malloc (dir.length + 2) = true ∧ malloc (path.length + 1) = true

/-! ## What no call can do -/

/-- Nothing is created, and outside `root` nothing is deleted. -/
structure Loses (root : Text) (v v' : Volume) : Prop where
  old : ∀ {p d}, v'.Has p d → v.Has p d
  kept : ∀ {p d}, v.Has p d → ¬ Within p root → v'.Has p d

variable {malloc : Nat → Bool} {recurse : Text → Machine → Option (Nat × Machine)} {root : Text}
  {m m' m'' : Machine} {r k : Nat} {p path name : Text} {d : Bool} {x : FindData} {found : List FindData}

theorem Loses.refl (root : Text) (v : Volume) : Loses root v v := ⟨id, fun h _ => h⟩

theorem Loses.trans {v v' v'' : Volume} (h : Loses root v v') (h' : Loses root v' v'') : Loses root v v'' :=
  ⟨fun hp => h.old (h'.old hp), fun hp hroot => h'.kept (h.kept hp hroot) hroot⟩

theorem Loses.of_child {v v' : Volume} (h : Loses (child root name) v v') : Loses root v v' :=
  ⟨h.old, fun hp hroot => h.kept hp fun hwithin => hroot (hwithin.trans_below (below_child ..)).within⟩

theorem concat_eq_some_iff {s t u : Text} :
    concat malloc (some s) (some t) = some u ↔ malloc (s.length + t.length + 1) = true ∧ u = s ++ t := by
  rw [concat, Option.ite_none_right_eq_some, Option.some.injEq, eq_comm (a := s ++ t)]

theorem concat_none_left (s : Option Text) : concat malloc none s = none := by rw [concat]; simp

/-- The path of an entry -/
theorem concat_concat_eq_some_iff {u : Text} :
    concat malloc (concat malloc (some root) (some ['\\'])) (some name) = some u ↔
      malloc (root.length + 2) = true ∧ malloc ((child root name).length + 1) = true ∧ u = child root name := by
  have hlen : (root ++ ['\\']).length + name.length + 1 = (child root name).length + 1 := by
    rw [length_child]
    simp
  have happend : root ++ ['\\'] ++ name = child root name := by simp [child]
  cases hconcat : concat malloc (some root) (some ['\\']) with
  | none =>
    rw [concat_none_left]
    have : malloc (root.length + 2) ≠ true := by
      intro h
      rw [concat_eq_some_iff.mpr ⟨h, rfl⟩] at hconcat
      cases hconcat
    simp [this]
  | some s =>
    obtain ⟨h, rfl⟩ := concat_eq_some_iff.mp hconcat
    rw [concat_eq_some_iff, hlen, happend]
    simp only [List.length_singleton] at h
    simp [h]

/-- The name does not begin with a dot, and the path of the entry is put together. -/
structure Taken (malloc : Nat → Bool) (root name : Text) : Prop where
  visible : name.head? ≠ some '.'
  separator : malloc (root.length + 2) = true
  path : malloc ((child root name).length + 1) = true

/-- What a turn of the loop does -/
inductive EntryTurn (malloc : Nat → Bool) (recurse : Text → Machine → Option (Nat × Machine)) (root : Text)
    (x : FindData) (m : Machine) : Nat → Machine → Prop
  | dot : x.cFileName.head? = some '.' → EntryTurn malloc recurse root x m 0 m
  | memory : x.cFileName.head? ≠ some '.' → ¬ Taken malloc root x.cFileName →
    EntryTurn malloc recurse root x m ERROR_NOT_ENOUGH_MEMORY m
  | directory {r : Nat} {m' : Machine} : Taken malloc root x.cFileName → x.directory = true →
    recurse (child root x.cFileName) m = some (r, m') → EntryTurn malloc recurse root x m r m'
  | file : Taken malloc root x.cFileName → x.directory = false →
    EntryTurn malloc recurse root x m (deleteFileAt (child root x.cFileName) m).1
      (deleteFileAt (child root x.cFileName) m).2

theorem deleteEntry_turn (h : deleteEntry malloc recurse root x m = some (r, m')) :
    EntryTurn malloc recurse root x m r m' := by
  rw [deleteEntry] at h
  split at h
  · next hdot =>
    obtain ⟨rfl, rfl⟩ := Prod.mk.inj (Option.some.inj h)
    exact .dot hdot
  next hdot =>
  dsimp only at h
  cases hpath : concat malloc (concat malloc (some root) (some ['\\'])) (some x.cFileName) with
  | none =>
    rw [hpath] at h
    obtain ⟨rfl, rfl⟩ := Prod.mk.inj (Option.some.inj h)
    refine .memory hdot fun htaken => ?_
    rw [concat_concat_eq_some_iff.mpr ⟨htaken.separator, htaken.path, rfl⟩] at hpath
    cases hpath
  | some path =>
    rw [hpath] at h
    obtain ⟨hseparator, hlength, rfl⟩ := concat_concat_eq_some_iff.mp hpath
    dsimp only at h
    split at h
    · next hdir => exact .directory ⟨hdot, hseparator, hlength⟩ hdir h
    · next hdir =>
      rw [Option.some.injEq] at h
      have hturn : EntryTurn malloc recurse root x m (deleteFileAt (child root x.cFileName) m).1
          (deleteFileAt (child root x.cFileName) m).2 :=
        .file ⟨hdot, hseparator, hlength⟩ (Bool.eq_false_iff.mpr hdir)
      rwa [h] at hturn

/-- A file is deleted, or nothing is. -/
theorem has_deleteFileAt : (deleteFileAt path m).2.volume.Has p d ↔
    m.volume.Has p d ∧ ¬ (((m.setFileAttributes path).2.deleteFile path).1 = true ∧ p = path) :=
  Machine.has_deleteFile.trans (and_congr_left fun _ => Machine.has_setFileAttributes)

/-- The calls behind the loop are made, and permitted. -/
structure Removes (root : Text) (m : Machine) : Prop where
  lastError : m.lastError = ERROR_NO_MORE_FILES
  cleared : (m.setFileAttributes root).1 = true
  removed : ((m.setFileAttributes root).2.removeDirectory root).1 = true

theorem Removes.removeRoot (h : Removes root m) :
    removeRoot root m = (0, ((m.setFileAttributes root).2.removeDirectory root).2) := by
  rw [Swinst.Launcher.removeRoot, if_neg (not_not.mpr h.lastError)]
  simp [h.cleared, h.removed]

theorem has_removeRoot :
    (removeRoot root m).2.volume.Has p d ↔ m.volume.Has p d ∧ ¬ (Removes root m ∧ p = root) := by
  by_cases h : Removes root m
  · rw [h.removeRoot]
    simp [Machine.has_removeDirectory, h, h.removed]
  · have hsame : ∀ {p d}, (removeRoot root m).2.volume.Has p d ↔ m.volume.Has p d := by
      intro p d
      rw [removeRoot]
      split
      · rfl
      next hlast =>
      dsimp only
      split
      · exact Machine.has_setFileAttributes
      next hcleared =>
      have hdenied : ((m.setFileAttributes root).2.removeDirectory root).1 ≠ true :=
        fun hremoved => h ⟨not_not.mp hlast, by simpa using hcleared, hremoved⟩
      split
      all_goals simp [Machine.has_removeDirectory, hdenied]
    simp [hsame, h]

theorem removes_of_empty (hlast : m.lastError = ERROR_NO_MORE_FILES) (hroot : m.volume.Has root true)
    (hempty : ∀ p d, m.volume.Has p d → ¬ Below p root) : Removes root m := by
  refine ⟨hlast, Machine.setFileAttributes_permitted hroot, Machine.removeDirectory_permitted_iff.mpr
    ⟨Machine.has_setFileAttributes.mpr hroot, fun e he => ?_⟩⟩
  exact hempty e.path _ (Machine.has_setFileAttributes.mp ⟨e, he, rfl, rfl⟩)

theorem deleteEntry_loses
    (hrecurse : ∀ {p m r m'}, recurse p m = some (r, m') → Loses p m.volume m'.volume)
    (h : deleteEntry malloc recurse root x m = some (r, m')) : Loses root m.volume m'.volume := by
  cases deleteEntry_turn h with
  | dot => exact .refl ..
  | memory => exact .refl ..
  | directory _ _ h => exact (hrecurse h).of_child
  | file =>
    have hfile : Loses (child root x.cFileName) m.volume (deleteFileAt (child root x.cFileName) m).2.volume := by
      refine ⟨fun hp => (has_deleteFileAt.mp hp).1, fun hp hwithin => ?_⟩
      exact has_deleteFileAt.mpr ⟨hp, fun hpath => hwithin (.inl hpath.2)⟩
    exact hfile.of_child

theorem deleteEntries_cons_ok (h : deleteEntries malloc recurse root (x :: found) m = some (r, m')) :
    (r ≠ 0 ∧ deleteEntry malloc recurse root x m = some (r, m')) ∨
      ∃ m₁, deleteEntry malloc recurse root x m = some (0, m₁) ∧
        deleteEntries malloc recurse root found m₁ = some (r, m') := by
  rw [deleteEntries] at h
  cases hentry : deleteEntry malloc recurse root x m with
  | none => simp [hentry] at h
  | some t =>
    obtain ⟨r₁, m₁⟩ := t
    simp only [hentry] at h
    split at h
    · next hne =>
      obtain ⟨rfl, rfl⟩ := Prod.mk.inj (Option.some.inj h)
      exact .inl ⟨hne, rfl⟩
    · next heq =>
      obtain rfl := not_not.mp heq
      exact .inr ⟨m₁, rfl, h⟩

theorem deleteEntries_loses
    (hrecurse : ∀ {p m r m'}, recurse p m = some (r, m') → Loses p m.volume m'.volume)
    (h : deleteEntries malloc recurse root found m = some (r, m')) : Loses root m.volume m'.volume := by
  induction found generalizing m with
  | nil =>
    obtain ⟨-, rfl⟩ := Prod.mk.inj (Option.some.inj h)
    exact .refl ..
  | cons x found ih =>
    rcases deleteEntries_cons_ok h with ⟨-, h⟩ | ⟨m₁, h₁, h⟩
    · exact deleteEntry_loses hrecurse h
    · exact (deleteEntry_loses hrecurse h₁).trans (ih h)

/-- What `_delete_directory` does -/
inductive RootTurn (malloc : Nat → Bool) (recurse : Text → Machine → Option (Nat × Machine)) (root : Text)
    (m : Machine) : Nat → Machine → Prop
  | memory : malloc (root.length + 5) = false → RootTurn malloc recurse root m ERROR_NOT_ENOUGH_MEMORY m
  | missing : malloc (root.length + 5) = true → ¬ m.volume.Has root true →
    RootTurn malloc recurse root m 0 { m with lastError := ERROR_PATH_NOT_FOUND }
  | failed {r : Nat} {m' : Machine} : malloc (root.length + 5) = true → m.volume.Has root true →
    deleteEntries malloc recurse root (m.volume.listed root) m = some (r, m') → r ≠ 0 →
    RootTurn malloc recurse root m r m'
  | emptied {m' : Machine} : malloc (root.length + 5) = true → m.volume.Has root true →
    deleteEntries malloc recurse root (m.volume.listed root) m = some (0, m') →
    RootTurn malloc recurse root m (removeRoot root m').1 (removeRoot root m').2

/-- The two entries in front of the list are passed over. -/
theorem deleteEntries_list (v : Volume) : deleteEntries malloc recurse root (v.list root) m =
    deleteEntries malloc recurse root (v.listed root) m := rfl

theorem _deleteDirectory_turn (h : _deleteDirectory malloc (k + 1) root m = some (r, m')) :
    RootTurn malloc (_deleteDirectory malloc k) root m r m' := by
  rw [_deleteDirectory] at h
  cases hpattern : concat malloc (some root) (some "\\*.*".toList) with
  | none =>
    rw [hpattern] at h
    obtain ⟨rfl, rfl⟩ := Prod.mk.inj (Option.some.inj h)
    refine .memory (Bool.eq_false_iff.mpr fun hmalloc => ?_)
    rw [concat_eq_some_iff.mpr ⟨hmalloc, rfl⟩] at hpattern
    cases hpattern
  | some pattern =>
    obtain ⟨hmalloc, rfl⟩ := concat_eq_some_iff.mp hpattern
    simp only [hpattern, Machine.findFirstFile_eq] at h
    by_cases hroot : m.volume.Has root true
    · rw [if_pos hroot] at h
      dsimp only at h
      rw [deleteEntries_list] at h
      cases hentries : deleteEntries malloc (_deleteDirectory malloc k) root (m.volume.listed root) m with
      | none => simp [hentries] at h
      | some t =>
        obtain ⟨r₁, m₁⟩ := t
        rw [hentries] at h
        dsimp only at h
        split at h
        · next hne =>
          obtain ⟨rfl, rfl⟩ := Prod.mk.inj (Option.some.inj h)
          exact .failed hmalloc hroot hentries hne
        · next heq =>
          obtain rfl := not_not.mp heq
          rw [Option.some.injEq] at h
          have hturn := RootTurn.emptied hmalloc hroot hentries
          rwa [h] at hturn
    · rw [if_neg hroot] at h
      obtain ⟨rfl, rfl⟩ := Prod.mk.inj (Option.some.inj h)
      exact .missing hmalloc hroot

theorem _deleteDirectory_loses (h : _deleteDirectory malloc k root m = some (r, m')) :
    Loses root m.volume m'.volume := by
  induction k generalizing root m r m' with
  | zero => cases h
  | succ k ih =>
    cases _deleteDirectory_turn h with
    | memory => exact .refl ..
    | missing => exact .refl ..
    | failed _ _ hentries => exact deleteEntries_loses ih hentries
    | emptied _ _ hentries =>
      refine (deleteEntries_loses ih hentries).trans ⟨fun hp => (has_removeRoot.mp hp).1, fun hp hwithin => ?_⟩
      exact has_removeRoot.mpr ⟨hp, fun hpath => hwithin (.inl hpath.2)⟩

/-! ## What remains -/

theorem Deletable.of_within {directory : Bool} (htaken : Taken malloc root name) (hname : '\\' ∉ name)
    (hwithin : Within p (child root name)) (h : Deletable malloc (child root name) p directory) :
    Deletable malloc root p directory := by
  refine ⟨h.listed, fun dir name' hname' hpath _ => ?_⟩
  rcases hwithin with rfl | hbelow
  · obtain ⟨rfl, rfl⟩ := child_inj hname hname' hpath
    exact ⟨htaken.visible, htaken.separator, htaken.path⟩
  · exact h.named dir name' hname' hpath hbelow

/-- Entries that are not deletable remain. -/
def Keeps (malloc : Nat → Bool) (recurse : Text → Machine → Option (Nat × Machine)) : Prop :=
  ∀ {root m r m' p d}, recurse root m = some (r, m') → m.volume.Has p d → Within p root →
    ¬ Deletable malloc root p d → m'.volume.Has p d

theorem deleteEntry_keeps
    (hloses : ∀ {p m r m'}, recurse p m = some (r, m') → Loses p m.volume m'.volume)
    (hrecurse : Keeps malloc recurse)
    (hx : '\\' ∉ x.cFileName) (hp : m.volume.Has p d) (hdeletable : ¬ Deletable malloc root p d)
    (h : deleteEntry malloc recurse root x m = some (r, m')) : m'.volume.Has p d := by
  cases deleteEntry_turn h with
  | dot => exact hp
  | memory => exact hp
  | directory htaken _ h =>
    by_cases hwithin : Within p (child root x.cFileName)
    · exact hrecurse h hp hwithin fun hd => hdeletable (hd.of_within htaken hx hwithin)
    · exact (hloses h).kept hp hwithin
  | file htaken _ =>
    refine has_deleteFileAt.mpr ⟨hp, ?_⟩
    rintro ⟨hdeleted, rfl⟩
    obtain rfl := hp.unique (Machine.has_setFileAttributes.mp (Machine.file_of_deleteFile hdeleted))
    have hd : Deletable malloc (child root x.cFileName) (child root x.cFileName) false :=
      ⟨fun h => absurd h Bool.false_ne_true, fun _ _ _ _ hbelow => (not_below_self hbelow).elim⟩
    exact hdeletable (hd.of_within htaken hx (.inl rfl))

theorem deleteEntries_keeps
    (hloses : ∀ {p m r m'}, recurse p m = some (r, m') → Loses p m.volume m'.volume)
    (hrecurse : Keeps malloc recurse)
    (hfound : ∀ x ∈ found, '\\' ∉ x.cFileName) (hp : m.volume.Has p d) (hdeletable : ¬ Deletable malloc root p d)
    (h : deleteEntries malloc recurse root found m = some (r, m')) : m'.volume.Has p d := by
  induction found generalizing m with
  | nil =>
    obtain ⟨-, rfl⟩ := Prod.mk.inj (Option.some.inj h)
    exact hp
  | cons x found ih =>
    rw [List.forall_mem_cons] at hfound
    rcases deleteEntries_cons_ok h with ⟨-, h⟩ | ⟨m₁, h₁, h⟩
    · exact deleteEntry_keeps hloses hrecurse hfound.1 hp hdeletable h
    · exact ih hfound.2 (deleteEntry_keeps hloses hrecurse hfound.1 hp hdeletable h₁) h

theorem _deleteDirectory_keeps (k : Nat) : Keeps malloc (_deleteDirectory malloc k) := by
  induction k with
  | zero => intro root m r m' p d h; cases h
  | succ k ih =>
    intro root m r m' p d h hp _ hdeletable
    have hfound : ∀ x ∈ m.volume.listed root, '\\' ∉ x.cFileName := fun x hx => (Volume.mem_listed.mp hx).1
    cases _deleteDirectory_turn h with
    | memory => exact hp
    | missing => exact hp
    | failed _ _ hentries => exact deleteEntries_keeps _deleteDirectory_loses ih hfound hp hdeletable hentries
    | emptied hmalloc _ hentries =>
      have hp' := deleteEntries_keeps _deleteDirectory_loses ih hfound hp hdeletable hentries
      refine has_removeRoot.mpr ⟨hp', fun ⟨hremoves, hpath⟩ => ?_⟩
      -- the root itself would be deletable
      subst hpath
      exact hdeletable ⟨fun _ => hmalloc, fun _ _ _ _ hbelow => (not_below_self hbelow).elim⟩

/-! ## What is deleted -/

theorem deleteFileAt_permitted (h : m.volume.Has path false) : (deleteFileAt path m).1 = 0 ∧
    ∀ {p d}, (deleteFileAt path m).2.volume.Has p d ↔ m.volume.Has p d ∧ p ≠ path := by
  have hdeleted := Machine.deleteFile_permitted h
  constructor
  · rw [deleteFileAt]
    simp [hdeleted, Machine.setFileAttributes_permitted h]
  · intro p d
    simp [has_deleteFileAt, hdeleted]

theorem taken_of_deletable {directory : Bool} (hname : '\\' ∉ name)
    (h : Deletable malloc root (child root name) directory) : Taken malloc root name := by
  obtain ⟨hvisible, hseparator, hpath⟩ := h.named root name hname rfl (below_child ..)
  exact ⟨hvisible, hseparator, hpath⟩

theorem Deletable.child {directory : Bool} (h : Deletable malloc root p directory) :
    Deletable malloc (child root name) p directory :=
  ⟨h.listed, fun dir name' hname' hpath hbelow => h.named dir name' hname' hpath (hbelow.trans (below_child ..))⟩

/-- What `_delete_directory` comes to where all is deletable -/
def Deletes (malloc : Nat → Bool) (recurse : Text → Machine → Option (Nat × Machine)) : Prop :=
  ∀ {root m r m'}, recurse root m = some (r, m') → m.volume.Has root true →
    (∀ p d, m.volume.Has p d → Within p root → Deletable malloc root p d) →
    r = 0 ∧ ∀ {p d}, m'.volume.Has p d ↔ m.volume.Has p d ∧ ¬ Within p root

theorem deleteEntry_deletes (hrecurse : Deletes malloc recurse) (hx : '\\' ∉ x.cFileName)
    (hhas : m.volume.Has (child root x.cFileName) x.directory)
    (hdeletable : ∀ p d, m.volume.Has p d → Below p root → Deletable malloc root p d)
    (h : deleteEntry malloc recurse root x m = some (r, m')) :
    r = 0 ∧ ∀ {p d}, m'.volume.Has p d ↔ m.volume.Has p d ∧ ¬ Within p (child root x.cFileName) := by
  have htaken := taken_of_deletable hx (hdeletable _ _ hhas (below_child ..))
  cases deleteEntry_turn h with
  | dot hdot => exact (htaken.visible hdot).elim
  | memory _ hnot => exact (hnot htaken).elim
  | directory _ hdir h =>
    rw [hdir] at hhas
    exact hrecurse h hhas fun p d hp hwithin =>
      (hdeletable p d hp (hwithin.trans_below (below_child ..))).child
  | file _ hdir =>
    rw [hdir] at hhas
    obtain ⟨hresult, hrest⟩ := deleteFileAt_permitted hhas
    refine ⟨hresult, hrest.trans (and_congr_right fun hp => ?_)⟩
    simp [Within, hp.not_below_file hhas]

theorem deleteEntries_deletes (hrecurse : Deletes malloc recurse)
    (hnodup : (found.map (·.cFileName)).Nodup)
    (hfound : ∀ x ∈ found, '\\' ∉ x.cFileName ∧ m.volume.Has (child root x.cFileName) x.directory)
    (hdeletable : ∀ p d, m.volume.Has p d → Below p root → Deletable malloc root p d)
    (h : deleteEntries malloc recurse root found m = some (r, m')) :
    r = 0 ∧ m'.lastError = ERROR_NO_MORE_FILES ∧
      ∀ {p d}, m'.volume.Has p d ↔ m.volume.Has p d ∧ ∀ x ∈ found, ¬ Within p (child root x.cFileName) := by
  induction found generalizing m with
  | nil =>
    obtain ⟨rfl, rfl⟩ := Prod.mk.inj (Option.some.inj h)
    exact ⟨rfl, rfl, by simp⟩
  | cons x found ih =>
    rw [List.forall_mem_cons] at hfound
    obtain ⟨⟨hx, hhas⟩, hfound⟩ := hfound
    rw [List.map_cons, List.nodup_cons] at hnodup
    rcases deleteEntries_cons_ok h with ⟨hne, h⟩ | ⟨m₁, h₁, h⟩
    · exact (hne (deleteEntry_deletes hrecurse hx hhas hdeletable h).1).elim
    obtain ⟨-, hrest⟩ := deleteEntry_deletes hrecurse hx hhas hdeletable h₁
    have hfound₁ : ∀ y ∈ found, '\\' ∉ y.cFileName ∧ m₁.volume.Has (child root y.cFileName) y.directory := by
      intro y hy
      obtain ⟨hname, hyhas⟩ := hfound y hy
      refine ⟨hname, hrest.mpr ⟨hyhas, fun hwithin => hnodup.1 ?_⟩⟩
      rw [eq_of_within_child hx hname hwithin (.inl rfl)]
      exact List.mem_map_of_mem hy
    obtain ⟨hresult, hlast, hall⟩ := ih hnodup.2 hfound₁
      (fun p d hp hbelow => hdeletable p d (hrest.mp hp).1 hbelow) h
    refine ⟨hresult, hlast, fun {p d} => ?_⟩
    rw [hall, hrest, List.forall_mem_cons, and_assoc]

/-- A directory with nothing but deletable entries is deleted, and nothing else. -/
theorem _deleteDirectory_deletes (k : Nat) : Deletes malloc (_deleteDirectory malloc k) := by
  induction k with
  | zero => intro root m r m' h; cases h
  | succ k ih =>
    intro root m r m' h hroot hdeletable
    have hmalloc := (hdeletable root true hroot (.inl rfl)).listed rfl
    have hfound : ∀ x ∈ m.volume.listed root,
        '\\' ∉ x.cFileName ∧ m.volume.Has (child root x.cFileName) x.directory :=
      fun x hx => Volume.mem_listed.mp hx
    have hbelow : ∀ p d, m.volume.Has p d → Below p root → Deletable malloc root p d :=
      fun p d hp hbelow => hdeletable p d hp hbelow.within
    have hentries {r₁ m₁}
        (hdone : deleteEntries malloc (_deleteDirectory malloc k) root (m.volume.listed root) m = some (r₁, m₁)) :=
      deleteEntries_deletes ih (m.volume.nodup_listed root) hfound hbelow hdone
    cases _deleteDirectory_turn h with
    | memory hno => exact (Bool.false_ne_true (hno.symm.trans hmalloc)).elim
    | missing _ hno => exact (hno hroot).elim
    | failed _ _ hdone hne => exact (hne (hentries hdone).1).elim
    | @emptied m₁ _ _ hdone =>
      obtain ⟨-, hlast, hrest⟩ := hentries hdone
      -- what was below the root was within an entry of the list
      have hempty : ∀ p d, m₁.volume.Has p d → ¬ Below p root := by
        intro p d hp hbelow
        obtain ⟨hp, hgone⟩ := hrest.mp hp
        obtain ⟨name, d', hname, hhas, hwithin⟩ := hp.within_child hbelow hroot.mem_path
        exact hgone ⟨name, d'⟩ (Volume.mem_listed.mpr ⟨hname.2.1, hhas⟩) hwithin
      have hroot₁ : m₁.volume.Has root true := by
        refine hrest.mpr ⟨hroot, fun x _ hwithin => ?_⟩
        exact not_below_self (hwithin.trans_below (below_child ..))
      have hremoves := removes_of_empty hlast hroot₁ hempty
      refine ⟨by rw [hremoves.removeRoot], fun {p d} => ?_⟩
      rw [has_removeRoot]
      constructor
      · rintro ⟨hp, hpath⟩
        refine ⟨(hrest.mp hp).1, ?_⟩
        rintro (heq | hbelow)
        · exact hpath ⟨hremoves, heq⟩
        · exact hempty p d hp hbelow
      · rintro ⟨hp, hnot⟩
        refine ⟨hrest.mpr ⟨hp, fun x _ hwithin => ?_⟩, fun hpath => hnot (.inl hpath.2)⟩
        exact hnot (hwithin.trans_below (below_child ..)).within

/-! ## Every directory is left -/

theorem deleteEntry_isSome (h : (recurse (child root x.cFileName) m).isSome) :
    (deleteEntry malloc recurse root x m).isSome := by
  rw [deleteEntry]
  split
  · rfl
  dsimp only
  cases hpath : concat malloc (concat malloc (some root) (some ['\\'])) (some x.cFileName) with
  | none => rfl
  | some path =>
    obtain ⟨-, -, rfl⟩ := concat_concat_eq_some_iff.mp hpath
    dsimp only
    split
    · exact h
    · rfl

theorem deleteEntries_isSome
    (hloses : ∀ {p m r m'}, recurse p m = some (r, m') → Loses p m.volume m'.volume)
    (hfound : ∀ x ∈ found, ∀ m', Loses root m.volume m'.volume →
      (recurse (child root x.cFileName) m').isSome) :
    (deleteEntries malloc recurse root found m).isSome := by
  induction found generalizing m with
  | nil => rfl
  | cons x found ih =>
    rw [List.forall_mem_cons] at hfound
    obtain ⟨hx, hfound⟩ := hfound
    rw [deleteEntries]
    cases hentry : deleteEntry malloc recurse root x m with
    | none =>
      have hsome : (deleteEntry malloc recurse root x m).isSome := deleteEntry_isSome (hx m (.refl ..))
      rw [hentry] at hsome
      cases hsome
    | some t =>
      obtain ⟨r, m₁⟩ := t
      dsimp only
      split
      · rfl
      · exact ih fun y hy m' hm' => hfound y hy m' ((deleteEntry_loses hloses hentry).trans hm')

/-- With more turns than the longest path is long, the recursion ends. -/
theorem _deleteDirectory_isSome (hk : 0 < k) (hlength : ∀ p d, m.volume.Has p d → p.length < root.length + k) :
    (_deleteDirectory malloc k root m).isSome := by
  induction k generalizing root m with
  | zero => exact (Nat.lt_irrefl 0 hk).elim
  | succ k ih =>
    rw [_deleteDirectory]
    cases hpattern : concat malloc (some root) (some "\\*.*".toList) with
    | none => rfl
    | some pattern =>
      obtain ⟨-, rfl⟩ := concat_eq_some_iff.mp hpattern
      simp only [Machine.findFirstFile_eq]
      by_cases hroot : m.volume.Has root true
      · rw [if_pos hroot]
        dsimp only
        rw [deleteEntries_list]
        have hentries : (deleteEntries malloc (_deleteDirectory malloc k) root (m.volume.listed root) m).isSome := by
          refine deleteEntries_isSome _deleteDirectory_loses fun x hx m' hloses => ?_
          have hx := hlength _ _ (Volume.mem_listed.mp hx).2
          rw [length_child] at hx
          refine ih (by omega) fun p d hp => ?_
          have := hlength p d (hloses.old hp)
          rw [length_child]
          omega
        obtain ⟨⟨r, m'⟩, hentries⟩ := Option.isSome_iff_exists.mp hentries
        rw [hentries]
        dsimp only
        split <;> rfl
      · rw [if_neg hroot]
        rfl

/-! ## The whole directory -/

/-- Where the path of the directory is found out, `delete_directory` ends. It returns 0 with the whole directory
gone if and only if there is memory for the paths of all entries, and none below the directory has a name that
begins with a dot. -/
theorem deleteDirectory_gone_iff (malloc : Nat → Bool) (getFullPathName : Text → Option Text)
    (targetDirectory root : Text) (m : Machine) (k : Nat) (hfull : getFullPathName targetDirectory = some root)
    (hroot : ∃ e ∈ m.volume.entries, e.path = root ∧ e.attributes.directory = true)
    (hk : ∀ e ∈ m.volume.entries, e.path.length < k) :
    ∃ result m', deleteDirectory malloc getFullPathName k targetDirectory m = some (result, m') ∧
      ((result = 0 ∧ ∀ e ∈ m'.volume.entries, ¬ Within e.path root) ↔
        ∀ e ∈ m.volume.entries, Within e.path root → Deletable malloc root e.path e.attributes.directory) := by
  have hsome : (_deleteDirectory malloc k root m).isSome := by
    obtain ⟨e, he, -⟩ := hroot
    refine _deleteDirectory_isSome (Nat.zero_lt_of_lt (hk e he)) ?_
    rintro _ _ ⟨e, he, rfl, -⟩
    exact (hk e he).trans_le (Nat.le_add_left ..)
  obtain ⟨⟨result, m'⟩, hrun⟩ := Option.isSome_iff_exists.mp hsome
  refine ⟨result, m', by rw [deleteDirectory, hfull]; exact hrun, ?_, ?_⟩
  · rintro ⟨-, hgone⟩ e he hwithin
    by_contra hdeletable
    obtain ⟨e', he', hpath, -⟩ := _deleteDirectory_keeps k hrun ⟨e, he, rfl, rfl⟩ hwithin hdeletable
    exact hgone e' he' (hpath ▸ hwithin)
  · intro hdeletable
    obtain ⟨hresult, hrest⟩ := _deleteDirectory_deletes k hrun hroot (by
      rintro _ _ ⟨e, he, rfl, rfl⟩ hwithin
      exact hdeletable e he hwithin)
    exact ⟨hresult, fun e he => (hrest.mp ⟨e, he, rfl, rfl⟩).2⟩

/-- `C:\t` with the directory `C:\t\a`, of two files, and a hidden file that is read-only, beside
`C:\u` -/
private def nested : Machine where
  volume :=
    { entries := [⟨"C:\\t".toList, ⟨true, false, false, false⟩⟩,
        ⟨"C:\\t\\a".toList, ⟨true, true, false, false⟩⟩,
        ⟨"C:\\t\\a\\b.txt".toList, ⟨false, false, false, true⟩⟩,
        ⟨"C:\\t\\a\\c".toList, ⟨false, false, false, false⟩⟩,
        ⟨"C:\\t\\d".toList, ⟨false, true, true, false⟩⟩,
        ⟨"C:\\u".toList, ⟨false, false, false, false⟩⟩]
      nodup := by decide
      located := by
        simp only [List.forall_mem_cons, List.not_mem_nil, false_implies, implies_true, and_true]
        refine ⟨⟨"C:".toList, "t".toList, rfl, by decide, .inl (by decide)⟩,
          ⟨"C:\\t".toList, "a".toList, rfl, by decide, .inr (by decide)⟩,
          ⟨"C:\\t\\a".toList, "b.txt".toList, rfl, by decide, .inr (by decide)⟩,
          ⟨"C:\\t\\a".toList, "c".toList, rfl, by decide, .inr (by decide)⟩,
          ⟨"C:\\t".toList, "d".toList, rfl, by decide, .inr (by decide)⟩,
          ⟨"C:".toList, "u".toList, rfl, by decide, .inl (by decide)⟩⟩ }
  lastError := 0

theorem deleteDirectory_nested : ∃ result m',
    deleteDirectory (fun _ => true) some 13 "C:\\t".toList nested = some (result, m') ∧
      ((result = 0 ∧ ∀ e ∈ m'.volume.entries, ¬ Within e.path "C:\\t".toList) ↔
        ∀ e ∈ nested.volume.entries, Within e.path "C:\\t".toList →
          Deletable (fun _ => true) "C:\\t".toList e.path e.attributes.directory) :=
  deleteDirectory_gone_iff (fun _ => true) some "C:\\t".toList "C:\\t".toList nested 13 rfl
    ⟨_, List.mem_cons_self, rfl, rfl⟩ (by decide)

/-- A directory with one entry, a hidden file that is read-only and has a dot in front -/
private def dotFile : Machine where
  volume :=
    { entries := [⟨"C:\\t".toList, ⟨true, false, false, false⟩⟩,
        ⟨"C:\\t\\.a".toList, ⟨false, true, true, false⟩⟩]
      nodup := by decide
      located := by
        rw [List.forall_mem_cons, List.forall_mem_singleton]
        exact ⟨⟨"C:".toList, "t".toList, rfl, by decide, .inl (by decide)⟩,
          ⟨"C:\\t".toList, ".a".toList, rfl, by decide, .inr (by decide)⟩⟩ }
  lastError := 0

/-- A file with a dot in front remains, and so does the directory. -/
theorem dot_file_remains : (deleteDirectory (fun _ => true) some 9 "C:\\t".toList dotFile).map
    (fun r => (r.1, r.2.volume.entries.map (·.path))) =
      some (ERROR_DIR_NOT_EMPTY, ["C:\\t".toList, "C:\\t\\.a".toList]) := by
  decide +kernel

end Swinst.Launcher
