import Mathlib.Data.List.Nodup
import Swinst.Data.Paths

/-! The file system of Windows, as far as `deletedir.c` uses it: what is called succeeds where it is
permitted. -/

namespace Swinst.Launcher

open Paths

structure Attributes where
  directory : Bool
  readOnly : Bool
  hidden : Bool
  system : Bool
  deriving DecidableEq

structure Entry where
  path : Text
  attributes : Attributes
  deriving DecidableEq

/-- The name of a file or a directory, for which `.` and `..` cannot stand -/
def IsName (name : Text) : Prop := name ≠ [] ∧ '\\' ∉ name ∧ name ≠ ['.'] ∧ name ≠ ['.', '.']

instance (name : Text) : Decidable (IsName name) := inferInstanceAs (Decidable (_ ∧ _))

/-- The entries of all drives. Each has a path of its own, by a name in a drive or in a directory. -/
structure Volume where
  entries : List Entry
  nodup : (entries.map (·.path)).Nodup
  located : ∀ e ∈ entries, ∃ dir name, e.path = child dir name ∧ IsName name ∧
    ('\\' ∉ dir ∨ ∃ d ∈ entries, d.path = dir ∧ d.attributes.directory = true)

/-- The file system, and the error of the last call that failed -/
structure Machine where
  volume : Volume
  lastError : Nat

def ERROR_FILE_NOT_FOUND : Nat := 2
def ERROR_PATH_NOT_FOUND : Nat := 3
def ERROR_ACCESS_DENIED : Nat := 5
def ERROR_NOT_ENOUGH_MEMORY : Nat := 8
def ERROR_NO_MORE_FILES : Nat := 18
def ERROR_DIR_NOT_EMPTY : Nat := 145
def ERROR_DIRECTORY : Nat := 267

/-- There is a directory, or else a file, with this path. -/
def Volume.Has (v : Volume) (path : Text) (directory : Bool) : Prop :=
  ∃ e ∈ v.entries, e.path = path ∧ e.attributes.directory = directory

instance (v : Volume) (path : Text) (directory : Bool) : Decidable (v.Has path directory) :=
  inferInstanceAs (Decidable (∃ e ∈ _, _))

variable {v : Volume} {p q dir name : Text} {d d' : Bool}

theorem Volume.eq_of_path {e e' : Entry} (he : e ∈ v.entries) (he' : e' ∈ v.entries)
    (h : e.path = e'.path) : e = e' := List.inj_on_of_nodup_map v.nodup he he' h

theorem Volume.Has.unique (h : v.Has p d) (h' : v.Has p d') : d = d' := by
  obtain ⟨e, he, hp, rfl⟩ := h
  obtain ⟨e', he', hp', rfl⟩ := h'
  rw [v.eq_of_path he he' (hp.trans hp'.symm)]

/-- Where a directory is below another, so is its entry. -/
theorem Volume.Has.parent (h : v.Has p d) (hbelow : Below p q) (hq : '\\' ∈ q) :
    ∃ dir name, p = child dir name ∧ IsName name ∧ Within dir q ∧ v.Has dir true := by
  obtain ⟨e, he, rfl, -⟩ := h
  obtain ⟨dir, name, hpath, hname, hdir⟩ := v.located e he
  rw [hpath] at hbelow
  have hwithin := within_of_below_child hname.2.1 hbelow
  refine ⟨dir, name, hpath, hname, hwithin, hdir.resolve_left fun hno => hno ?_⟩
  rcases hwithin with rfl | hbelow
  · exact hq
  · exact hbelow.subset (List.mem_append_left _ hq)

/-- Below a directory everything lies within one of its entries. -/
theorem Volume.Has.within_child (h : v.Has p d) (hbelow : Below p q) (hq : '\\' ∈ q) :
    ∃ name d', IsName name ∧ v.Has (child q name) d' ∧ Within p (child q name) := by
  induction hn : p.length using Nat.strong_induction_on generalizing p d with
  | _ n ih =>
    obtain ⟨dir, name, rfl, hname, hwithin, hdir⟩ := h.parent hbelow hq
    rcases hwithin with rfl | hbelow'
    · exact ⟨name, d, hname, h, .inl rfl⟩
    · obtain ⟨name', d', hname', hhas, hwithin⟩ :=
        ih dir.length (by rw [← hn, length_child]; omega) hdir hbelow' rfl
      exact ⟨name', d', hname', hhas, .inr ((below_child dir name).trans_within hwithin)⟩

theorem Volume.Has.mem_path (h : v.Has p d) : '\\' ∈ p := by
  obtain ⟨e, he, rfl, -⟩ := h
  obtain ⟨dir, name, hpath, -⟩ := v.located e he
  simp [hpath, child]

/-- Nothing lies below a file. -/
theorem Volume.Has.not_below_file (h : v.Has p d) (hq : v.Has q false) : ¬ Below p q := by
  intro hbelow
  obtain ⟨name, d', hname, hentry, -⟩ := h.within_child hbelow hq.mem_path
  -- the directory of this entry would be the file
  obtain ⟨dir, name', hpath, hname', -, hdir⟩ := hentry.parent (below_child q name) hq.mem_path
  obtain ⟨rfl, -⟩ := child_inj hname.2.1 hname'.2.1 hpath
  exact Bool.false_ne_true (hq.unique hdir)

/-! ## The calls -/

/-- With `FILE_ATTRIBUTE_NORMAL` -/
def Entry.normal (e : Entry) : Entry := ⟨e.path, ⟨e.attributes.directory, false, false, false⟩⟩

def Entry.setNormal (path : Text) (e : Entry) : Entry := if e.path = path then e.normal else e

@[simp] theorem Entry.path_setNormal (path : Text) (e : Entry) : (e.setNormal path).path = e.path := by
  rw [Entry.setNormal]
  split <;> rfl

@[simp] theorem Entry.directory_setNormal (path : Text) (e : Entry) :
    (e.setNormal path).attributes.directory = e.attributes.directory := by
  rw [Entry.setNormal]
  split <;> rfl

def Volume.setNormal (v : Volume) (path : Text) : Volume where
  entries := v.entries.map (Entry.setNormal path)
  nodup := by
    have hpaths : (v.entries.map (Entry.setNormal path)).map (·.path) = v.entries.map (·.path) := by
      simp [Function.comp_def]
    exact hpaths ▸ v.nodup
  located := by
    rw [List.forall_mem_map]
    intro e he
    obtain ⟨dir, name, hpath, hname, hdir⟩ := v.located e he
    refine ⟨dir, name, by rw [Entry.path_setNormal, hpath], hname, hdir.imp_right ?_⟩
    rintro ⟨d, hd, hdpath, hddir⟩
    exact ⟨_, List.mem_map_of_mem hd, by rw [Entry.path_setNormal, hdpath],
      by rw [Entry.directory_setNormal, hddir]⟩

/-- Without the entry of a path below which there are none -/
def Volume.remove (v : Volume) (path : Text) (h : ∀ e ∈ v.entries, ¬ Below e.path path) : Volume where
  entries := v.entries.filter (·.path ≠ path)
  nodup := v.nodup.sublist (List.filter_sublist.map _)
  located := by
    intro e he
    have he' := List.mem_of_mem_filter he
    obtain ⟨dir, name, hpath, hname, hdir⟩ := v.located e he'
    refine ⟨dir, name, hpath, hname, hdir.imp_right ?_⟩
    rintro ⟨d, hd, rfl, hddir⟩
    refine ⟨d, List.mem_filter.mpr ⟨hd, decide_eq_true fun hd' => h e he' ?_⟩, rfl, hddir⟩
    rw [hpath, hd']
    exact below_child ..

/-- `SetFileAttributes` with `FILE_ATTRIBUTE_NORMAL` -/
def Machine.setFileAttributes (m : Machine) (path : Text) : Bool × Machine :=
  if m.volume.entries.any (·.path = path) then (true, { m with volume := m.volume.setNormal path })
  else (false, { m with lastError := ERROR_FILE_NOT_FOUND })

/-- `DeleteFile`, which is permitted for files that are not read-only -/
def Machine.deleteFile (m : Machine) (path : Text) : Bool × Machine :=
  if h : m.volume.Has path false then
    if m.volume.entries.any fun e => e.path = path ∧ e.attributes.readOnly then
      (false, { m with lastError := ERROR_ACCESS_DENIED })
    else
      (true, { m with volume := m.volume.remove path fun e he => Volume.Has.not_below_file ⟨e, he, rfl, rfl⟩ h })
  else if m.volume.Has path true then (false, { m with lastError := ERROR_ACCESS_DENIED })
  else (false, { m with lastError := ERROR_FILE_NOT_FOUND })

/-- `RemoveDirectory`, which is permitted for empty directories -/
def Machine.removeDirectory (m : Machine) (path : Text) : Bool × Machine :=
  if m.volume.Has path true then
    if h : ∀ e ∈ m.volume.entries, ¬ Below e.path path then
      (true, { m with volume := m.volume.remove path h })
    else (false, { m with lastError := ERROR_DIR_NOT_EMPTY })
  else if m.volume.Has path false then (false, { m with lastError := ERROR_DIRECTORY })
  else (false, { m with lastError := ERROR_FILE_NOT_FOUND })

/-- `WIN32_FIND_DATA`: `cFileName`, and whether `dwFileAttributes` has `FILE_ATTRIBUTE_DIRECTORY` -/
structure FindData where
  cFileName : Text
  directory : Bool

def Volume.listed (v : Volume) (dir : Text) : List FindData :=
  v.entries.filterMap fun e => (nameIn dir e.path).map (⟨·, e.attributes.directory⟩)

/-- The entries of a directory, behind the two that name it and its own directory -/
def Volume.list (v : Volume) (dir : Text) : List FindData :=
  ⟨['.'], true⟩ :: ⟨['.', '.'], true⟩ :: v.listed dir

/-- `FindFirstFile` with what the calls of `FindNextFile` give for its handle. The pattern is a directory
with all its entries. -/
def Machine.findFirstFile (m : Machine) (pattern : Text) : Option (List FindData) × Machine :=
  let dir := pattern.take (pattern.length - 4)
  if pattern = dir ++ "\\*.*".toList ∧ m.volume.Has dir true then (some (m.volume.list dir), m)
  else (none, { m with lastError := ERROR_PATH_NOT_FOUND })

/-! ## What the calls do -/

@[simp] theorem Volume.has_setNormal {path : Text} : (v.setNormal path).Has p d ↔ v.Has p d := by
  simp [Volume.Has, Volume.setNormal]

@[simp] theorem Volume.has_remove {path : Text} (h : ∀ e ∈ v.entries, ¬ Below e.path path) :
    (v.remove path h).Has p d ↔ v.Has p d ∧ p ≠ path := by
  constructor
  · rintro ⟨e, he, rfl, rfl⟩
    obtain ⟨he, hpath⟩ := List.mem_filter.mp he
    exact ⟨⟨e, he, rfl, rfl⟩, of_decide_eq_true hpath⟩
  · rintro ⟨⟨e, he, rfl, rfl⟩, hpath⟩
    exact ⟨e, List.mem_filter.mpr ⟨he, decide_eq_true hpath⟩, rfl, rfl⟩

variable {m : Machine} {path pattern : Text}

@[simp] theorem Machine.has_setFileAttributes :
    (m.setFileAttributes path).2.volume.Has p d ↔ m.volume.Has p d := by
  rw [Machine.setFileAttributes]
  split
  · exact Volume.has_setNormal
  · rfl

theorem Machine.setFileAttributes_permitted (h : m.volume.Has path d) :
    (m.setFileAttributes path).1 = true := by
  obtain ⟨e, he, hpath, -⟩ := h
  rw [Machine.setFileAttributes, if_pos (List.any_eq_true.mpr ⟨e, he, decide_eq_true hpath⟩)]

/-- `DeleteFile` deletes the file, or nothing. -/
theorem Machine.has_deleteFile : (m.deleteFile path).2.volume.Has p d ↔
    m.volume.Has p d ∧ ¬ ((m.deleteFile path).1 = true ∧ p = path) := by
  rw [Machine.deleteFile]
  split
  · split
    · simp
    · simp
  · split <;> simp

theorem Machine.file_of_deleteFile (h : (m.deleteFile path).1 = true) : m.volume.Has path false := by
  rw [Machine.deleteFile] at h
  split at h
  · next hfile => exact hfile
  · split at h
    · cases h
    · cases h

/-- It is permitted for a file whose attributes have been cleared. -/
theorem Machine.deleteFile_permitted (h : m.volume.Has path false) :
    ((m.setFileAttributes path).2.deleteFile path).1 = true := by
  have hwritable : ¬ (m.setFileAttributes path).2.volume.entries.any
      fun e => e.path = path ∧ e.attributes.readOnly := by
    obtain ⟨e, he, hpath, -⟩ := h
    rw [Machine.setFileAttributes, if_pos (List.any_eq_true.mpr ⟨e, he, decide_eq_true hpath⟩)]
    simp only [Volume.setNormal, List.any_map, List.any_eq_true, not_exists, not_and, Function.comp_apply,
      Entry.path_setNormal, decide_eq_true_eq]
    intro e _ hpath
    simp [Entry.setNormal, hpath, Entry.normal]
  rw [Machine.deleteFile, dif_pos (Machine.has_setFileAttributes.mpr h), if_neg hwritable]

theorem Machine.has_removeDirectory : (m.removeDirectory path).2.volume.Has p d ↔
    m.volume.Has p d ∧ ¬ ((m.removeDirectory path).1 = true ∧ p = path) := by
  rw [Machine.removeDirectory]
  split
  · split
    · simp
    · simp
  · split <;> simp

theorem Machine.removeDirectory_permitted_iff : (m.removeDirectory path).1 = true ↔
    m.volume.Has path true ∧ ∀ e ∈ m.volume.entries, ¬ Below e.path path := by
  rw [Machine.removeDirectory]
  split
  · next h =>
    split
    · next hempty => simpa [h] using hempty
    · next hempty => simpa [h] using hempty
  · next h => split <;> simp [h]

theorem Volume.mem_listed {dir : Text} {x : FindData} :
    x ∈ v.listed dir ↔ '\\' ∉ x.cFileName ∧ v.Has (child dir x.cFileName) x.directory := by
  rw [Volume.listed, List.mem_filterMap]
  constructor
  · rintro ⟨e, he, hx⟩
    obtain ⟨name, hname, rfl⟩ := Option.map_eq_some_iff.mp hx
    obtain ⟨hpath, hname⟩ := nameIn_eq_some_iff.mp hname
    exact ⟨hname, e, he, hpath, rfl⟩
  · rintro ⟨hname, e, he, hpath, hdir⟩
    refine ⟨e, he, ?_⟩
    rw [nameIn_eq_some_iff.mpr ⟨hpath, hname⟩, Option.map_some, hdir]

theorem Volume.nodup_listed (v : Volume) (dir : Text) : ((v.listed dir).map (·.cFileName)).Nodup := by
  rw [List.Nodup, List.pairwise_map, Volume.listed, List.pairwise_filterMap]
  refine (List.pairwise_map.mp v.nodup).imp ?_
  intro e e' hne x hx x' hx' heq
  obtain ⟨name, hname, rfl⟩ := Option.map_eq_some_iff.mp hx
  obtain ⟨name', hname', rfl⟩ := Option.map_eq_some_iff.mp hx'
  obtain rfl : name = name' := heq
  exact hne ((nameIn_eq_some_iff.mp hname).1.trans (nameIn_eq_some_iff.mp hname').1.symm)

theorem Machine.findFirstFile_eq (m : Machine) (dir : Text) : m.findFirstFile (dir ++ "\\*.*".toList) =
    if m.volume.Has dir true then (some (m.volume.list dir), m)
    else (none, { m with lastError := ERROR_PATH_NOT_FOUND }) := by
  have htake : (dir ++ "\\*.*".toList).take ((dir ++ "\\*.*".toList).length - 4) = dir := by
    rw [List.length_append, Nat.add_sub_assoc (by decide)]
    exact List.take_left
  rw [Machine.findFirstFile, htake]
  simp only [true_and]

end Swinst.Launcher
