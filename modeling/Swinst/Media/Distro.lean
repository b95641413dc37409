import Swinst.Data.PyText

/-! `backends/common/distro.py`: is a CD or an ISO file one of the known distributions? The answers
go through two caches, `Distro.cache` and the `cache` of the Windows backend. -/

namespace Swinst

/-- What `parse_isoinfo` finds in `.disk/info`. -/
structure DiskInfo where
  name : Text
  version : Text
  subversion : Text
  arch : Text
  deriving DecidableEq, Repr

/-- A section of `isolist.ini`. The object identity that `==` compares is `id`. -/
structure Distro where
  id : Nat
  name : Text
  arch : Text
  kernel : Text
  initrd : Text
  md5sums : Text
  infoFile : Text
  size : Int
  minIsoSize : Int
  maxIsoSize : Int
  filesToCheck : List Text
  metalinkUrl : Text
  metalinkUrl2 : Text
  metalinkMd5sums : Text
  metalinkMd5sumsSignature : Text
  deriving DecidableEq

/-- A disc in a drive: its raw content, and its files by their path. -/
structure Disc where
  image : Text
  file : Text → Option Text

/-- The files and the directories that media can be found at. -/
structure Storage where
  files : Text → Option Text
  dirs : Text → Option Disc

/-- What the code gets from outside: path functions, the 7z program and the regular expression
engine. -/
structure Platform where
  abspath : Text → Text
  normpath : Text → Text
  /-- the output of `7z l` for an archive with this content, `none` when `run_command` raises -/
  list : Text → Option Text
  /-- what `7z e` leaves of a file of such an archive -/
  extract : Text → Text → Option Text
  /-- `disk_info_re.match` -/
  diskInfoRe : Text → Option DiskInfo

/-- `WindowsBackend.cache` and `Distro.cache`, whose entries may be `None`. -/
structure Caches where
  names : Text → Option (Option (List Text))
  infos : Text × Text → Option (Option DiskInfo)

namespace Caches

def empty : Caches where
  names _ := none
  infos _ := none

def setNames (c : Caches) (key : Text) (r : Option (List Text)) : Caches :=
  { c with names := Function.update c.names key (some r) }

def setInfo (c : Caches) (key : Text × Text) (r : Option DiskInfo) : Caches :=
  { c with infos := Function.update c.infos key (some r) }

theorem names_setNames (c : Caches) (key : Text) (r : Option (List Text)) (k : Text) :
    (c.setNames key r).names k = if k = key then some r else c.names k :=
  Function.update_apply ..

theorem infos_setInfo (c : Caches) (key : Text × Text) (r : Option DiskInfo) (k : Text × Text) :
    (c.setInfo key r).infos k = if k = key then some r else c.infos k :=
  Function.update_apply ..

@[simp] theorem setInfo_setInfo (c : Caches) (key : Text × Text) (r r' : Option DiskInfo) :
    (c.setInfo key r).setInfo key r' = c.setInfo key r' := by
  simp [setInfo]

end Caches

namespace Platform

variable (h : Platform)

/-- `lines[7:-3]` of the output of `7z l`: the rows of its table -/
def rows (output : Text) : List Text :=
  let lines := output.crlfLines
  (lines.take (lines.length - 3)).drop 7

/-- `os.path.normpath(line.split()[-1])` -/
def rowName (row : Text) : Except PyError Text :=
  match row.words.getLast? with
  | some name => .ok (h.normpath name)
  | none => .error .indexError

/-- The body of `get_iso_file_names` for a path that is not in the cache. `.ok none` stands for the
`[]` that is returned without being stored. The test `lines < 10` compares a list with a number,
which is never true. -/
def listing (s : Storage) (isoPath : Text) : Except PyError (Option (List Text)) :=
  match (s.files isoPath).bind h.list with
  | none => .ok none
  | some output =>
    if output.isEmpty then .ok none
    else some <$> (rows output).mapM h.rowName

/-- `get_iso_file_names`, with the value that it returns -/
def getIsoFileNames (s : Storage) (isoPath : Text) (c : Caches) :
    Except PyError (Option (List Text)) × Caches :=
  let key := h.abspath isoPath
  match c.names key with
  | some r => (.ok r, c)
  | none =>
    match h.listing s key with
    | .error e => (.error e, c.setNames key none)
    | .ok none => (.ok (some []), c.setNames key none)
    | .ok (some names) => (.ok (some names), c.setNames key (some names))

/-- The names in an ISO as the cache keeps them: `None` unless all went well. -/
def keptNames (s : Storage) (key : Text) : Option (List Text) :=
  match h.listing s key with
  | .ok r => r
  | .error _ => none

/-- What `get_iso_file_names` answers when the cache knows nothing. -/
def freshNames (s : Storage) (key : Text) : Except PyError (Option (List Text)) :=
  match h.listing s key with
  | .error e => .error e
  | .ok r => .ok (some (r.getD []))

theorem getIsoFileNames_hit {s : Storage} {isoPath : Text} {c : Caches}
    (hr : c.names (h.abspath isoPath) = some r) :
    h.getIsoFileNames s isoPath c = (.ok r, c) := by
  simp only [getIsoFileNames, hr]

theorem getIsoFileNames_miss {s : Storage} {isoPath : Text} {c : Caches}
    (hr : c.names (h.abspath isoPath) = none) :
    h.getIsoFileNames s isoPath c = (h.freshNames s (h.abspath isoPath),
      c.setNames (h.abspath isoPath) (h.keptNames s (h.abspath isoPath))) := by
  simp only [getIsoFileNames, hr, freshNames, keptNames]
  rcases h.listing s (h.abspath isoPath) with e | _ | names <;> rfl

end Platform

namespace Distro

variable (h : Platform) (s : Storage) (d : Distro)

/-- `get_required_files` -/
def requiredFiles : List Text := d.filesToCheck ++ [d.kernel, d.initrd, d.infoFile, d.md5sums]

/-- `parse_isoinfo` -/
def parseIsoinfo (info : Text) : Except PyError (Option DiskInfo) :=
  if info.isEmpty then .ok none
  else
    match h.diskInfoRe info with
    | none => .error .attributeError
    | some i => .ok (some { i with name := i.name.replaceChar '-' ' ' })

/-- The text of the info file of a CD or an ISO. -/
def infoText (path : Text) : Option Text :=
  match s.files path with
  | some content => h.extract content d.infoFile
  | none => (s.dirs path).bind fun disc => disc.file d.infoFile

/-- The body of `get_info` for a medium that is not in the cache. -/
def readInfo (path : Text) : Option DiskInfo :=
  match infoText h s d path with
  | none => none
  | some text =>
    match parseIsoinfo h text with
    | .error _ => none
    | .ok r => r

/-- `get_info`: on every way out but the last the entry stays `None` -/
def getInfo (path : Text) (c : Caches) : Option DiskInfo × Caches :=
  let key := (path, d.infoFile)
  match c.infos key with
  | some r => (r, c)
  | none =>
    let c := c.setInfo key none
    match infoText h s d path with
    | none => (none, c)
    | some text =>
      match parseIsoinfo h text with
      | .error _ => (none, c)
      | .ok r => (r, c.setInfo key r)

theorem getInfo_hit {path : Text} {c : Caches} (hr : c.infos (path, d.infoFile) = some r) :
    d.getInfo h s path c = (r, c) := by
  simp only [getInfo, hr]

/-- A first question leaves its answer in the cache, also where it is `None`. -/
theorem getInfo_miss {path : Text} {c : Caches} (hr : c.infos (path, d.infoFile) = none) :
    d.getInfo h s path c =
      (d.readInfo h s path, c.setInfo (path, d.infoFile) (d.readInfo h s path)) := by
  simp only [getInfo, hr, readInfo]
  cases infoText h s d path with
  | none => rfl
  | some text =>
    cases hp : parseIsoinfo h text with
    | error e => simp [hp]
    | ok r => simp [hp]

/-- `check_info` -/
def checkInfo (info : Option DiskInfo) (checkArch : Bool) : Bool :=
  match info with
  | none => false
  | some i =>
    if !d.name.isEmpty && i.name ≠ d.name then false
    else if checkArch && !d.arch.isEmpty && i.arch ≠ d.arch then false
    else true

/-- The three size checks of `is_valid_iso`. -/
def wrongSize (fileSize : Int) : Bool :=
  if d.size ≠ 0 ∧ d.size ≠ fileSize then true
  else if d.minIsoSize ≠ 0 ∧ fileSize < d.minIsoSize then true
  else decide (d.maxIsoSize ≠ 0 ∧ fileSize > d.maxIsoSize)

/-- Are the required files among the names in an ISO? -/
def contains (names : List Text) : Bool :=
  d.requiredFiles.all fun file =>
    (names.map fun f => f.strip.lower).contains file.strip.lower

/-- `is_valid_iso` -/
def isValidIso (isoPath : Text) (checkArch : Bool) (c : Caches) : Except PyError Bool × Caches :=
  let isoPath := h.abspath isoPath
  match s.files isoPath with
  | none => (.ok false, c)
  | some content =>
    if d.wrongSize content.length then (.ok false, c)
    else
      match h.getIsoFileNames s isoPath c with
      | (.error e, c) => (.error e, c)
      -- `[f.strip().lower() for f in files]`
      | (.ok none, c) => (.error .typeError, c)
      | (.ok (some names), c) =>
        if !d.contains names then (.ok false, c)
        else
          let (info, c) := d.getInfo h s isoPath c
          (.ok (d.checkInfo info checkArch), c)

/-- `is_valid_cd` -/
def isValidCd (cdPath : Text) (checkArch : Bool) (c : Caches) : Bool × Caches :=
  let cdPath := h.abspath cdPath
  match s.dirs cdPath with
  | none => (false, c)
  | some disc =>
    if !d.requiredFiles.all fun file => (disc.file file).isSome then (false, c)
    else
      let (info, c) := d.getInfo h s cdPath c
      (d.checkInfo info checkArch, c)

variable {h s d}

/-- What was answered once is answered again. -/
theorem getInfo_again (path : Text) (c : Caches) :
    (d.getInfo h s path (d.getInfo h s path c).2).1 = (d.getInfo h s path c).1 := by
  cases hr : c.infos (path, d.infoFile) with
  | some r => rw [getInfo_hit h s d hr, getInfo_hit h s d hr]
  | none =>
    rw [getInfo_miss h s d hr]
    exact congrArg Prod.fst (getInfo_hit h s d (by simp [Caches.infos_setInfo]))

theorem eq_some_of_checkInfo {info : Option DiskInfo} (hc : d.checkInfo info checkArch = true) :
    ∃ i, info = some i := by
  cases info with
  | none => cases hc
  | some i => exact ⟨i, rfl⟩

/-- A medium that is valid has an info line. -/
theorem info_of_isValidCd {path : Text} {c : Caches} (hv : (d.isValidCd h s path checkArch c).1 = true) :
    ∃ i, (d.getInfo h s (h.abspath path) (d.isValidCd h s path checkArch c).2).1 = some i := by
  unfold isValidCd at hv ⊢
  dsimp only at hv ⊢
  cases hdir : s.dirs (h.abspath path) with
  | none => simp [hdir] at hv
  | some disc =>
    simp only [hdir] at hv ⊢
    split at hv
    · cases hv
    · next hfiles =>
      rw [if_neg hfiles, getInfo_again]
      exact eq_some_of_checkInfo hv

theorem info_of_isValidIso {path : Text} {c : Caches}
    (hv : (d.isValidIso h s path checkArch c).1 = .ok true) :
    ∃ i, (d.getInfo h s (h.abspath path) (d.isValidIso h s path checkArch c).2).1 = some i := by
  unfold isValidIso at hv ⊢
  dsimp only at hv ⊢
  cases hfile : s.files (h.abspath path) with
  | none => simp [hfile] at hv
  | some content =>
    simp only [hfile] at hv ⊢
    split at hv
    · cases hv
    next hsize =>
    rw [if_neg hsize]
    rcases hnames : h.getIsoFileNames s (h.abspath path) c with ⟨_ | _ | names, c'⟩
    · simp [hnames] at hv
    · simp [hnames] at hv
    · simp only [hnames] at hv ⊢
      split at hv
      · cases hv
      · next hcontains =>
        rw [if_neg hcontains, getInfo_again]
        exact eq_some_of_checkInfo (Except.ok.inj hv)

end Distro

end Swinst
