import Swinst.Bootloader.Drives

/-! How a previous installation is found and uninstalled: `fetch_basic_info` as far as it looks for
one, and `run_uninstaller` of `application.py`. -/

namespace Swinst.Previous

open TaskList

/-- A path as the file system sees it: without case, and without separators at its end. -/
def normPath (path : Text) : Text :=
  ((path.lower.replaceChar '/' '\\').reverse.dropWhile (· = '\\')).reverse

/-- Is the path `q` the directory `dir`, or inside it? Both as the file system sees them. -/
def under (dir q : Text) : Bool := q = dir || (dir ++ ['\\']).isPrefixOf q

structure World where
  /-- the directories, as the file system sees them -/
  dirs : Text → Bool
  files : Text → Option Text
  /-- `InstallationDir` and `UninstallString` in the registry -/
  installationDir : Option Text
  uninstallString : Option Text

/-- What does not change. -/
structure Computer where
  drives : List Drive
  lettered : ∀ d ∈ drives, ∃ c : Char, d.path = [c, ':']
  originalExe : Text
  /-- `info.inst`, the name under which the program runs -/
  inst : Text
  /-- does `check_boot_entry` find the boot entry? -/
  bootEntry : World → Bool

namespace World

variable (w : World)

/-- `os.path.isdir` -/
def isDir (path : Text) : Bool := w.dirs (normPath path)

/-- `os.path.isfile`, with the content -/
def file? (path : Text) : Option Text := w.files (normPath path)

/-- `rm_tree` -/
def rmTree (target : Text) : World :=
  { w with
    dirs := fun q => w.dirs q && !under (normPath target) q
    files := fun q => if under (normPath target) q then none else w.files q }

/-- `if path and os.path.isdir(path): rm_tree(path)` -/
def rmDir (path : Option Text) : World :=
  match path with
  | some path => if w.isDir path then w.rmTree path else w
  | none => w

end World

/-- `os.path.join` -/
def join (dir name : Text) : Text := dir ++ '\\' :: name

def loopDir (d : Drive) : Text := Text.lower (d.path.take 2) ++ "\\startos-loop".toList

def livecdDir (d : Drive) : Text := Text.lower (d.path.take 2) ++ "\\startos-livecd".toList

/-- The loop of `check_pre_install_path`, with the `startos-livecd` seen so far. -/
def checkPreInstallPath (w : World) : List Drive → Option Text → Option Text × Option Text
  | [], livecd => (none, livecd)
  | d :: ds, livecd =>
    let livecd := if w.isDir (livecdDir d) then some (livecdDir d) else livecd
    if w.isDir (loopDir d) then (some (loopDir d), livecd) else checkPreInstallPath w ds livecd

/-- The fields of `info` about a previous installation. -/
structure Info where
  needfix : Nat
  preInstallPath : Option Text
  preInstallPath2 : Option Text
  previousTargetDir : Option Text
  previousUninstallerPath : Option Text

/-- Neither `None` nor empty. -/
def given (s : Option Text) : Option Text := s.filter (· ≠ [])

/-- Does `check_pre_install_files` find a root disk of a reasonable size? -/
def hasRootDisk (w : World) (preInstallPath : Text) : Bool :=
  match w.file? (join (join preInstallPath "disks".toList) "root.disk".toList) with
  | none => false
  | some disk => 1500 ≤ disk.length / 1000 / 1000 + 50

/-- `needfix` after `chk_needfix`, which counts what is in order down from 3, and
`previous_target_dir` -/
def chkNeedfix (c : Computer) (w : World) (preInstallPath : Option Text) : Nat × Option Text :=
  match preInstallPath with
  | none => (0, w.installationDir)
  | some path =>
    if !hasRootDisk w path then (0, w.installationDir)
    else
      let entry := if c.bootEntry w then 1 else 0
      match given w.installationDir with
      | none => (2 - entry, some path)
      | some dir => (1 - entry, some dir)

/-- `chk_uninstaller` -/
def chkUninstaller (w : World) (preInstallPath preInstallPath2 : Option Text) : Option Text :=
  match (given w.uninstallString).filter fun path => (w.file? path).isSome with
  | some path => some path
  | none =>
    let dir := (preInstallPath.filter w.isDir).orElse fun _ => preInstallPath2.filter w.isDir
    match (dir.map fun dir => join dir "uninstaller.exe".toList).filter
        fun path => (w.file? path).isSome with
    | some path => some path
    | none => w.uninstallString

/-- `fetch_basic_info` -/
def fetchBasicInfo (c : Computer) (w : World) : Info :=
  let (preInstallPath, preInstallPath2) := checkPreInstallPath w c.drives none
  let (needfix, previousTargetDir) := chkNeedfix c w preInstallPath
  { needfix, preInstallPath, preInstallPath2, previousTargetDir
    previousUninstallerPath := chkUninstaller w preInstallPath preInstallPath2 }

/-- The test of `run_installer` for a previous installation. -/
def Info.detected (info : Info) (w : World) : Bool :=
  info.preInstallPath.any w.isDir || info.preInstallPath2.any w.isDir

/-! ## The uninstaller -/

/-- What the user chooses on the page of the fixer. -/
inductive Choice where
  | fix | uninstall | cancel
  deriving DecidableEq

/-- How `run_uninstaller` ends: the program quits, or goes on. -/
inductive Ending where
  | quit
  | returned (w : World)

/-- `previous_target_dir` at the start of `run_uninstaller` -/
def Info.targetDir (info : Info) : Option Text :=
  (given info.previousTargetDir).orElse fun _ =>
    info.preInstallPath.orElse fun _ => info.preInstallPath2

/-- Does `run_previous_uninstaller` launch another program? It quits then. -/
def launches (c : Computer) (info : Info) (w : World) : Bool :=
  match (given info.previousUninstallerPath).bind w.file? with
  | none => false
  | some uninstaller => w.file? c.originalExe ≠ some uninstaller

/-- `remove_target_dir` -/
def removeTargetDir (target : Text) : Prog Unit PyError World :=
  .update (fun w => w.rmDir (some target)) (.ret none)

/-- `remove_registry_key` -/
def removeRegistryKey : Prog Unit PyError World :=
  .update (fun w => { w with installationDir := none, uninstallString := none }) (.ret none)

/-- `get_uninstallation_tasklist`; every deletion succeeds. The box for the backup of ISOs is hidden
and never checked, and `undo_bootloader` deletes nothing that is modelled here. -/
def uninstallationTasks (target : Text) : List (ProgTask Unit PyError World) :=
  [{ name := "backup_iso", prog := .ret none },
    { name := "undo_bootloader", prog := .ret none },
    { name := "remove_target_dir", prog := removeTargetDir target },
    { name := "remove_registry_key", prog := removeRegistryKey }]

/-- What the uninstallation deletes, after it was confirmed. -/
def uninstall (info : Info) (target : Text) (w : World) : World :=
  let w := (evalTasks (uninstallationTasks target) true w).2
  (w.rmDir info.preInstallPath2).rmDir info.preInstallPath

/-- `run_uninstaller`; `confirmed` is the answer on the second page -/
def runUninstaller (c : Computer) (info : Info) (choice : Choice) (confirmed : Bool) (w : World) :
    Ending :=
  match info.targetDir with
  | none => .returned w
  | some target =>
    if !w.isDir target then .returned w
    else if (w.file? (join target "uninstall.exe".toList)).isSome ∧ info.needfix = 0 ∧
        launches c info w then .quit
    else
      match choice, confirmed with
      | .uninstall, true =>
        if c.inst = "uninstall.exe".toList then .quit else .returned (uninstall info target w)
      | _, _ => .quit

/-- How `run_installer` gets on: it asks for the settings of the installation, or refuses. -/
inductive Installer where
  | proceeds (w : World)
  /-- "A previous installation was detected in %s. Please uninstall that before continuing." -/
  | refuses (previousTargetDir : Option Text) (w : World)
  | quit

/-- `run_installer` up to the settings page -/
def runInstaller (c : Computer) (choice : Choice) (confirmed : Bool) (w : World) : Installer :=
  let info := fetchBasicInfo c w
  if !info.detected w then .proceeds w
  else
    match runUninstaller c info choice confirmed w with
    | .quit => .quit
    | .returned w =>
      let info := fetchBasicInfo c w
      if info.detected w then .refuses info.previousTargetDir w else .proceeds w

end Swinst.Previous
