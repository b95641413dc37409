import Swinst.Retrieval.Iso

/-! `extract_kernel`, and the task lists that it is part of. -/

namespace Swinst.Retrieval

open TaskList

variable (env : Env)

/-- One piece of code after another, unless the first raises. -/
def Code.andThen {α β : Type} (c : Code α) (k : α → Code β) : Code β := fun w =>
  match c w with
  | (.error e, w) => (.error e, w)
  | (.ok a, w) => k a w

def Code.forEach {α : Type} (c : α → Code Unit) : List α → Code Unit
  | [], w => (.ok (), w)
  | a :: as, w => ((c a).andThen fun _ => forEach c as) w

/-- A file with the base name of `rel` appears in `install/boot`, or disappears. -/
def World.setBoot (w : World) (name : Text) (file : Option BootFile) : World :=
  { w with boot := Function.update w.boot name file }

/-- `shutil.copy(join_path(self.info.cd_path, rel), bootdir)` -/
def copyFromCd (cdPath rel : Text) : Code Unit := fun w =>
  match env.dirs cdPath with
  | none => (.error .ioError, w)
  | some disc =>
    match disc.file rel, env.copyError (env.join cdPath rel) env.installBootDir with
    | none, _ => (.error .ioError, w)
    | some _, some (e, _) => (.error e, w)
    | some content, none => (.ok (), w.setBoot (env.basename rel) (some ⟨disc.image, content⟩))

/-- `self.extract_file_from_iso(self.info.iso_path, rel, output_dir=bootdir)`, whose result is not
looked at -/
def extractFromIso (isoPath rel : Text) : Code Unit := fun w =>
  match w.files isoPath with
  | none => (.error (.exception "Invalid path"), w)
  | some image =>
    (.ok (), w.setBoot (env.basename rel)
      ((env.platform.extract image rel).map fun content => ⟨image, content⟩))

/-- `check_file` for a file in `install/boot`: the first line of the md5sums that ends with the
name, a line break after it -/
def checkFile (rel md5sums : Text) (w : World) : Except PyError Bool :=
  let list := (w.boot (env.basename md5sums)).map (·.content)
  let line := list.bind fun text =>
    text.lines.dropLast.find? fun line => line.endsWith ("./".toList ++ rel.replaceChar '\\' '/')
  match line with
  | none => .error (.exception "Cannot find md5")
  | some line =>
    match line.words with
    | [] => .error .indexError
    | reference :: _ =>
      .ok (decide ((w.boot (env.basename rel)).map (fun f => env.md5 f.content) = some reference))

def checkFileOrRaise (md5sums rel : Text) : Code Unit := fun w =>
  match checkFile env rel md5sums w with
  | .error e => (.error e, w)
  | .ok false => (.error (.exception "File is corrupted"), w)
  | .ok true => (.ok (), w)

/-- The files that go to `install/boot`. -/
def bootSources (d : Distro) : List Text := [d.md5sums, d.kernel, d.initrd]

/-- `extract_kernel` once it is known how to get a file -/
def extractWith (get : Text → Code Unit) : Code (Option Value) := fun w =>
  match w.distro with
  | none => (.error .attributeError, w)
  | some d =>
    (Code.forEach get (bootSources d)).andThen (fun _ =>
      (Code.forEach (checkFileOrRaise env d.md5sums) [d.kernel, d.initrd]).andThen fun _ w =>
        (.ok none, w)) w

/-- The body of `extract_kernel`. -/
def extractKernelBody : Code (Option Value) := fun w =>
  match path? w.cdPath, path? w.isoPath with
  | some cdPath, _ => extractWith env (copyFromCd env cdPath) w
  | none, some isoPath => extractWith env (extractFromIso env isoPath) w
  | none, none => (.error couldNotRetrieve, w)

/-- `extract_kernel` -/
def extractKernel : Function := .code (extractKernelBody env) .ret

/-! ## Task lists -/

/-- A task whose function does not touch what is modelled here. -/
def outside (name : String) : ProgTask Value PyError World where
  name := name
  prog := .code (fun w => (env.outside name w, w)) fun _ => .ret none

def getIsoTask : ProgTask Value PyError World where
  name := "get_iso"
  prog := getIso env

def useCdTask : ProgTask Value PyError World where
  name := "use_cd"
  prog := useCd env

def extractKernelTask : ProgTask Value PyError World where
  name := "extract_kernel"
  prog := extractKernel env

/-- The task lists with `extract_kernel`. -/
inductive Tasklist where
  | installation | advancedInstallation | cdboot | fixboot
  deriving DecidableEq

namespace Tasklist

def prepare : List String :=
  ["create_dir_structure", "uncompress_target_dir", "create_uninstaller", "copy_installation_files"]

/-- The tasks before `extract_kernel`. -/
def before : Tasklist → List (ProgTask Value PyError World)
  | installation | advancedInstallation =>
    ("select_target_dir" :: prepare).map (outside env) ++ [getIsoTask env]
  | cdboot => ("select_target_dir" :: prepare).map (outside env) ++ [useCdTask env]
  | fixboot => prepare.map (outside env)

/-- The tasks after it. -/
def after : Tasklist → List (ProgTask Value PyError World)
  | installation =>
    ["choose_disk_sizes", "create_preseed", "undo_bootloader", "modify_bootloader",
      "modify_grub_configuration", "create_virtual_disks", "uncompress_files", "eject_cd"].map
      (outside env)
  | advancedInstallation =>
    ["undo_bootloader", "modify_bootloader", "modify_grub_configuration"].map (outside env)
  | cdboot =>
    ["create_preseed_cdboot", "modify_bootloader", "modify_grub_configuration", "uncompress_files",
      "eject_cd"].map (outside env)
  | fixboot =>
    ["undo_bootloader", "modify_bootloader", "modify_grub_configuration", "create_virtual_disks",
      "uncompress_files", "eject_cd"].map (outside env)

def tasks (l : Tasklist) : List (ProgTask Value PyError World) :=
  l.before env ++ extractKernelTask env :: l.after env

/-- What is set before the list is run: by `CDBootPage.on_init`, and by `run_fixboot`, where the
line that clears `cd_path` is commented out. -/
def enter (w : World) : Tasklist → Except PyError World
  | installation | advancedInstallation => .ok w
  | cdboot => .ok { w with distro := w.cdDistro }
  | fixboot =>
    let isoPath := (path? w.installationIso).orElse fun _ => w.isoPath
    if (path? isoPath).isSome then .ok { w with isoPath := isoPath }
    else .error couldNotRetrieve

end Tasklist

end Swinst.Retrieval
