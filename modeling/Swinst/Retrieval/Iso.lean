import Swinst.Retrieval.Metalink

/-! How the installation files are retrieved: `check_iso`, `copy_iso`, `use_cd`, `use_iso` and
`get_iso` of `backends/common/backend.py`. -/

namespace Swinst.Retrieval

open TaskList

variable (env : Env)

/-- `join_path(self.info.install_dir, "installation.iso")` -/
def Env.dest : Text := env.join env.installDir "installation.iso".toList

/-- `get_file_md5` -/
def getFileMd5 (path : Text) : Function :=
  .read fun w =>
    match w.files path with
    | none => .ret none
    | some content =>
      match env.readError path with
      | some e => .raise e
      | none => .finish (.ret (some (.text (env.md5 content))))

/-- What a failed copy has left at its target. -/
def World.leave (w : World) (target : Text) (left : Option Text) : World :=
  match left with
  | none => w
  | some content => { w with files := Function.update w.files target (some content) }

/-- What `copy_file` reads: the raw device of a drive, or a file. A file that is the target itself
has been emptied by then. -/
def World.source? (w : World) (path target : Text) : Option Text :=
  match env.dirs path with
  | some disc => some disc.image
  | none => if path = target then (w.files path).map fun _ => [] else w.files path

/-- `copy_file`; without a file or a drive, `file_size` is not bound -/
def copyFileBody (source target : Text) : Code (Option Value) := fun w =>
  match w.source? env source target with
  | none => (.error .nameError, w)
  | some content =>
    match env.copyError source target with
    | some (e, left) => (.error e, w.leave target left)
    | none => (.ok none, { w with files := Function.update w.files target (some content) })

def copyFile (source target : Text) : Function :=
  .code (copyFileBody env source target) fun r => .finish (.ret r)

/-- `shutil.move` -/
def moveFileBody (source target : Text) : Code (Option Value) := fun w =>
  match w.files source with
  | none => (.error .ioError, w)
  | some content =>
    match env.copyError source target with
    | some (e, left) => (.error e, w.leave target left)
    | none =>
      (.ok none, { w with
        files := Function.update (Function.update w.files source none) target (some content) })

def moveFile (source target : Text) : Function := .code (moveFileBody env source target) .ret

/-- `self.info.distro.is_valid_iso(iso_path, check_arch)` -/
def distroIsValidIso (isoPath : Text) (checkArch : Bool) : Code Bool := fun w =>
  match w.distro with
  | none => (.error .attributeError, w)
  | some d => w.isValidIso env d isoPath checkArch

/-- `set_distro_from_arch` -/
def setDistroFromArch (path : Text) : Code Unit := fun w =>
  if env.checkArch then (.ok (), w)
  else
    match w.distro with
    | none => (.error .attributeError, w)
    | some d =>
      match w.getInfo env d path with
      | (none, w) => (.error .typeError, w)
      | (some info, w) =>
        if d.arch = info.arch then (.ok (), w)
        else (.ok (), { w with distro := env.distrosDict (d.name.lower, info.arch) })

/-- The loop over `self.info.distro.metalink.files[0].hashes`: the last md5 hash. -/
def expectedMd5 (m : Metalink) : Except PyError (Option Text) :=
  match m.files with
  | [] => .error .indexError
  | hashes :: _ =>
    .ok ((hashes.filter fun hash => hash.type = "md5".toList).getLast?.map (·.hash))

/-- `self.info.iso_md5_hashes[iso_path] = md5sum2`, for ISOs outside `install_dir` -/
def cacheMd5 (isoPath : Text) (md5sum2 : Option Text) (w : World) : World :=
  if isoPath.startsWith env.installDir then w
  else { w with isoMd5Hashes := Function.update w.isoMd5Hashes isoPath md5sum2 }

/-- The end of `check_iso`: the two sums are compared. -/
def compareMd5 (md5sum : Text) (md5sum2 : Option Text) : Function :=
  .ret (some (.bool (decide (md5sum2 = some md5sum))))

/-- The text that a subtask has returned. -/
def Value.asText : Option Value → Option Text
  | some (.text s) => some s
  | _ => none

/-- The part of `check_iso` after the metalink is there. -/
def checkIsoMd5 (isoPath : Text) (metalink : Metalink) : Function :=
  .code (fun w => (expectedMd5 metalink, w)) fun md5sum =>
  match md5sum with
  | none | some [] => .ret (some (.bool true))
  | some md5sum =>
    .read fun w =>
    match w.isoMd5Hashes isoPath with
    | none | some [] =>
      .subtask "get_file_md5" true (getFileMd5 env isoPath) fun r =>
      .update (cacheMd5 env isoPath (Value.asText r)) (compareMd5 md5sum (Value.asText r))
    | some md5sum2 => compareMd5 md5sum (some md5sum2)

/-- The part of `check_iso` that looks for the metalink. -/
def checkIsoMetalink (isoPath : Text) : Function :=
  .code (fun w => (w.currentMetalink, w)) fun metalink =>
  match metalink with
  | some metalink => checkIsoMd5 env isoPath metalink
  | none =>
    .subtask "get_metalink" true (getMetalink env) fun _ =>
    .code (fun w => (w.currentMetalink, w)) fun metalink =>
    match metalink with
    | some metalink => checkIsoMd5 env isoPath metalink
    | none => .ret (some (.bool true))

/-- `check_iso` -/
def checkIso (isoPath : Text) : Function :=
  .code (distroIsValidIso env isoPath false) fun valid =>
  if !valid then .ret (some (.bool false))
  else
    .code (setDistroFromArch env isoPath) fun _ =>
    if env.skipMd5Check then .ret (some (.bool true))
    else checkIsoMetalink env isoPath

/-- The subtask that brings an ISO to its place: those in two directories are moved. -/
def transferIso (isoPath : Text) : String × Function :=
  if env.dirname isoPath = env.dest ∨ env.dirname isoPath = env.backupDir then
    ("move", moveFile env isoPath env.dest)
  else ("copy_file", copyFile env isoPath env.dest)

/-- The end of `copy_iso`, after `check_iso` -/
def placeIso (isoPath : Text) (ok : Option Value) : Function :=
  if Value.truthy ok then
    .subtask (transferIso env isoPath).1 true (transferIso env isoPath).2 fun _ =>
    .update (fun w => w.setPaths none (some env.dest)) (.ret (some (.bool true)))
  else .ret none

/-- `copy_iso`, called with a path -/
def copyIso (isoPath : Text) : Function :=
  .subtask "check_iso" true (checkIso env isoPath) (placeIso env isoPath)

/-- `find_cd` -/
def findCd : List Text → Code (Option Text)
  | [], w => (.ok none, w)
  | path :: paths, w =>
    match w.distro with
    | none => (.error .attributeError, w)
    | some d =>
      match w.isValidCd env d (env.platform.abspath path) env.checkArch with
      | (true, w) => (.ok (some (env.platform.abspath path)), w)
      | (false, w) => findCd paths w

/-- `find_iso` -/
def findIso : List Text → Code (Option Text)
  | [], w => (.ok none, w)
  | iso :: isos, w =>
    match distroIsValidIso env iso env.checkArch w with
    | (.error e, w) => (.error e, w)
    | (.ok true, w) => (.ok (some iso), w)
    | (.ok false, w) => findIso isos w

/-- Which CD does `use_cd` take? -/
def selectCd : Code (Option Text) := fun w =>
  let own := (path? w.cdPath).filter fun path => (env.dirs path).isSome
  if w.cdDistro.isSome ∧ w.distro = w.cdDistro ∧ own.isSome then (.ok own, w)
  else findCd env env.cdSearchPaths w

/-- `self.info.cd_distro.get_info(self.info.cd_path)[2]` -/
def cdSubversion (cdPath : Text) : Code Text := fun w =>
  match w.cdDistro with
  | none => (.error .attributeError, w)
  | some d =>
    match w.getInfo env d cdPath with
    | (none, w) => (.error .typeError, w)
    | (some info, w) => (.ok info.subversion, w)

/-- `subversion.lower() in ("alpha", "beta", "release candidate")` -/
def isPrerelease (subversion : Text) : Bool :=
  ["alpha".toList, "beta".toList, "release candidate".toList].contains subversion.lower

/-- The end of `use_cd`, after `check_iso` -/
def judgeCd (cdPath : Text) (ok : Option Value) : Function :=
  if Value.truthy ok then .ret (some (.bool true))
  else
    .code (cdSubversion env cdPath) fun subversion =>
    if isPrerelease subversion then .ret (some (.bool true))
    else .update (fun w => w.setPaths none none) (.ret (some (.bool false)))

/-- `use_cd` after the copying -/
def checkCd (cdPath : Text) : Function :=
  .update (fun w => w.setPaths (some cdPath) w.isoPath) <|
  .subtask "check_iso" true (checkIso env env.dest) (judgeCd env cdPath)

/-- The `try` of `use_cd` around the copying of the CD; is it to go on? -/
def tryCopyCd (cdPath : Text) : Function :=
  (Prog.subtask "copy_file" true (copyFile env cdPath env.dest) fun _ =>
    .ret (some (.bool true))).tryExcept fun _ =>
  .update (fun w => w.setPaths none none) (.ret (some (.bool false)))

/-- `use_cd` with a CD -/
def useCdAt (cdPath : Text) : Function :=
  .update (fun w => w.setPaths w.cdPath (some env.dest)) <|
  (tryCopyCd env cdPath).bind fun ok =>
  if Value.truthy ok then checkCd env cdPath else .ret (some (.bool false))

/-- The `except` clause is never reached: the call of a subtask lets no exception through. -/
theorem useCdAt_eq (cdPath : Text) : useCdAt env cdPath =
    .update (fun w => w.setPaths w.cdPath (some env.dest))
      (.subtask "copy_file" true (copyFile env cdPath env.dest) fun _ => checkCd env cdPath) := rfl

/-- `use_cd` -/
def useCd : Function :=
  .code (selectCd env) fun cdPath =>
  match path? cdPath with
  | none => .ret none
  | some cdPath => useCdAt env cdPath

/-- Which ISO does `use_iso` take? `os.path.isfile(None)` is a `TypeError`. -/
def selectIso : Code (Option Text) := fun w =>
  if w.isoDistro.isSome ∧ w.distro = w.isoDistro then
    match w.isoPath with
    | none => (.error .typeError, w)
    | some path =>
      if (w.files path).isSome then (.ok (some path), w)
      else findIso env (env.localIsos w.files) w
  else findIso env (env.localIsos w.files) w

/-- `use_iso` -/
def useIso : Function :=
  .code (selectIso env) fun isoPath =>
  match path? isoPath with
  | none => .ret none
  | some isoPath => copyIso env isoPath

def couldNotRetrieve : PyError := .exception "Could not retrieve the required installation files"

/-- `get_iso` -/
def getIso : Function :=
  (useCd env).bind fun ok =>
  if Value.truthy ok then .finish (.ret none)
  else
    (useIso env).bind fun ok =>
    if Value.truthy ok then .finish (.ret none)
    else .raise couldNotRetrieve

end Swinst.Retrieval
