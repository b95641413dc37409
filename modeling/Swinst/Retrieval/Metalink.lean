import Swinst.Retrieval.World

/-! `get_metalink` and `check_metalink` of `backends/common/backend.py`. -/

namespace Swinst.Retrieval

open TaskList

variable (env : Env)

/-- `downloader.download(url, self.info.install_dir, …)`, with the path of the file -/
def download (url : Text) : Code Text := fun w =>
  match env.download w.clock url with
  | .error e => (.error e, { w with clock := w.clock + 1 })
  | .ok (path, content) =>
    (.ok path, { w with
      clock := w.clock + 1
      downloads := Function.update w.downloads path (some content) })

/-- `dict([reversed(line.split()) for line in md5sums.split('\n') if line])` -/
def md5Table (md5sums : Text) : Except PyError (Text → Option Text) :=
  (md5sums.lines.filter fun line => !line.isEmpty).foldlM (fun table line =>
    match line.words with
    | [md5, file] => .ok (Function.update table file (some md5))
    | _ => .error .valueError) fun _ => none

/-- The part of `check_metalink` after the two downloads. -/
def verdict (w : World) (metalink md5sums signature : Text) : Except PyError Bool :=
  match w.downloads md5sums, w.downloads signature with
  | some list, some sig =>
    match env.verifyGpgSignature list sig with
    | .error e => .error e
    | .ok false => .ok false
    | .ok true =>
      match md5Table list with
      | .error e => .error e
      | .ok table =>
        .ok (decide (table (env.basename metalink) = (w.downloads metalink).map env.md5))
  | _, _ => .error .attributeError

/-- `check_metalink` -/
def checkMetalink (metalink baseUrl : Text) : Code Bool := fun w =>
  if env.skipMd5Check then (.ok true, w)
  else
    match w.distro with
    | none => (.error .attributeError, w)
    | some d =>
      match download env (baseUrl ++ '/' :: d.metalinkMd5sums) w with
      | (.error e, w) => (.error e, w)
      | (.ok md5sums, w) =>
        match download env (baseUrl ++ '/' :: d.metalinkMd5sumsSignature) w with
        | (.error e, w) => (.error e, w)
        | (.ok signature, w) => (verdict env w metalink md5sums signature, w)

/-- The two attempts of `get_metalink`: the path of the file and `base_url`, `none` when it returns.
Without a distro the handler of the first attempt fails, for `url` is not bound. -/
def fetchMetalink : Code (Option (Text × Text)) := fun w =>
  match w.distro with
  | none => (.error .nameError, w)
  | some d =>
    match download env d.metalinkUrl w with
    | (.ok path, w) => (.ok (some (path, env.dirname d.metalinkUrl)), w)
    | (.error _, w) =>
      match download env d.metalinkUrl2 w with
      | (.ok path, w) => (.ok (some (path, env.dirname d.metalinkUrl2)), w)
      | (.error _, w) => (.ok none, w)

/-- `self.info.distro.metalink = parse_metalink(metalink)` -/
def setMetalink (path : Text) : Code (Option Value) := fun w =>
  match w.downloads path with
  | none => (.error .ioError, w)
  | some content =>
    match env.parseMetalink content, w.distro with
    | .error e, _ => (.error e, w)
    | .ok _, none => (.error .attributeError, w)
    | .ok m, some d => (.ok none, { w with metalink := Function.update w.metalink d (some m) })

/-- The body of `get_metalink`. A file that `check_metalink` rejects is reported to the log, and
then read like any other. -/
def getMetalinkBody : Code (Option Value) := fun w =>
  match fetchMetalink env w with
  | (.error e, w) => (.error e, w)
  | (.ok none, w) => (.ok none, w)
  | (.ok (some (path, baseUrl)), w) =>
    match checkMetalink env path baseUrl w with
    | (.error e, w) => (.error e, w)
    | (.ok _, w) => setMetalink env path w

/-- `get_metalink` -/
def getMetalink : Function := .code (getMetalinkBody env) .ret

end Swinst.Retrieval
