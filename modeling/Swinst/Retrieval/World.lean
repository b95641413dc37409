import Swinst.Media.Distro
import Swinst.TaskList.Program

/-! The world that the tasks which retrieve the installation files work on: the fields of `info`
that they read and write, the ISO files, the downloads, and what was put in `install/boot`. -/

namespace Swinst.Retrieval

open TaskList

/-- A hash of a metalink file, and the files of a metalink; the URLs are used by `download_iso`
only, which is not called. -/
structure MetalinkHash where
  type : Text
  hash : Text
  deriving DecidableEq

structure Metalink where
  files : List (List MetalinkHash)
  deriving DecidableEq

/-- A file in `install/boot`: its content, and the medium that it was taken from. -/
structure BootFile where
  medium : Text
  content : Text
  deriving DecidableEq

/-- What a function of the installer returns besides `None`. -/
inductive Value where
  | bool (b : Bool)
  | text (s : Text)
  deriving DecidableEq

/-- Python truth of a returned value. -/
def Value.truthy : Option Value → Bool
  | none => false
  | some (.bool b) => b
  | some (.text s) => !s.isEmpty

structure World where
  /-- the ISO files, by path -/
  files : Text → Option Text
  /-- the files that the downloader has left in `install_dir` -/
  downloads : Text → Option Text
  /-- how many downloads have been tried -/
  clock : Nat
  caches : Caches
  /-- `install/boot`, by file name -/
  boot : Text → Option BootFile
  distro : Option Distro
  cdPath : Option Text
  cdDistro : Option Distro
  isoPath : Option Text
  isoDistro : Option Distro
  installationIso : Option Text
  /-- `distro.metalink` -/
  metalink : Distro → Option Metalink
  isoMd5Hashes : Text → Option Text

/-- What does not change while the tasks run, and what the outside does: any results of downloads,
signature checks, md5 and the copying of files. -/
structure Env where
  platform : Platform
  join : Text → Text → Text
  basename : Text → Text
  dirname : Text → Text
  /-- the discs in the drives -/
  dirs : Text → Option Disc
  installDir : Text
  backupDir : Text
  installBootDir : Text
  /-- `get_cd_search_paths` -/
  cdSearchPaths : List Text
  /-- the ISOs in `get_iso_search_paths`, latest first in each directory -/
  localIsos : (Text → Option Text) → List Text
  checkArch : Bool
  skipMd5Check : Bool
  /-- `info.distros_dict` -/
  distrosDict : Text × Text → Option Distro
  /-- the md5 of a file's content -/
  md5 : Text → Text
  /-- the exception that reading a file ends with -/
  readError : Text → Option PyError
  /-- the exception that copying or moving a file ends with, and what is then at the target -/
  copyError : Text → Text → Option (PyError × Option Text)
  /-- the path and the content of the file that the `n`-th download leaves -/
  download : Nat → Text → Except PyError (Text × Text)
  /-- `verify_gpg_signature` on the contents of the list and the signature -/
  verifyGpgSignature : Text → Text → Except PyError Bool
  parseMetalink : Text → Except PyError Metalink
  /-- how the other tasks of a list end, by the name of their function -/
  outside : String → World → Except PyError Unit

/-- A function of the installer. -/
abbrev Function := Prog Value PyError World

/-- Code that calls no task. -/
abbrev Code (α : Type) := World → Except PyError α × World

/-- A path as a condition: neither `None` nor empty. -/
def path? : Option Text → Option Text
  | some [] => none
  | p => p

namespace World

variable (env : Env) (w : World)

def storage : Storage where
  files := w.files
  dirs := env.dirs

/-- `distro.is_valid_iso(path, check_arch)` -/
def isValidIso (d : Distro) (path : Text) (checkArch : Bool) : Except PyError Bool × World :=
  let (r, c) := d.isValidIso env.platform (w.storage env) path checkArch w.caches
  (r, { w with caches := c })

/-- `distro.is_valid_cd(path, check_arch)` -/
def isValidCd (d : Distro) (path : Text) (checkArch : Bool) : Bool × World :=
  let (r, c) := d.isValidCd env.platform (w.storage env) path checkArch w.caches
  (r, { w with caches := c })

/-- `distro.get_info(path)` -/
def getInfo (d : Distro) (path : Text) : Option DiskInfo × World :=
  let (r, c) := d.getInfo env.platform (w.storage env) path w.caches
  (r, { w with caches := c })

/-- `self.info.cd_path = …` and `self.info.iso_path = …` -/
def setPaths (cdPath isoPath : Option Text) : World := { w with cdPath := cdPath, isoPath := isoPath }

/-- `self.info.distro.metalink` -/
def currentMetalink : Except PyError (Option Metalink) :=
  match w.distro with
  | none => .error .attributeError
  | some d => .ok (w.metalink d)

end World

/-! ## A small computer, for examples -/

namespace Sample

def distro : Distro where
  id := 0
  name := "StartOS".toList
  arch := "i686".toList
  kernel := "vmlinuz".toList
  initrd := "initrd".toList
  md5sums := "md5sum".toList
  infoFile := "info".toList
  size := 0
  minIsoSize := 0
  maxIsoSize := 0
  filesToCheck := []
  metalinkUrl := "url/meta".toList
  metalinkUrl2 := []
  metalinkMd5sums := "sums".toList
  metalinkMd5sumsSignature := "gpg".toList

/-- The files on every medium of the distro; the text of `info` is the subversion. -/
def mediumFile (subversion : Text) (rel : Text) : Option Text :=
  if rel = "vmlinuz".toList then some "k".toList
  else if rel = "initrd".toList then some "i".toList
  else if rel = "md5sum".toList then some "k ./vmlinuz\ni ./initrd\n".toList
  else if rel = "info".toList then some subversion
  else none

/-- The md5 of a content is the content itself. The CD has the image `cd`; every image lists as a
medium of the distro. Downloads leave one signed line that fits the metalink. -/
def env : Env where
  platform := {
    abspath := id
    normpath := id
    list _ := some ("\r\n\r\n\r\n\r\n\r\n\r\n\r\n".toList ++
      "vmlinuz\r\ninitrd\r\nmd5sum\r\ninfo\r\n\r\n\r\n".toList)
    extract _ := mediumFile "final".toList
    diskInfoRe text := some ⟨"StartOS".toList, "5.1".toList, text, "i686".toList⟩ }
  join dir name := dir ++ '\\' :: name
  basename path := (path.splitOn '/').getLast?.getD []
  dirname path := path.takeWhile (· ≠ '/')
  dirs path := if path = "d:".toList then some ⟨"cd".toList, mediumFile "final".toList⟩ else none
  installDir := "c:\\install".toList
  backupDir := "c:\\backup".toList
  installBootDir := "c:\\install\\boot".toList
  cdSearchPaths := ["d:".toList]
  localIsos _ := ["e:\\startos.iso".toList]
  checkArch := true
  skipMd5Check := false
  distrosDict _ := none
  md5 := id
  readError _ := none
  copyError _ _ := none
  download _ url := .ok (url, if url = "url/meta".toList then "iso".toList else "iso meta".toList)
  verifyGpgSignature _ _ := .ok true
  parseMetalink content := .ok ⟨[[⟨"md5".toList, content⟩]]⟩
  outside _ _ := .ok ()

/-- No CD is known yet; on the second drive there is an ISO with the image `iso`. -/
def world : World where
  files path := if path = "e:\\startos.iso".toList then some "iso".toList else none
  downloads _ := none
  clock := 0
  caches := .empty
  boot _ := none
  distro := some distro
  cdPath := none
  cdDistro := none
  isoPath := none
  isoDistro := none
  installationIso := none
  metalink _ := none
  isoMd5Hashes _ := none

end Sample

end Swinst.Retrieval
