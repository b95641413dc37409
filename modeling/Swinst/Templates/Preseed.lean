import Swinst.Templates.Password
import Swinst.Templates.Placeholders

/-! What `InstallationPage.on_install` accepts, and `create_preseed` of `backends/common/backend.py`
with the values that it leaves in `info`. -/

namespace Swinst.Templates

/-- The fields of `info` that `create_preseed` reads. -/
structure Info where
  dataDir : Text
  custominstall : Text
  distroName : Text
  packages : PyStr
  disksDir : PyStr
  rootSizeMb : Int
  swapSizeMb : Int
  homeSizeMb : Int
  usrSizeMb : Int
  timezone : PyStr
  hostUsername : PyStr
  userFullName : PyStr
  userDirectory : PyStr
  username : PyStr
  password : PyStr
  instmod : PyStr
  autologin : PyStr

/-! ## The page -/

def reservedUsernames : List Text :=
  ["root", "daemon", "bin", "sys", "sync", "games", "man", "lp", "mail", "news", "uucp", "proxy",
    "www-data", "backup", "list", "irc", "gnats", "nobody", "adm", "tty", "disk", "kmem", "dialout",
    "fax", "voice", "cdrom", "floppy", "tape", "sudo", "audio", "dip", "operator", "src", "shadow",
    "utmp", "video", "sasl", "plugdev", "staff", "users", "nogroup", "netplan", "ftn", "mysql",
    "tac-plus", "alias", "qmail", "qmaild", "qmails", "qmailr", "qmailq", "qmaill", "qmailp",
    "asterisk", "vpopmail", "vchkpw", "Debian-exim", "admin", "bind", "crontab", "cupsys", "dcc",
    "dhcp", "dictd", "dovecot", "fetchmail", "firebird", "ftp", "fuse", "gdm", "haldaemon",
    "hplilp", "identd", "jwhois", "klog", "lpadmin", "messagebus", "mythtv", "netdev", "powerdev",
    "radvd", "saned", "sbuild", "scanner", "slocate", "ssh", "sshd", "ssl-cert", "sslwrap", "statd",
    "syslog", "telnetd", "tftpd"].map String.toList

/-- What the controls of the page hold; the text of an empty field is `None`. -/
structure InstallationPage where
  installationSizeMb : Int
  username : Option Text
  password1 : Option Text
  password2 : Option Text
  instmod : Bool
  autologin : Bool

namespace InstallationPage

/-- `error_message` in `on_install`. The tests of the characters of the user name are inside a string
literal. -/
def errorMessage (page : InstallationPage) : String :=
  let username := page.username.getD []
  let password1 := page.password1.getD []
  if username = [] then "Please enter a valid username"
  else if username ∈ reservedUsernames then
    "The selected username is reserved, please select a different one."
  else if password1 = [] then "Please enter a valid password."
  else if ' ' ∈ password1 then "Please do not use spaces in the password."
  else if page.password1 ≠ page.password2 then "Passwords do not match."
  else ""

/-- Does `on_install` come to its end? -/
def Accepted (page : InstallationPage) : Prop :=
  page.installationSizeMb ≠ 0 ∧ page.errorMessage = ""

instance (page : InstallationPage) : Decidable page.Accepted :=
  inferInstanceAs (Decidable (_ ∧ _))

def checked (b : Bool) : PyStr := .bytes (if b then "true" else "false").toList

/-- `on_install`; `none` when it returns early. -/
def onInstall (page : InstallationPage) (info : Info) : Option Info :=
  if page.Accepted then
    some { info with
      username := .unicode (page.username.getD [])
      password := .unicode (page.password1.getD [])
      instmod := checked page.instmod
      autologin := checked page.autologin }
  else none

end InstallationPage

/-! ## `create_preseed` -/

abbrev Files := Text → Option Text

structure Env where
  md5 : Text → Digest
  /-- `join_path`, the absolute path -/
  join : Text → Text → Text
  join_ne : ∀ dir name, join dir name ≠ []
  /-- the order in which a dictionary gives its items -/
  items : List (Text × PyStr) → List (Text × PyStr)
  items_perm : ∀ dic, (items dic).Perm dic

/-- An MD5 that is constant, and paths that are joined as they are. -/
def plainEnv : Env where
  md5 _ := Vector.replicate 16 0
  join dir name := dir ++ '\\' :: name
  join_ne dir name := by simp
  items dic := dic
  items_perm _ := .refl _

/-- `read_file` -/
def readFile (files : Files) (path : Text) : Option Text := if path = [] then none else files path

/-- `write_file`; opening the file has emptied it when writing fails. -/
def writeFile (path : Text) (s : PyStr) (files : Files) : Except PyError Unit × Files :=
  if path = [] then (.ok (), files)
  else
    match s.encode with
    | .error e => (.error e, Function.update files path (some []))
    | .ok text => (.ok (), Function.update files path (some text))

/-- `template_file` -/
def templateFile (env : Env) (info : Info) (files : Files) : Text :=
  let own := env.join info.dataDir ("preseed.".toList ++ info.distroName)
  if (files own).isSome then own else env.join info.dataDir "preseed.lupin".toList

/-- The line of one disk, `mb` megabytes at least: nothing if its size is zero. -/
def diskLine (disksDir : PyStr) (name : String) (mb : Int) (size : Int) (rest : String) :
    Except PyError PyStr :=
  if size = 0 then .ok (.bytes [])
  else do
    let disk ← disksDir.append (.bytes name.toList)
    PyStr.concat [.bytes "  ".toList, disk, .bytes " ".toList, .bytes (Text.decimal mb),
      .bytes " ".toList, .bytes (Text.decimal size), .bytes " ".toList,
      .bytes (Text.decimal size), .bytes rest.toList]

def filesystem (mountpoint : String) : String :=
  " $default_filesystem method\x7b format \x7d format\x7b \x7d use_filesystem\x7b \x7d " ++
    "$default_filesystem\x7b \x7d mountpoint\x7b " ++ mountpoint ++ " \x7d . \\\n"

def partitioning (info : Info) : Except PyError PyStr := do
  let disksDir ← (info.disksDir.map Text.unixPath).append (.bytes "/".toList)
  let root ← diskLine disksDir "root.disk" 3000 info.rootSizeMb (filesystem "/")
  let swap ← diskLine disksDir "swap.disk" 100 info.swapSizeMb
    " linux-swap method\x7b swap \x7d format\x7b \x7d . \\\n"
  let home ← diskLine disksDir "home.disk" 100 info.homeSizeMb (filesystem "/home")
  let usr ← diskLine disksDir "usr.disk" 100 info.usrSizeMb (filesystem "/usr")
  PyStr.concat [.bytes "d-i partman-auto/disk string LIDISK\n".toList,
    .bytes "d-i partman-auto/method string loop\n".toList,
    .bytes "d-i partman-auto-loop/partition string LIPARTITION\n".toList,
    .bytes "d-i partman-auto-loop/recipe string \\\n".toList, root, swap, home, usr,
    .bytes "\n".toList]

/-- `dic` -/
def dic (info : Info) (password partitioning : PyStr) : List (Text × PyStr) :=
  [("timezone".toList, info.timezone),
    ("password".toList, password),
    ("user_full_name".toList, info.userFullName),
    ("distro_packages".toList, info.packages),
    ("host_username".toList, info.hostUsername),
    ("username".toList, info.username),
    ("partitioning".toList, partitioning),
    ("user_directory".toList, info.userDirectory.map fun s => (s.replaceChar '\\' '/').drop 2),
    ("safe_host_username".toList, info.hostUsername.map (·.replaceChar ' ' '+')),
    ("host_os_name".toList, .bytes "Windows XP Professional".toList),
    ("instmod".toList, info.instmod),
    ("loginauto".toList, info.autologin)]

/-- The loop over `dic.items()`. -/
def fillIn (items : List (Text × PyStr)) (template : PyStr) : Except PyError PyStr :=
  items.foldlM (fun content item => content.replace (.bytes (placeholder item.1)) item.2) template

/-- The text that `create_preseed` writes. -/
def preseedContent (env : Env) (salt : Salt) (info : Info) (files : Files) :
    Except PyError PyStr := do
  let partitioning ← partitioning info
  let password ← md5Password env.md5 salt info.password
  match readFile files (templateFile env info files) with
  | none => .error .attributeError
  | some template => fillIn (env.items (dic info password partitioning)) (.bytes template)

def preseedFile (env : Env) (info : Info) : Text := env.join info.custominstall "preseed.cfg".toList

/-- `create_preseed` -/
def createPreseed (env : Env) (salt : Salt) (info : Info) (files : Files) :
    Except PyError Unit × Files :=
  match preseedContent env salt info files with
  | .error e => (.error e, files)
  | .ok content => writeFile (preseedFile env info) content files

end Swinst.Templates
