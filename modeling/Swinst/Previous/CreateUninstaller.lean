import Swinst.Data.Paths
import Swinst.Previous.Backup

/-! Does the search for a previous installation find the uninstaller that `create_uninstaller` has written? -/

namespace Swinst.Previous

/-- `os.path.splitext(path)[-1]` -/
def extension (path : Text) : Text :=
  let name := path.reverse.takeWhile fun c => c ≠ '\\' ∧ c ≠ '/'
  let ext := name.takeWhile (· ≠ '.')
  match name.drop ext.length with
  | _ :: stem => if stem.any (· ≠ '.') then '.' :: ext.reverse else []
  | [] => []

/-- `shutil.copyfile` -/
def World.copyfile (w : World) (src dst : Text) : Except PyError World :=
  if normPath src = normPath dst then
    .error (.exception ("`" ++ String.ofList src ++ "` and `" ++ String.ofList dst ++ "` are the same file"))
  else
    match w.file? src with
    | some content => if w.isDir dst then .error .ioError else .ok (w.put dst (some content))
    | none => .error .ioError

/-- `uninstaller_path` -/
def TargetDir.uninstaller (target : TargetDir) : Text := join target.path "uninstall.exe".toList

/-- `create_uninstaller`, with the values that are read again -/
def createUninstaller (c : Computer) (target : TargetDir) (w : World) : Except PyError World := do
  let w ← if extension c.originalExe = ".exe".toList then w.copyfile c.originalExe target.uninstaller else .ok w
  return { w with uninstallString := some target.uninstaller, installationDir := some target.path }

/-- The search of `fetch_basic_info` ends with this uninstaller. -/
def FindsUninstaller (c : Computer) (w : World) (uninstaller : Text) : Prop :=
  ∃ path ∈ (fetchBasicInfo c w).previousUninstallerPath, normPath path = normPath uninstaller

variable {c : Computer} {w w' : World} {target : TargetDir}

theorem file?_copyfile {src dst : Text} (h : w.copyfile src dst = .ok w') :
    (w'.file? dst).isSome = true := by
  rw [World.copyfile] at h
  split at h
  · cases h
  split at h
  · split at h
    · cases h
    · obtain rfl := Except.ok.inj h
      rw [World.file?_put_self]
      rfl
  · cases h

theorem file?_createUninstaller (hexe : extension c.originalExe = ".exe".toList)
    (h : createUninstaller c target w = .ok w') : (w'.file? target.uninstaller).isSome = true := by
  rw [createUninstaller, if_pos hexe] at h
  obtain ⟨w₁, hcopy, h⟩ := bind_eq_ok h
  have hfile := file?_copyfile hcopy
  obtain rfl := Except.ok.inj h
  exact hfile

/-- Files with different names are different, whatever the directories are. -/
theorem normPath_join_ne {a b : Name} (h : a.text.lower ≠ b.text.lower) (dir dir' : Text) :
    normPath (join dir a.text) ≠ normPath (join dir' b.text) := by
  rw [a.normPath_join, b.normPath_join]
  exact fun heq => h (Paths.child_inj a.backslash_not_mem b.backslash_not_mem heq).2

theorem normPath_uninstaller_ne (dir dir' : Text) :
    normPath (join dir "uninstaller.exe".toList) ≠ normPath (join dir' "uninstall.exe".toList) :=
  normPath_join_ne (a := ⟨_, by decide, by decide⟩) (b := ⟨_, by decide, by decide⟩) (by decide) dir dir'

/-- `chk_uninstaller` ends with an existing file of the registry, with a file `uninstaller.exe`, or with what the
registry names. -/
theorem chkUninstaller_cases {p p2 : Option Text} {path : Text} (h : chkUninstaller w p p2 = some path) :
    path ∈ w.uninstallString ∨ ∃ dir, path = join dir "uninstaller.exe".toList := by
  rw [chkUninstaller] at h
  split at h
  · next path' hpath =>
    obtain rfl := Option.some.inj h
    obtain ⟨hgiven, -⟩ := Option.filter_eq_some_iff.mp hpath
    exact .inl (Option.filter_eq_some_iff.mp hgiven).1
  · dsimp only at h
    split at h
    · next path' hpath =>
      obtain rfl := Option.some.inj h
      obtain ⟨dir, -, rfl⟩ := Option.map_eq_some_iff.mp (Option.filter_eq_some_iff.mp hpath).1
      exact .inr ⟨dir, rfl⟩
    · exact .inl h

/-- The uninstaller is never found again: the search looks for a file of another name. -/
theorem not_finds_created (c c' : Computer) (target : TargetDir) (w w' w'' : World)
    (hexe : extension c.originalExe = ".exe".toList) (hcreate : createUninstaller c target w = .ok w')
    (hcopy : w''.file? target.uninstaller = w'.file? target.uninstaller)
    (hregistry : ∀ path ∈ w''.uninstallString, w''.file? path = none) :
    ¬ FindsUninstaller c' w'' target.uninstaller := by
  rintro ⟨path, hpath, hnorm⟩
  rcases chkUninstaller_cases hpath with hpath | ⟨dir, rfl⟩
  · have hfile : w''.file? target.uninstaller = none := by
      have hnone := hregistry path hpath
      rwa [World.file?, hnorm] at hnone
    have hsome := file?_createUninstaller hexe hcreate
    rw [← hcopy, hfile] at hsome
    cases hsome
  · exact normPath_uninstaller_ne dir target.path hnorm

private theorem lettered_c : ∀ d ∈ [(⟨"C:".toList, .hd⟩ : Drive)], ∃ c : Char, d.path = [c, ':'] := by
  rw [List.forall_mem_singleton]
  exact ⟨'C', rfl⟩

/-- The program runs from a CD, and installs to the drive `C:`. -/
private def cdMachine : Computer where
  drives := [⟨"C:".toList, .hd⟩]
  lettered := lettered_c
  originalExe := "D:\\wubi.exe".toList
  inst := "wubi.exe".toList
  bootEntry := fun _ => false

private theorem plain_loop : ∀ c ∈ "c:\\startos-loop".toList.getLast?, c ≠ '\\' ∧ c ≠ '/' := by
  intro c hc
  obtain rfl : 'p' = c := Option.some.inj hc
  decide

private def loopOnC : TargetDir := ⟨"c:\\startos-loop".toList, plain_loop⟩

private def cdWorld : World where
  dirs := fun q => q = "c:\\startos-loop".toList
  files := fun q => if q = "d:\\wubi.exe".toList then some "MZ".toList else none
  installationDir := none
  uninstallString := none

/-- The registry is lost, and all else is as it was left. -/
private def lostRegistry : World where
  dirs := cdWorld.dirs
  files := (cdWorld.put loopOnC.uninstaller (some "MZ".toList)).files
  installationDir := none
  uninstallString := none

private theorem createUninstaller_cd : createUninstaller cdMachine loopOnC cdWorld = .ok
    { lostRegistry with
      uninstallString := some loopOnC.uninstaller, installationDir := some loopOnC.path } := by
  have hcopy : cdWorld.copyfile cdMachine.originalExe loopOnC.uninstaller =
      .ok (cdWorld.put loopOnC.uninstaller (some "MZ".toList)) := by
    rw [World.copyfile, if_neg (by decide)]
    have hfile : cdWorld.file? cdMachine.originalExe = some "MZ".toList := by decide
    rw [hfile]
    exact if_neg (by decide)
  rw [createUninstaller, if_pos (by decide), hcopy]
  rfl

theorem not_finds_cd : ¬ FindsUninstaller cdMachine lostRegistry loopOnC.uninstaller :=
  not_finds_created cdMachine cdMachine loopOnC cdWorld _ lostRegistry (by decide) createUninstaller_cd rfl
    (fun _ h => by cases h)

/-- The directory is found, and the uninstaller is in it, but not found. -/
theorem uninstaller_missed : (createUninstaller cdMachine loopOnC cdWorld).toOption.bind
      (·.file? loopOnC.uninstaller) = some "MZ".toList ∧
    lostRegistry.file? loopOnC.uninstaller = some "MZ".toList ∧
    (fetchBasicInfo cdMachine lostRegistry).preInstallPath = some loopOnC.path ∧
    (fetchBasicInfo cdMachine lostRegistry).previousUninstallerPath = none := by
  rw [createUninstaller_cd]
  decide

end Swinst.Previous
