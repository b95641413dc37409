import Swinst.Templates.FillIn

/-! `modify_grub_configuration` of `backends/common/backend.py`, and what it and `create_preseed`
write in terms of the simultaneous substitution. -/

namespace Swinst.Templates

/-- The fields of `info` that `modify_grub_configuration` reads. -/
structure GrubInfo where
  dataDir : Text
  installBootDir : Text
  isoPath : Option PyStr
  /-- `target_drive.is_fat()` -/
  isFat : Bool
  runTask : Option Text
  flag : Bool
  kernel : PyStr
  initrd : PyStr
  locale : PyStr
  keyboardLayout : PyStr
  keyboardVariant : PyStr

def rootflags (info : GrubInfo) : String :=
  if info.isFat then "rootflags=sync" else "rootflags=syncio"

def normalModeTitle (info : GrubInfo) : String :=
  if info.runTask = some "cd_boot".toList then "StartOS LiveCD"
  else if info.flag then "StartOS"
  else "StartOS LiveCD"

def installMode (info : GrubInfo) : String :=
  if info.runTask = some "cd_boot".toList then ""
  else if info.flag then "install-automatic"
  else ""

/-- `dic` -/
def grubDic (info : GrubInfo) (isopath : PyStr) : List (Text × PyStr) :=
  [("title1".toList, .bytes "Completing the StartOS installation.".toList),
    ("title2".toList, .bytes "For more installation boot options, press `ESC' now...".toList),
    ("normal_mode_title".toList, .bytes (normalModeTitle info).toList),
    ("kernel".toList, info.kernel.map Text.unixPath),
    ("iso_path".toList, isopath),
    ("install_mode".toList, .bytes (installMode info).toList),
    ("locale".toList, info.locale),
    ("keyboard_layout".toList, info.keyboardLayout),
    ("keyboard_variant".toList, info.keyboardVariant),
    ("rootflags".toList, .bytes (rootflags info).toList),
    ("initrd".toList, info.initrd.map Text.unixPath)]

/-- `isopath`; the name is not bound without an ISO -/
def isopath (info : GrubInfo) : Except PyError PyStr :=
  match info.isoPath.filter (·.text ≠ []) with
  | none => .error .nameError
  | some path => .ok (path.map Text.unixPath)

def grubTemplate (env : Env) (info : GrubInfo) : Text :=
  env.join info.dataDir "grub.install.cfg".toList

/-- The text that `modify_grub_configuration` writes. -/
def grubContent (env : Env) (info : GrubInfo) (files : Files) : Except PyError PyStr := do
  let isopath ← isopath info
  match readFile files (grubTemplate env info) with
  | none => .error .attributeError
  | some template => fillIn (env.items (grubDic info isopath)) (.bytes template)

def grubConfigFile (env : Env) (info : GrubInfo) : Text :=
  env.join (env.join info.installBootDir "grub".toList) "grub.cfg".toList

/-- `modify_grub_configuration` -/
def modifyGrubConfiguration (env : Env) (info : GrubInfo) (files : Files) :
    Except PyError Unit × Files :=
  match grubContent env info files with
  | .error e => (.error e, files)
  | .ok content => writeFile (grubConfigFile env info) content files

/-! ## What is written -/

section Written

variable {env : Env} {files : Files}

theorem writeFile_text {path : Text} (hpath : path ≠ []) {content : PyStr}
    (h : (writeFile path content files).1 = .ok ()) :
    (writeFile path content files).2 path = some content.text := by
  rw [writeFile, if_neg hpath] at h ⊢
  cases hencode : content.encode with
  | error e =>
    rw [hencode] at h
    cases h
  | ok text =>
    rw [PyStr.encode_text hencode]
    exact Function.update_self ..

theorem preseedContent_fillIn {salt : Salt} {info : Info} {content : PyStr}
    (h : preseedContent env salt info files = .ok content) : ∃ part password template,
      partitioning info = .ok part ∧ md5Password env.md5 salt info.password = .ok password ∧
      readFile files (templateFile env info files) = some template ∧
      fillIn (env.items (dic info password part)) (.bytes template) = .ok content := by
  obtain ⟨part, hpart, h⟩ := bind_eq_ok h
  obtain ⟨password, hpassword, h⟩ := bind_eq_ok h
  cases hread : readFile files (templateFile env info files) with
  | none =>
    rw [hread] at h
    cases h
  | some template =>
    rw [hread] at h
    exact ⟨part, password, template, hpart, hpassword, rfl, h⟩

theorem grubContent_fillIn {info : GrubInfo} {content : PyStr}
    (h : grubContent env info files = .ok content) : ∃ iso template,
      isopath info = .ok iso ∧ readFile files (grubTemplate env info) = some template ∧
      fillIn (env.items (grubDic info iso)) (.bytes template) = .ok content := by
  obtain ⟨iso, hiso, h⟩ := bind_eq_ok h
  cases hread : readFile files (grubTemplate env info) with
  | none =>
    rw [hread] at h
    cases h
  | some template =>
    rw [hread] at h
    exact ⟨iso, template, hiso, rfl, h⟩

/-- `create_preseed` writes the template with all placeholders replaced at once. -/
theorem createPreseed_substitutes {salt : Salt} {info : Info}
    (h : (createPreseed env salt info files).1 = .ok ()) : ∃ part password template,
      partitioning info = .ok part ∧ md5Password env.md5 salt info.password = .ok password ∧
      readFile files (templateFile env info files) = some template ∧
      let v := valueOf (dic info password part)
      (preseedKeys.Untouched v ∨ preseedKeys.NoneBegun v ∧ preseedKeys.Isolated template →
        (createPreseed env salt info files).2 (preseedFile env info) =
          some (preseedKeys.substitute v template)) := by
  rw [createPreseed] at h ⊢
  cases hcontent : preseedContent env salt info files with
  | error e =>
    rw [hcontent] at h
    cases h
  | ok content =>
    rw [hcontent] at h
    obtain ⟨part, password, template, hpart, hpassword, hread, hfill⟩ :=
      preseedContent_fillIn hcontent
    refine ⟨part, password, template, hpart, hpassword, hread, fun hclean => ?_⟩
    have htext := fillIn_substitute rfl (env.items_perm _) hclean hfill
    exact (writeFile_text (env.join_ne _ _) h).trans (congrArg some htext)

/-- So does `modify_grub_configuration`. -/
theorem modifyGrubConfiguration_substitutes {info : GrubInfo}
    (h : (modifyGrubConfiguration env info files).1 = .ok ()) : ∃ iso template,
      isopath info = .ok iso ∧ readFile files (grubTemplate env info) = some template ∧
      let v := valueOf (grubDic info iso)
      (grubKeys.Untouched v ∨ grubKeys.NoneBegun v ∧ grubKeys.Isolated template →
        (modifyGrubConfiguration env info files).2 (grubConfigFile env info) =
          some (grubKeys.substitute v template)) := by
  rw [modifyGrubConfiguration] at h ⊢
  cases hcontent : grubContent env info files with
  | error e =>
    rw [hcontent] at h
    cases h
  | ok content =>
    rw [hcontent] at h
    obtain ⟨iso, template, hiso, hread, hfill⟩ := grubContent_fillIn hcontent
    refine ⟨iso, template, hiso, hread, fun hclean => ?_⟩
    have htext := fillIn_substitute rfl (env.items_perm _) hclean hfill
    exact (writeFile_text (env.join_ne _ _) h).trans (congrArg some htext)

end Written

end Swinst.Templates
