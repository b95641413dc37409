import Swinst.Media.Md5sums
import Swinst.Retrieval.Frames

/-! `set_distro_from_arch` within `check_cd` and `check_iso`: which distro is selected after a medium
was accepted, and whether the check can go on with it. -/

namespace Swinst.Retrieval

open TaskList

variable (env : Env)

/-- `self.info.distros_dict`, in which the last of the distros with one key stays -/
def distrosDict (distros : List Distro) (key : Text × Text) : Option Distro :=
  distros.reverse.find? fun d => (d.name.lower, d.arch) = key

/-- `get_arch`, by what `cpuid.check_64bit()` says -/
def getArch (check64bit : Bool) : Text := if check64bit then "amd64".toList else "i686".toList

/-- `self.info.check_arch = (self.info.arch == "i686")` -/
def checkArch (arch : Text) : Bool := arch = "i686".toList

/-- `self.info.distro.is_valid_cd(cd_path, check_arch)` -/
def distroIsValidCd (cdPath : Text) (checkArch : Bool) : Code Bool := fun w =>
  match w.distro with
  | none => (.error .attributeError, w)
  | some d =>
    let (valid, w) := w.isValidCd env d cdPath checkArch
    (.ok valid, w)

/-- `self.info.distro`, of which an attribute is read -/
def currentDistro : Code Distro := fun w =>
  match w.distro with
  | none => (.error .attributeError, w)
  | some d => (.ok d, w)

namespace Backend

/-- `check_file` for a file of a CD -/
def checkFile (cdPath relpath md5sums : Text) : Function :=
  let file name := (env.dirs cdPath).bind fun disc => disc.file name
  .code (fun w =>
    (Md5sums.referenceMd5 (fun _ => file md5sums) relpath (env.join cdPath md5sums), w)) fun reference =>
  match file relpath with
  -- `get_file_md5` returns `None`
  | none => .ret (some (.bool false))
  | some content =>
    match env.readError (env.join cdPath relpath) with
    | some e => .raise e
    | none => .finish (.ret (some (.bool (decide (env.md5 content = reference)))))

/-- The loop of `check_cd`; `md5sums_file` is made before it -/
def checkFiles (cdPath md5sums : Text) : List Text → Function
  | [] => .ret (some (.bool true))
  | relPath :: relPaths =>
    .code currentDistro fun d =>
    if relPath = d.md5sums then checkFiles cdPath md5sums relPaths
    else
      .subtask "check_file" true (checkFile env cdPath relPath md5sums) fun r =>
      if Value.truthy r then checkFiles cdPath md5sums relPaths else .ret (some (.bool false))

/-- `check_cd` -/
def checkCd (cdPath : Text) : Function :=
  .code (distroIsValidCd env cdPath false) fun valid =>
  if !valid then .ret (some (.bool false))
  else
    .code (setDistroFromArch env cdPath) fun _ =>
    if env.skipMd5Check then .ret (some (.bool true))
    else .code currentDistro fun d => checkFiles env cdPath d.md5sums d.requiredFiles

end Backend

/-- The two kinds of a medium. -/
inductive Kind where
  | cd | iso

/-- `is_valid_cd` or `is_valid_iso` without the check of the architecture -/
def Kind.accept (path : Text) : Kind → Code Bool
  | cd => distroIsValidCd env path false
  | iso => distroIsValidIso env path false

/-- `check_cd` or `check_iso` -/
def Kind.check (path : Text) : Kind → Function
  | cd => Backend.checkCd env path
  | iso => checkIso env path

/-- The selected distro accepts the medium, whose info line says `info`. -/
structure Accepted (kind : Kind) (path : Text) (w : World) (d : Distro) (info : DiskInfo) :
    Prop where
  distro : w.distro = some d
  valid : (kind.accept env path w).1 = .ok true
  info : ((kind.accept env path w).2.getInfo env d path).1 = some info

/-- The world that `set_distro_from_arch` leaves after that. -/
def adapted (kind : Kind) (path : Text) (w : World) : World :=
  (setDistroFromArch env path (kind.accept env path w).2).2

/-- Subtasks of the checks do not select another distro. -/
def SameDistro (w w' : World) : Prop := w'.distro = w.distro

/-- The selected distro becomes one of the list, that of the medium's architecture if it is listed,
and the check comes to its end without an `AttributeError` of its own. -/
structure Adapts (distros : List Distro) (kind : Kind) (path : Text) (w : World) (d : Distro)
    (arch : Text) : Prop where
  distro : ∃ d' ∈ distros, (adapted env kind path w).distro = some d' ∧
    ((∃ e ∈ distros, e.name = d.name ∧ e.arch = arch) → d'.arch = arch)
  goesOn : (kind.check env path).EndsIn SameDistro (· ≠ .error .attributeError) w

/-- Is there nothing to adapt, or a distro to adapt to? -/
def Covered (distros : List Distro) (d : Distro) (arch : Text) : Prop :=
  d.arch = arch ∨
    if env.checkArch then ¬ ∃ e ∈ distros, e.name = d.name ∧ e.arch = arch
    else ∃ e ∈ distros, e.name.lower = d.name.lower ∧ e.arch = arch

variable {env}

theorem distrosDict_eq_some {distros : List Distro} {key : Text × Text} {d : Distro}
    (h : distrosDict distros key = some d) : d ∈ distros ∧ d.arch = key.2 := by
  have hkey : (d.name.lower, d.arch) = key := by simpa using List.find?_some h
  exact ⟨List.mem_reverse.mp (List.mem_of_find?_eq_some h), congrArg Prod.snd hkey⟩

theorem distrosDict_eq_none {distros : List Distro} {name arch : Text} :
    distrosDict distros (name, arch) = none ↔ ¬ ∃ e ∈ distros, e.name.lower = name ∧ e.arch = arch := by
  simp [distrosDict, List.find?_eq_none]

variable (env) in
/-- The distro that `set_distro_from_arch` selects. -/
def chosen (d : Distro) (arch : Text) : Option Distro :=
  if env.checkArch ∨ d.arch = arch then some d else env.distrosDict (d.name.lower, arch)

theorem distro_accept (kind : Kind) (path : Text) (w : World) :
    (kind.accept env path w).2.distro = w.distro := by
  cases kind with
  | iso => exact distro_distroIsValidIso path false w
  | cd =>
    show (distroIsValidCd env path false w).2.distro = w.distro
    unfold distroIsValidCd
    split <;> rfl

theorem Accepted.set {kind : Kind} {path : Text} {w : World} {d : Distro} {info : DiskInfo}
    (h : Accepted env kind path w d info) :
    setDistroFromArch env path (kind.accept env path w).2 = (.ok (), adapted env kind path w) ∧
      (adapted env kind path w).distro = chosen env d info.arch := by
  have hd : (kind.accept env path w).2.distro = some d := (distro_accept kind path w).trans h.distro
  have hinfo := h.info
  rw [adapted]
  generalize (kind.accept env path w).2 = w' at hd hinfo
  obtain ⟨w'', hget⟩ : ∃ w'', w'.getInfo env d path = (some info, w'') :=
    ⟨_, Prod.ext hinfo rfl⟩
  have hd'' : w''.distro = some d := by
    obtain rfl : (w'.getInfo env d path).2 = w'' := congrArg Prod.snd hget
    exact hd
  by_cases hcheck : env.checkArch
  · simp [setDistroFromArch, chosen, hcheck, hd]
  · by_cases harch : d.arch = info.arch
    · simp [setDistroFromArch, chosen, hcheck, hd, hget, harch, hd'']
    · simp [setDistroFromArch, chosen, hcheck, hd, hget, harch]

/-- A valid medium at an absolute path has been accepted for its info line. -/
theorem Accepted.of_valid {kind : Kind} {path : Text} {w : World} {d : Distro}
    (habs : env.platform.abspath path = path) (hd : w.distro = some d)
    (hv : (kind.accept env path w).1 = .ok true) : ∃ info, Accepted env kind path w d info := by
  cases kind with
  | cd =>
    simp only [Kind.accept, distroIsValidCd, hd] at hv
    obtain ⟨info, hinfo⟩ := Distro.info_of_isValidCd (Except.ok.inj hv)
    refine ⟨info, hd, ?_, ?_⟩
    · simpa only [Kind.accept, distroIsValidCd, hd] using hv
    · simp only [Kind.accept, distroIsValidCd, hd]
      rwa [habs] at hinfo
  | iso =>
    simp only [Kind.accept, distroIsValidIso, hd] at hv
    obtain ⟨info, hinfo⟩ := Distro.info_of_isValidIso hv
    refine ⟨info, hd, ?_, ?_⟩
    · simpa only [Kind.accept, distroIsValidIso, hd] using hv
    · simp only [Kind.accept, distroIsValidIso, hd]
      rwa [habs] at hinfo

/-! ## The checks go on -/

theorem goesOn_checkIsoMd5 (isoPath : Text) (m : Metalink) (w : World) :
    (checkIsoMd5 env isoPath m).EndsIn SameDistro (· ≠ .error .attributeError) w := by
  have hmd5 : expectedMd5 m ≠ .error .attributeError := by
    unfold expectedMd5
    split <;> simp
  have hok (v : Option Value) : Except.ok v ≠ .error PyError.attributeError := by simp
  simp only [checkIsoMd5, Prog.code, Prog.EndsIn]
  split
  · next md5sum _ =>
    cases md5sum with
    | none => exact hok _
    | some md5sum =>
      cases md5sum with
      | nil => exact hok _
      | cons c md5sum =>
        simp only [Prog.read, Prog.EndsIn]
        split
        · exact fun _ _ _ => hok _
        · exact fun _ _ _ => hok _
        · exact hok _
  · next e he =>
    intro h
    cases h
    exact hmd5 he

theorem goesOn_checkIsoMetalink (isoPath : Text) {w : World} {d : Distro} (hd : w.distro = some d) :
    (checkIsoMetalink env isoPath).EndsIn SameDistro (· ≠ .error .attributeError) w := by
  have hcurrent {w : World} (hd : w.distro = some d) :
      w.currentMetalink = .ok (w.metalink d) := by rw [World.currentMetalink, hd]
  refine .code (congrArg (·, w) (hcurrent hd)) ?_
  cases w.metalink d with
  | some m => exact goesOn_checkIsoMd5 isoPath m w
  | none =>
    intro v w' hsame
    refine .code (congrArg (·, w') (hcurrent (hsame.trans hd))) ?_
    cases w'.metalink d with
    | some m => exact goesOn_checkIsoMd5 isoPath m w'
    | none => exact nofun

theorem currentDistro_eq {w : World} {d : Distro} (hd : w.distro = some d) :
    currentDistro w = (.ok d, w) := by rw [currentDistro, hd]

theorem goesOn_checkFiles (cdPath md5sums : Text) (relPaths : List Text) {w : World} {d : Distro}
    (hd : w.distro = some d) : (Backend.checkFiles env cdPath md5sums relPaths).EndsIn SameDistro
      (· ≠ .error .attributeError) w := by
  induction relPaths generalizing w with
  | nil => exact nofun
  | cons relPath relPaths ih =>
    refine .code (currentDistro_eq hd) ?_
    split
    · exact ih hd
    · intro v w' hsame
      dsimp only
      split
      · exact ih (hsame.trans hd)
      · exact nofun

/-- A check that has a distro after the adaption raises no `AttributeError`. -/
theorem Accepted.goesOn {kind : Kind} {path : Text} {w : World} {d d' : Distro} {info : DiskInfo}
    (h : Accepted env kind path w d info) (hd' : (adapted env kind path w).distro = some d') :
    (kind.check env path).EndsIn SameDistro (· ≠ .error .attributeError) w := by
  have hvalid : kind.accept env path w = (.ok true, (kind.accept env path w).2) :=
    Prod.ext h.valid rfl
  cases kind with
  | cd =>
    refine .code hvalid ?_
    rw [if_neg (by decide)]
    refine .code h.set.1 ?_
    split
    · exact nofun
    · refine .code (currentDistro_eq hd') ?_
      exact goesOn_checkFiles _ _ _ hd'
  | iso =>
    refine .code hvalid ?_
    rw [if_neg (by decide)]
    refine .code h.set.1 ?_
    split
    · exact nofun
    · exact goesOn_checkIsoMetalink _ hd'

/-! ## Subtasks of the checks -/

theorem sameDistro_getMetalinkBody (w : World) : SameDistro w (getMetalinkBody env w).2 := by
  obtain ⟨w', hf, he | ⟨d, m, -, he⟩⟩ := getMetalinkBody_cases env w
  · rw [he]
    exact hf.distro
  · rw [he]
    exact hf.distro

theorem calls_checkIsoMd5 (isoPath : Text) (m : Metalink) :
    (checkIsoMd5 env isoPath m).Calls SameDistro := by
  refine .code _ fun md5sum => ?_
  split
  · trivial
  · trivial
  intro w
  dsimp only
  split
  · exact ⟨steps_getFileMd5 (R := SameDistro) (fun _ => rfl) isoPath, fun _ _ => trivial⟩
  · exact ⟨steps_getFileMd5 (R := SameDistro) (fun _ => rfl) isoPath, fun _ _ => trivial⟩
  · trivial

theorem steps_checkFile (cdPath relpath md5sums : Text) :
    (Backend.checkFile env cdPath relpath md5sums).Steps SameDistro := by
  refine .code (fun _ => rfl) fun reference => ?_
  split
  · trivial
  · split <;> trivial

theorem calls_checkFiles (cdPath md5sums : Text) (relPaths : List Text) :
    (Backend.checkFiles env cdPath md5sums relPaths).Calls SameDistro := by
  induction relPaths with
  | nil => trivial
  | cons relPath relPaths ih =>
    refine .code _ fun d => ?_
    split
    · exact ih
    · refine ⟨steps_checkFile _ _ _, fun r => ?_⟩
      dsimp only
      split
      · exact ih
      · trivial

/-- No subtask of a check selects another distro. -/
theorem Kind.calls_check (kind : Kind) (path : Text) : (kind.check env path).Calls SameDistro := by
  cases kind with
  | cd =>
    refine .code _ fun valid => ?_
    split
    · trivial
    refine .code _ fun _ => ?_
    split
    · trivial
    · exact .code _ fun d => calls_checkFiles _ _ _
  | iso =>
    refine .code _ fun valid => ?_
    split
    · trivial
    refine .code _ fun _ => ?_
    split
    · trivial
    refine .code _ fun m => ?_
    split
    · exact calls_checkIsoMd5 _ _
    refine ⟨.code (fun w => sameDistro_getMetalinkBody w) fun _ => trivial, fun _ => ?_⟩
    refine .code _ fun m => ?_
    split
    · exact calls_checkIsoMd5 _ _
    · trivial

/-- So a check that adapts the distro is evaluated without an `AttributeError`. -/
theorem Adapts.eval {distros : List Distro} {kind : Kind} {path : Text} {w : World} {d : Distro}
    {arch : Text} (h : Adapts env distros kind path w d arch) (own active : Bool) :
    ((kind.check env path).eval own active w).result ≠ .error .attributeError :=
  h.goesOn.eval (kind.calls_check path) (fun _ => rfl) (fun h h' => h'.trans h) own active

/-! ## The list of the distros -/

/-- `set_distro_from_arch` adapts the distro to an accepted medium if and only if the list has a
distro to adapt to. -/
theorem adapts_iff {distros : List Distro} (hdict : env.distrosDict = distrosDict distros)
    {kind : Kind} {path : Text} {w : World} {d : Distro} {info : DiskInfo} (hmem : d ∈ distros)
    (h : Accepted env kind path w d info) :
    Adapts env distros kind path w d info.arch ↔ Covered env distros d info.arch := by
  have hchosen := h.set.2
  by_cases harch : d.arch = info.arch
  · rw [chosen, if_pos (.inr harch)] at hchosen
    exact iff_of_true ⟨⟨d, hmem, hchosen, fun _ => harch⟩, h.goesOn hchosen⟩ (.inl harch)
  rw [Covered, or_iff_right harch]
  by_cases hcheck : env.checkArch
  · rw [chosen, if_pos (.inl hcheck)] at hchosen
    rw [if_pos hcheck]
    constructor
    · rintro ⟨⟨d', -, hd', hlisted⟩, -⟩ hex
      rw [hchosen, Option.some_inj] at hd'
      exact harch (hd' ▸ hlisted hex)
    · exact fun hno => ⟨⟨d, hmem, hchosen, fun hex => (hno hex).elim⟩, h.goesOn hchosen⟩
  · rw [chosen, if_neg (not_or.mpr ⟨hcheck, harch⟩), hdict] at hchosen
    rw [if_neg hcheck]
    constructor
    · rintro ⟨⟨d', -, hd', -⟩, -⟩
      by_contra hno
      rw [hchosen, distrosDict_eq_none.mpr hno] at hd'
      cases hd'
    · intro hex
      obtain ⟨d', hd'⟩ := Option.ne_none_iff_exists'.mp (mt distrosDict_eq_none.mp (not_not.mpr hex))
      obtain ⟨hmem', harch'⟩ := distrosDict_eq_some hd'
      exact ⟨⟨d', hmem', hchosen.trans hd', fun _ => harch'⟩, h.goesOn (hchosen.trans hd')⟩

/-- The distros of the two sections of `isolist.ini`. -/
private def startosDistros : List Distro :=
  [Sample.distro, { Sample.distro with id := 1, arch := "x86_64".toList }]

/-- The sample computer with a 64 bit processor; the info line of every medium has this
architecture. -/
private def archEnv (arch : Text) : Env := { Sample.env with
  checkArch := checkArch (getArch true)
  distrosDict := distrosDict startosDistros
  platform := { Sample.env.platform with
    diskInfoRe := fun text => some ⟨"StartOS".toList, "5.1".toList, text, arch⟩ } }

private theorem accepted_arch (arch : Text) : Accepted (archEnv arch) .cd "d:".toList Sample.world
    Sample.distro ⟨"StartOS".toList, "5.1".toList, "final".toList, arch⟩ :=
  ⟨rfl, rfl, rfl⟩

/-- A medium for `x86_64`. -/
theorem adapts_x86_64 : Adapts (archEnv "x86_64".toList) startosDistros .cd "d:".toList Sample.world
    Sample.distro "x86_64".toList :=
  (adapts_iff rfl (List.mem_cons_self ..) (accepted_arch _)).mpr (.inr (by
    rw [if_neg (by decide)]
    exact ⟨{ Sample.distro with id := 1, arch := "x86_64".toList }, by simp, rfl, rfl⟩))

/-- A medium for `amd64`, of which no section of `isolist.ini` knows. -/
theorem amd64_not_listed :
    Sample.distro ∈ startosDistros ∧
    Accepted (archEnv "amd64".toList) .cd "d:".toList Sample.world Sample.distro
      ⟨"StartOS".toList, "5.1".toList, "final".toList, "amd64".toList⟩ ∧
    ¬ Adapts (archEnv "amd64".toList) startosDistros .cd "d:".toList Sample.world Sample.distro
      "amd64".toList := by
  refine ⟨List.mem_cons_self .., accepted_arch _, fun ⟨⟨d', _, hd', _⟩, _⟩ => ?_⟩
  rw [(accepted_arch "amd64".toList).set.2] at hd'
  have hnone : chosen (archEnv "amd64".toList) Sample.distro "amd64".toList = none := by decide +kernel
  rw [hnone] at hd'
  cases hd'

end Swinst.Retrieval
