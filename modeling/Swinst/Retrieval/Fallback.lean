import Swinst.Retrieval.Frames

/-! When `get_iso` turns from the CD to an ISO on the disks, and what is in `cd_path` and `iso_path`
for the tasks after it. -/

namespace Swinst.Retrieval

open TaskList

variable {env : Env}

/-- `use_cd` takes the CD at `cdPath`, its image is copied to `dest`, and `check_iso` comes back
with the answer of `o`. -/
inductive Copied (env : Env) (w : World) : Text → Prog.Outcome Value PyError World → Prop where
  | mk {p w₁ cdPath r w₂ v own w₃} : selectCd env w = (.ok p, w₁) → path? p = some cdPath →
    copyFileBody env cdPath env.dest (w₁.setPaths w₁.cdPath (some env.dest)) = (.ok r, w₂) →
    (checkIso env env.dest).eval true true (w₂.setPaths (some cdPath) w₂.isoPath) =
      ⟨.ok v, own, true, w₃⟩ →
    Copied env w cdPath ⟨.ok v, own, true, w₃⟩

/-- The CD branch of `get_iso` when no exception stops it: the CD that it settles for, or `none`, and
the world that it leaves. -/
inductive CdBranch (env : Env) (w : World) : Option Text → World → Prop where
  | noCd {p w₁} : selectCd env w = (.ok p, w₁) → path? p = none → CdBranch env w none w₁
  | accepted {cdPath o} : Copied env w cdPath o → Value.truthy o.value = true →
    CdBranch env w (some cdPath) o.world
  /-- the image fails the check, but it is an alpha, a beta or a release candidate -/
  | prerelease {cdPath o subversion w₁} : Copied env w cdPath o → Value.truthy o.value = false →
    cdSubversion env cdPath o.world = (.ok subversion, w₁) → isPrerelease subversion = true →
    CdBranch env w (some cdPath) w₁
  | rejected {cdPath o subversion w₁} : Copied env w cdPath o → Value.truthy o.value = false →
    cdSubversion env cdPath o.world = (.ok subversion, w₁) → isPrerelease subversion = false →
    CdBranch env w none (w₁.setPaths none none)

/-- `find_iso` finds the ISO at `isoPath`, `check_iso` accepts it, and it can be copied. -/
inductive IsoFound (env : Env) (w : World) (isoPath : Text) : World → Prop where
  | mk {p w₁ v own w₂ r own' w₃} :
    findIso env (env.localIsos w.files) w = (.ok p, w₁) → path? p = some isoPath →
    (checkIso env isoPath).eval true true w₁ = ⟨.ok v, own, true, w₂⟩ → Value.truthy v = true →
    (transferIso env isoPath).2.eval true true w₂ = ⟨.ok r, own', true, w₃⟩ →
    IsoFound env w isoPath (w₃.setPaths none (some env.dest))

/-- `use_cd` from the check on. -/
theorem Copied.eval {w : World} {cdPath : Text} {o : Prog.Outcome Value PyError World}
    (h : Copied env w cdPath o) :
    (useCd env).eval true true w = (judgeCd env cdPath o.value).eval true true o.world := by
  obtain ⟨hs, hp, hc, hk⟩ := h
  have hcopy : (copyFile env cdPath env.dest).eval true true _ = ⟨.ok _, false, true, _⟩ :=
    Prog.eval_code_ok hc _ true true
  have hcheck := Prog.eval_subtask "check_iso" true (checkIso env env.dest) (judgeCd env cdPath)
  rw [useCd, Prog.eval_code_ok hs, hp]
  simp only [useCdAt_eq, checkCd, Prog.eval_update, Prog.eval_subtask, hcopy, Prog.Outcome.value,
    Prog.Outcome.keepsActive, hk]

theorem CdBranch.eval {w w' : World} {cd : Option Text} (h : CdBranch env w cd w') :
    ∃ r, (useCd env).eval true true w = ⟨.ok r, true, true, w'⟩ ∧ Value.truthy r = cd.isSome := by
  cases h with
  | noCd hs hp =>
    refine ⟨none, ?_, rfl⟩
    unfold useCd
    rw [Prog.eval_code_ok hs, hp]
    rfl
  | accepted hc ht =>
    refine ⟨some (.bool true), ?_, rfl⟩
    rw [hc.eval, judgeCd, if_pos ht, Prog.eval_ret]
  | prerelease hc ht hs hv =>
    refine ⟨some (.bool true), ?_, rfl⟩
    rw [hc.eval, judgeCd, ht, if_neg Bool.false_ne_true, Prog.eval_code_ok hs, if_pos hv,
      Prog.eval_ret]
  | rejected hc ht hs hv =>
    refine ⟨some (.bool false), ?_, rfl⟩
    rw [hc.eval, judgeCd, ht, if_neg Bool.false_ne_true, Prog.eval_code_ok hs, hv,
      if_neg Bool.false_ne_true, Prog.eval_update, Prog.eval_ret]

theorem IsoFound.eval {w w' : World} (h : IsoFound env w isoPath w') (hiso : w.isoDistro = none) :
    (useIso env).eval true true w = ⟨.ok (some (.bool true)), true, true, w'⟩ := by
  obtain ⟨hs, hp, hc, ht, hm⟩ := h
  have hselect : selectIso env w = findIso env (env.localIsos w.files) w := by
    simp [selectIso, hiso]
  unfold useIso copyIso
  rw [Prog.eval_code_ok (hselect.trans hs), hp]
  simp only [Prog.eval_subtask, hc, Prog.Outcome.value, Prog.Outcome.keepsActive, placeIso, ht,
    if_true, hm, Prog.eval_update, Prog.eval_ret]

/-! ## What is at `dest` -/

theorem copyFileBody_ok {source target : Text} {w w' : World} {r : Option Value}
    (h : copyFileBody env source target w = (.ok r, w')) :
    ∃ content, w.source? env source target = some content ∧
      w' = { w with files := Function.update w.files target (some content) } := by
  unfold copyFileBody at h
  split at h
  · cases h
  next content hs =>
  split at h
  · cases h
  · cases h
    exact ⟨content, hs, rfl⟩

theorem moveFileBody_ok {source target : Text} {w w' : World} {r : Option Value}
    (h : moveFileBody env source target w = (.ok r, w')) :
    ∃ content, w.files source = some content ∧ w'.files target = some content := by
  unfold moveFileBody at h
  split at h
  · cases h
  next content hs =>
  split at h
  · cases h
  · cases h
    exact ⟨content, hs, Function.update_self ..⟩

/-- The file that `copy_iso` has copied or moved is at `dest`, unless it was there before. -/
theorem transferIso_ok {isoPath : Text} {w w' : World} {r : Option Value} {own active : Bool}
    (h : (transferIso env isoPath).2.eval true true w = ⟨.ok r, own, active, w'⟩)
    (hfile : env.dirs isoPath = none) (hne : isoPath ≠ env.dest) :
    ∃ content, w.files isoPath = some content ∧ w'.files env.dest = some content := by
  unfold transferIso at h
  split at h
  · cases hmove : moveFileBody env isoPath env.dest w with
    | mk r' w₁ =>
      rw [moveFile, Prog.eval_code, hmove] at h
      cases r' with
      | error e => cases h
      | ok r' =>
        cases h
        exact moveFileBody_ok hmove
  · cases hcopy : copyFileBody env isoPath env.dest w with
    | mk r' w₁ =>
      rw [copyFile, Prog.eval_code, hcopy] at h
      cases r' with
      | error e => cases h
      | ok r' =>
        cases h
        obtain ⟨content, hs, rfl⟩ := copyFileBody_ok hcopy
        rw [World.source?, hfile] at hs
        dsimp only at hs
        rw [if_neg hne] at hs
        exact ⟨content, hs, Function.update_self ..⟩

/-- The search and the check leave the ISO as it is. -/
theorem IsoFound.files {w w' : World} {isoPath : Text} (h : IsoFound env w isoPath w')
    (hfile : env.dirs isoPath = none) (hne : isoPath ≠ env.dest) :
    ∃ content, w.files isoPath = some content ∧ w'.files env.dest = some content := by
  obtain @⟨p, w₁, v, own, w₂, r, own', w₃, hs, -, hc, -, hm⟩ := h
  have hlook : w.Looked (findIso env (env.localIsos w.files) w).2 := looked_findIso _ w
  have hcheck : w₁.SameMedia ((checkIso env isoPath).eval true true w₁).world := sameMedia_checkIso ..
  rw [hs] at hlook
  rw [hc] at hcheck
  obtain ⟨content, hcontent, hdest⟩ := transferIso_ok hm hfile hne
  refine ⟨content, ?_, hdest⟩
  calc w.files isoPath = w₁.files isoPath := by rw [hlook.sameMedia.files]
    _ = w₂.files isoPath := by rw [hcheck.files]
    _ = some content := hcontent

/-- The world after the check is the one that it found, up to what a check may change. -/
theorem Copied.world {w : World} {cdPath : Text} {o : Prog.Outcome Value PyError World}
    (h : Copied env w cdPath o) :
    o.world.cdPath = some cdPath ∧ o.world.isoPath = some env.dest ∧
      o.world.isoDistro = w.isoDistro := by
  obtain @⟨p, w₁, cdPath, r, w₂, v, own, w₃, hs, -, hf, hk⟩ := h
  have hlook : w.Looked (selectCd env w).2 := looked_selectCd w
  have hcheck : (w₂.setPaths (some cdPath) w₂.isoPath).SameMedia
      ((checkIso env env.dest).eval true true (w₂.setPaths (some cdPath) w₂.isoPath)).world :=
    sameMedia_checkIso ..
  rw [hs] at hlook
  rw [hk] at hcheck
  have hcopy : w₂.isoPath = some env.dest ∧ w₂.isoDistro = w₁.isoDistro := by
    obtain ⟨content, -, rfl⟩ := copyFileBody_ok hf
    exact ⟨rfl, rfl⟩
  refine ⟨hcheck.cdPath, hcheck.isoPath.trans hcopy.1, ?_⟩
  calc w₃.isoDistro = w₂.isoDistro := hcheck.isoDistro
    _ = w₁.isoDistro := hcopy.2
    _ = w.isoDistro := hlook.sameMedia.isoDistro

/-- The check finds the image of the CD, and leaves it. -/
theorem Copied.files {w : World} {cdPath : Text} {o : Prog.Outcome Value PyError World} {disc : Disc}
    (h : Copied env w cdPath o) (hdisc : env.dirs cdPath = some disc) :
    o.world.files env.dest = some disc.image := by
  obtain @⟨p, w₁, cdPath, r, w₂, v, own, w₃, -, -, hf, hk⟩ := h
  have hcheck : (w₂.setPaths (some cdPath) w₂.isoPath).SameMedia
      ((checkIso env env.dest).eval true true (w₂.setPaths (some cdPath) w₂.isoPath)).world :=
    sameMedia_checkIso ..
  rw [hk] at hcheck
  obtain ⟨content, hs, rfl⟩ := copyFileBody_ok hf
  rw [World.source?, hdisc] at hs
  calc w₃.files env.dest = some content := (congrFun hcheck.files _).trans (Function.update_self ..)
    _ = some disc.image := hs.symm

theorem sameMedia_cdSubversion {cdPath : Text} {w w' : World} {r : Except PyError Text}
    (h : cdSubversion env cdPath w = (r, w')) : w.SameMedia w' := by
  have hlook : w.Looked (cdSubversion env cdPath w).2 := looked_cdSubversion cdPath w
  rw [h] at hlook
  exact hlook.sameMedia

/-- Nothing in the CD branch sets `iso_distro`. -/
theorem CdBranch.isoDistro {w w' : World} {cd : Option Text} (h : CdBranch env w cd w') :
    w'.isoDistro = w.isoDistro := by
  cases h with
  | noCd hs _ =>
    have hlook : w.Looked (selectCd env w).2 := looked_selectCd w
    rw [hs] at hlook
    exact hlook.sameMedia.isoDistro
  | accepted hc _ => exact hc.world.2.2
  | prerelease hc _ hs _ => exact (sameMedia_cdSubversion hs).isoDistro.trans hc.world.2.2
  | rejected hc _ hs _ => exact (sameMedia_cdSubversion hs).isoDistro.trans hc.world.2.2

theorem CdBranch.paths {w w' : World} {cdPath : Text} (h : CdBranch env w (some cdPath) w') :
    w'.isoPath = some env.dest ∧ w'.cdPath = some cdPath := by
  cases h with
  | accepted hc _ => exact ⟨hc.world.2.1, hc.world.1⟩
  | prerelease hc _ hs _ =>
    have hsame := sameMedia_cdSubversion hs
    exact ⟨hsame.isoPath.trans hc.world.2.1, hsame.cdPath.trans hc.world.1⟩

theorem CdBranch.files {w w' : World} {cdPath : Text} {disc : Disc} (h : CdBranch env w (some cdPath) w')
    (hdisc : env.dirs cdPath = some disc) : w'.files env.dest = some disc.image := by
  cases h with
  | accepted hc _ => exact hc.files hdisc
  | prerelease hc _ hs _ => rw [(sameMedia_cdSubversion hs).files, hc.files hdisc]

end Swinst.Retrieval
