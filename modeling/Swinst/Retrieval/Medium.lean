import Swinst.Retrieval.Frames

/-! From which medium are the kernel, the initrd and the md5sums in `install/boot`, and is it the one
whose image is at `iso_path`? -/

namespace Swinst.Retrieval

open TaskList

variable {env : Env}

/-- The files of the distro in `install/boot` are there, taken from the medium with this image. -/
def TakenFrom (env : Env) (image : Text) (d : Distro) (w : World) : Prop :=
  ∀ rel ∈ bootSources d, ∃ f, w.boot (env.basename rel) = some f ∧ f.medium = image

/-- They were taken from the medium whose image is at `iso_path`. -/
def SameMedium (env : Env) (w : World) : Prop :=
  ∃ d image, w.distro = some d ∧ TakenFrom env image d w ∧ w.isoPath.bind w.files = some image

/-- A disc at `cd_path` is the one whose image is at `iso_path`. -/
def CdIsIso (env : Env) (w : World) : Prop :=
  ∀ cdPath disc, path? w.cdPath = some cdPath → env.dirs cdPath = some disc →
    w.isoPath.bind w.files = some disc.image

theorem path?_eq_some {p : Option Text} {path : Text} (h : path? p = some path) :
    p = some path := by
  unfold path? at h
  split at h
  · cases h
  · exact h

/-! ## What a completed `extract_kernel` has done -/

theorem andThen_ok {α β : Type} {c : Code α} {k : α → Code β} {w w' : World} {b : β}
    (h : c.andThen k w = (.ok b, w')) : ∃ a w₁, c w = (.ok a, w₁) ∧ k a w₁ = (.ok b, w') := by
  unfold Code.andThen at h
  split at h
  · cases h
  · next a w₁ hc => exact ⟨a, w₁, hc, h⟩

/-- A way to get a file takes it from the medium with this image, as long as the ISO files are
these. -/
def Takes (env : Env) (get : Text → Code Unit) (image : Text) (files : Text → Option Text) : Prop :=
  ∀ rel w w', w.files = files → get rel w = (.ok (), w') →
    ∃ f, w' = w.setBoot (env.basename rel) f ∧ ∀ file, f = some file → file.medium = image

/-- After files have been taken from a medium, every file of these names is from there. -/
theorem forEach_setBoot {get : Text → Code Unit} {image : Text} {w w' : World}
    (hget : Takes env get image w.files) (rels : List Text)
    (h : Code.forEach get rels w = (.ok (), w')) {name : Text} {file : BootFile}
    (hf : w'.boot name = some file) :
    file.medium = image ∨ name ∉ rels.map env.basename ∧ w.boot name = some file := by
  induction rels generalizing w with
  | nil =>
    cases h
    exact .inr ⟨by simp, hf⟩
  | cons rel rels ih =>
    obtain ⟨_, w₁, h₁, h₂⟩ := andThen_ok h
    obtain ⟨f, rfl, hm⟩ := hget rel w w₁ rfl h₁
    rcases ih (w := w.setBoot _ f) hget h₂ with hi | ⟨hn, hb⟩
    · exact .inl hi
    by_cases hname : name = env.basename rel
    · refine .inl (hm file ?_)
      simpa [World.setBoot, hname] using hb
    · refine .inr ⟨by simp [hname, List.mem_map.not.mp hn], ?_⟩
      simpa [World.setBoot, hname] using hb

theorem checkFileOrRaise_ok {md5sums rel : Text} {w w' : World}
    (h : checkFileOrRaise env md5sums rel w = (.ok (), w')) :
    w' = w ∧ (w.boot (env.basename md5sums)).isSome ∧ (w.boot (env.basename rel)).isSome := by
  unfold checkFileOrRaise at h
  split at h
  · cases h
  · cases h
  next hc =>
  obtain rfl := (Prod.mk.inj h).2
  unfold checkFile at hc
  dsimp only at hc
  split at hc
  · cases hc
  next line hline =>
  split at hc
  · cases hc
  refine ⟨rfl, ?_, ?_⟩
  · cases hb : w.boot (env.basename md5sums) with
    | none => simp [hb] at hline
    | some f => rfl
  · cases hb : w.boot (env.basename rel) with
    | none => simp [hb] at hc
    | some f => rfl

theorem extractWith_ok {get : Text → Code Unit} {image : Text} {w w' : World} {v : Option Value}
    (hget : Takes env get image w.files)
    (h : extractWith env get w = (.ok v, w')) :
    ∃ d, w.distro = some d ∧ TakenFrom env image d w' := by
  unfold extractWith at h
  split at h
  · cases h
  next d hd =>
  refine ⟨d, hd, fun rel hrel => ?_⟩
  obtain ⟨_, w₁, h₁, h₂⟩ := andThen_ok h
  obtain ⟨_, w₂, hk, h₃⟩ := andThen_ok h₂
  obtain ⟨_, w₃, hkernel, h₄⟩ := andThen_ok hk
  obtain ⟨_, w₄, hinitrd, h₅⟩ := andThen_ok h₄
  obtain ⟨rfl, hm, hkern⟩ := checkFileOrRaise_ok hkernel
  obtain ⟨rfl, -, hinit⟩ := checkFileOrRaise_ok hinitrd
  cases h₅
  cases h₃
  have hsome : (w'.boot (env.basename rel)).isSome := by
    rcases List.mem_cons.mp hrel with rfl | hrel
    · exact hm
    rcases List.mem_cons.mp hrel with rfl | hrel
    · exact hkern
    · obtain rfl := List.mem_singleton.mp hrel
      exact hinit
  obtain ⟨f, hf⟩ := Option.isSome_iff_exists.mp hsome
  refine ⟨f, hf, (forEach_setBoot hget _ h₁ hf).resolve_right ?_⟩
  exact fun hn => hn.1 (List.mem_map_of_mem hrel)

theorem takes_copyFromCd {cdPath : Text} {disc : Disc} (hdisc : env.dirs cdPath = some disc)
    (files : Text → Option Text) : Takes env (copyFromCd env cdPath) disc.image files := by
  intro rel w w' _ h
  simp only [copyFromCd, hdisc] at h
  split at h
  · cases h
  · cases h
  · obtain rfl := (Prod.mk.inj h).2
    exact ⟨_, rfl, fun file hf => Option.some.inj hf ▸ rfl⟩

theorem takes_extractFromIso {isoPath image : Text} {files : Text → Option Text}
    (himage : files isoPath = some image) :
    Takes env (extractFromIso env isoPath) image files := by
  intro rel w w' hw h
  simp only [extractFromIso, hw, himage] at h
  obtain rfl := (Prod.mk.inj h).2
  refine ⟨_, rfl, fun file hf => ?_⟩
  obtain ⟨content, -, rfl⟩ := Option.map_eq_some_iff.mp hf
  rfl

/-- Where `extract_kernel` has taken the files from, when it comes to its end. -/
theorem extractKernelBody_ok {w w' : World} {v : Option Value}
    (h : extractKernelBody env w = (.ok v, w')) : ∃ d image, w.distro = some d ∧
      TakenFrom env image d w' ∧
      ((∃ cdPath disc, path? w.cdPath = some cdPath ∧ env.dirs cdPath = some disc ∧
          image = disc.image) ∨
        path? w.cdPath = none ∧ w.isoPath.bind w.files = some image) := by
  unfold extractKernelBody at h
  split at h
  · next _ _ cdPath hcd =>
    cases hdisc : env.dirs cdPath with
    | some disc =>
      obtain ⟨d, hd, ht⟩ := extractWith_ok (takes_copyFromCd hdisc w.files) h
      exact ⟨d, disc.image, hd, ht, .inl ⟨cdPath, disc, hcd, hdisc, rfl⟩⟩
    | none =>
      -- no disc in the drive: the first copy fails
      unfold extractWith at h
      split at h
      · cases h
      · obtain ⟨_, _, h₁, -⟩ := andThen_ok h
        obtain ⟨_, _, h₂, -⟩ := andThen_ok h₁
        simp [copyFromCd, hdisc] at h₂
  · next _ _ isoPath hcd hiso =>
    cases himage : w.files isoPath with
    | some image =>
      obtain ⟨d, hd, ht⟩ := extractWith_ok (takes_extractFromIso himage) h
      exact ⟨d, image, hd, ht, .inr ⟨hcd, by rw [path?_eq_some hiso]; exact himage⟩⟩
    | none =>
      unfold extractWith at h
      split at h
      · cases h
      · obtain ⟨_, _, h₁, -⟩ := andThen_ok h
        obtain ⟨_, _, h₂, -⟩ := andThen_ok h₁
        simp [extractFromIso, himage] at h₂
  · cases h

theorem TakenFrom.image_unique {image image' : Text} {d : Distro} {w : World}
    (h : TakenFrom env image d w) (h' : TakenFrom env image' d w) : image = image' := by
  obtain ⟨f, hf, rfl⟩ := h d.md5sums List.mem_cons_self
  obtain ⟨f', hf', rfl⟩ := h' d.md5sums List.mem_cons_self
  rw [Option.some.inj (hf.symm.trans hf')]

/-- When `extract_kernel` completes, it has used the medium at `iso_path` if and only if there is no
other disc at `cd_path`. -/
theorem sameMedium_iff {w w' : World} {v : Option Value}
    (h : extractKernelBody env w = (.ok v, w')) : SameMedium env w' ↔ CdIsIso env w := by
  obtain ⟨d, image, hd, ht, hsrc⟩ := extractKernelBody_ok h
  have hboot : w.Booted w' := by
    have hb : w.Booted (extractKernelBody env w).2 := booted_extractKernelBody w
    rwa [h] at hb
  have hd' : w'.distro = some d := by cases hboot; exact hd
  have hiso : w'.isoPath.bind w'.files = w.isoPath.bind w.files := by cases hboot; rfl
  have hsame : SameMedium env w' ↔ w.isoPath.bind w.files = some image := by
    constructor
    · rintro ⟨d', image', hdd, ht', hi⟩
      obtain rfl := Option.some.inj (hd'.symm.trans hdd)
      rw [← hiso, hi, ht.image_unique ht']
    · exact fun hi => ⟨d, image, hd', ht, hiso.trans hi⟩
  rw [hsame]
  rcases hsrc with ⟨cdPath, disc, hcd, hdisc, rfl⟩ | ⟨hcd, hi⟩
  · constructor
    · intro hi cdPath' disc' hcd' hdisc'
      obtain rfl := Option.some.inj (hcd.symm.trans hcd')
      obtain rfl := Option.some.inj (hdisc.symm.trans hdisc')
      exact hi
    · exact fun hall => hall cdPath disc hcd hdisc
  · refine iff_of_true hi fun cdPath disc hcd' => ?_
    rw [hcd] at hcd'
    cases hcd'

/-! ## The tasks before it -/

theorem CdIsIso.sameMedia {w w' : World} (h : CdIsIso env w) (hs : w.SameMedia w') :
    CdIsIso env w' := by
  intro cdPath disc hcd hdisc
  rw [hs.cdPath] at hcd
  rw [hs.isoPath, hs.files]
  exact h cdPath disc hcd hdisc

theorem cdIsIso_of_none {w : World} (h : w.cdPath = none) : CdIsIso env w := by
  intro cdPath disc hcd
  rw [h] at hcd
  cases hcd

/-- A copy after which the root is still active has succeeded. -/
theorem copyFile_active {source target : Text} {w : World}
    (h : ((copyFile env source target).eval true true w).keepsActive true = true) :
    ∃ content, w.source? env source target = some content ∧
      ((copyFile env source target).eval true true w).world =
        { w with files := Function.update w.files target (some content) } := by
  unfold copyFile at h ⊢
  rw [Prog.eval_code] at h ⊢
  unfold copyFileBody at h ⊢
  cases hs : w.source? env source target with
  | none => simp [hs, Prog.Outcome.keepsActive] at h
  | some content =>
    cases he : env.copyError source target with
    | some failed => simp [hs, he, Prog.Outcome.keepsActive] at h
    | none => exact ⟨content, rfl, by simp⟩

theorem judgeCd_cdIsIso {cdPath : Text} {ok : Option Value} {own active : Bool} {w : World}
    (h : CdIsIso env w) : CdIsIso env ((judgeCd env cdPath ok).eval own active w).world := by
  unfold judgeCd
  split
  · exact h
  rw [Prog.eval_code]
  have hlook : w.Looked (cdSubversion env cdPath w).2 := looked_cdSubversion cdPath w
  have hlooked := h.sameMedia hlook.sameMedia
  split
  · split
    · exact hlooked
    · exact cdIsIso_of_none rfl
  · exact hlooked

theorem checkCd_cdIsIso {cdPath : Text} {active : Bool} {w : World}
    (h : CdIsIso env (w.setPaths (some cdPath) w.isoPath)) :
    CdIsIso env ((checkCd env cdPath).eval true active w).world := by
  unfold checkCd
  rw [Prog.eval_update]
  cases active with
  | false =>
    rw [Prog.eval_subtask_refused]
    exact judgeCd_cdIsIso h
  | true =>
    rw [Prog.eval_subtask]
    exact judgeCd_cdIsIso (h.sameMedia (sameMedia_checkIso ..))

/-- `use_cd` leaves the CD that it has copied at `cd_path`, or nothing. -/
theorem useCdAt_cdIsIso {cdPath : Text} {w : World}
    (h : ((useCdAt env cdPath).eval true true w).active = true) :
    CdIsIso env ((useCdAt env cdPath).eval true true w).world := by
  rw [useCdAt_eq, Prog.eval_update, Prog.eval_subtask] at h ⊢
  cases hcopy : ((copyFile env cdPath env.dest).eval true true
      (w.setPaths w.cdPath (some env.dest))).keepsActive true with
  | false =>
    rw [hcopy, Prog.eval_inactive] at h
    cases h
  | true =>
    obtain ⟨content, hsource, hworld⟩ := copyFile_active hcopy
    rw [hworld]
    refine checkCd_cdIsIso fun path disc hpath hdisc => ?_
    obtain rfl := Option.some.inj (path?_eq_some hpath)
    have hsource' : w.source? env cdPath env.dest = some content := hsource
    have himage : content = disc.image := by
      simpa [World.source?, hdisc, eq_comm] using hsource'
    simp [World.setPaths, himage]

theorem useCd_cdIsIso {w : World} {r : Option Value}
    (hactive : ((useCd env).eval true true w).active = true)
    (hr : ((useCd env).eval true true w).result = .ok r) (ht : Value.truthy r = true) :
    CdIsIso env ((useCd env).eval true true w).world := by
  unfold useCd at hactive hr ⊢
  rw [Prog.eval_code] at hactive hr ⊢
  cases hs : (selectCd env w).1 with
  | error e =>
    rw [hs] at hr
    cases hr
  | ok cdPath =>
    simp only [hs] at hactive hr ⊢
    cases hp : path? cdPath with
    | none =>
      rw [hp] at hr
      cases hr
      cases ht
    | some cdPath =>
      simp only [hp] at hactive ⊢
      exact useCdAt_cdIsIso hactive

/-- `copy_iso` forgets the CD when it has put an ISO in its place. -/
theorem placeIso_cdPath {isoPath : Text} {ok r : Option Value} {own active : Bool} {w : World}
    (hr : ((placeIso env isoPath ok).eval own active w).result = .ok r)
    (ht : Value.truthy r = true) :
    ((placeIso env isoPath ok).eval own active w).world.cdPath = none := by
  unfold placeIso at hr ⊢
  split at hr
  · simp only [*, if_true, Prog.eval]
    split <;> rfl
  · cases hr
    cases ht

theorem copyIso_cdPath {isoPath : Text} {r : Option Value} {own active : Bool} {w : World}
    (hr : ((copyIso env isoPath).eval own active w).result = .ok r)
    (ht : Value.truthy r = true) :
    ((copyIso env isoPath).eval own active w).world.cdPath = none := by
  simp only [copyIso, Prog.eval] at hr ⊢
  split at hr
  · simp only [*, if_true]
    exact placeIso_cdPath hr ht
  · simp only [*]
    exact placeIso_cdPath hr ht

theorem useIso_cdPath {r : Option Value} {own active : Bool} {w : World}
    (hr : ((useIso env).eval own active w).result = .ok r) (ht : Value.truthy r = true) :
    ((useIso env).eval own active w).world.cdPath = none := by
  unfold useIso at hr ⊢
  rw [Prog.eval_code] at hr ⊢
  cases hs : (selectIso env w).1 with
  | error e =>
    rw [hs] at hr
    cases hr
  | ok isoPath =>
    simp only [hs] at hr ⊢
    cases hp : path? isoPath with
    | none =>
      rw [hp] at hr
      cases hr
      cases ht
    | some isoPath =>
      simp only [hp] at hr ⊢
      exact copyIso_cdPath hr ht

/-- After `get_iso`, if the list goes on, a disc at `cd_path` is the one that was copied. -/
theorem getIso_cdIsIso {w : World} (h : ((getIso env).eval true true w).keepsActive true = true) :
    CdIsIso env ((getIso env).eval true true w).world := by
  unfold getIso at h ⊢
  rw [Prog.eval_bind] at h ⊢
  generalize ho : (useCd env).eval true true w = o at h ⊢
  cases hr : o.result with
  | error e => simp [Prog.Outcome.andThen, Prog.Outcome.keepsActive, hr] at h
  | ok r =>
    simp only [Prog.Outcome.andThen, hr] at h ⊢
    cases ht : Value.truthy r with
    | true =>
      have hactive : o.active = true := by
        simpa [ht, Prog.Outcome.keepsActive] using h
      simp only [if_true, Prog.eval_finish, Prog.eval_ret]
      subst ho
      exact useCd_cdIsIso hactive hr ht
    | false =>
      simp only [ht, Bool.false_eq_true, if_false] at h ⊢
      rw [Prog.eval_bind] at h ⊢
      generalize ho' : (useIso env).eval o.own o.active o.world = o' at h ⊢
      cases hr' : o'.result with
      | error e => simp [Prog.Outcome.andThen, Prog.Outcome.keepsActive, hr'] at h
      | ok r' =>
        simp only [Prog.Outcome.andThen, hr'] at h ⊢
        cases ht' : Value.truthy r' with
        | true =>
          simp only [if_true, Prog.eval_finish, Prog.eval_ret]
          subst ho'
          exact cdIsIso_of_none (useIso_cdPath hr' ht')
        | false => simp [ht', Prog.Outcome.keepsActive] at h

/-- `use_cd` passes over a disc at `cd_path` only when there is no distro. -/
theorem selectCd_none {w w' : World} {p : Option Text} (hdistro : w.distro = w.cdDistro)
    (h : selectCd env w = (.ok p, w')) (hp : path? p = none) (hd : w'.distro.isSome) :
    CdIsIso env w' := by
  intro cdPath disc hcd hdisc
  have hlook : w.Looked (selectCd env w).2 := looked_selectCd w
  rw [h] at hlook
  rw [hlook.sameMedia.cdPath] at hcd
  unfold selectCd at h
  simp only [hcd, hdisc, Option.filter_some, Option.isSome_some, if_true, and_true, hdistro] at h
  split at h
  · obtain ⟨hp', rfl⟩ := Prod.mk.inj h
    rw [← Except.ok.inj hp', ← path?_eq_some hcd, hcd] at hp
    cases hp
  · next hnone =>
    have hw : w.distro = none := by simpa [hdistro] using hnone
    cases hpaths : env.cdSearchPaths with
    | nil =>
      rw [hpaths] at h
      cases h
      simp [hw] at hd
    | cons path paths =>
      rw [hpaths] at h
      simp [findCd, hw] at h

/-- After `use_cd` as a task of its own. -/
theorem useCd_task {w : World} (hdistro : w.distro = w.cdDistro)
    (h : ((useCd env).eval true true w).keepsActive true = true)
    (hd : ((useCd env).eval true true w).world.distro.isSome) :
    CdIsIso env ((useCd env).eval true true w).world := by
  unfold useCd at h hd ⊢
  rw [Prog.eval_code] at h hd ⊢
  cases hs : selectCd env w with
  | mk r w₁ =>
    cases r with
    | error e => simp [hs, Prog.Outcome.keepsActive] at h
    | ok cdPath =>
      simp only [hs] at h hd ⊢
      cases hp : path? cdPath with
      | none =>
        simp only [hp, Prog.eval_ret] at hd ⊢
        exact selectCd_none hdistro hs hp hd
      | some cdPath =>
        simp only [hp] at h ⊢
        refine useCdAt_cdIsIso ?_
        unfold Prog.Outcome.keepsActive at h
        split at h
        · exact h
        · simp at h

theorem evalTasks_outside (names : List String) (active : Bool) (w : World) :
    (evalTasks (names.map (outside env)) active w).2 = w := by
  refine evalTasks_invariant (P := (· = w)) (fun t ht w' hw' => ?_) rfl
  obtain ⟨name, -, rfl⟩ := List.mem_map.mp ht
  exact (Prog.eval_code_world ..).trans hw'

/-- One task after others that leave the world alone. -/
theorem evalTasks_outside_then {names : List String} {t : ProgTask Value PyError World}
    {w w' : World} (h : evalTasks (names.map (outside env) ++ [t]) true w = (true, w')) :
    (t.prog.eval true true w).keepsActive t.required = true ∧
      (t.prog.eval true true w).world = w' := by
  obtain ⟨-, h⟩ := evalTasks_append_ok h
  rw [evalTasks_outside] at h
  exact Prod.mk.inj h

/-- When `extract_kernel` completes in a run of one of the task lists, its files are from the medium
at `iso_path`; in the list of the boot fixer, if and only if no other disc was at `cd_path`. -/
theorem kernel_medium_iff {errText : PyError → String} {l : Tasklist} {w w₀ w' : World}
    {m m' : Machine Function Value PyError (ProgControl Value PyError World) World}
    {v : Option Value} (henter : Tasklist.enter w l = .ok w₀)
    (hrun : Run (progBehaviour errText)
      (.init "tasklist" ((l.tasks env).map ProgTask.spec) true w₀) m)
    (hstep : Step (progBehaviour errText) m m')
    (hstart : m'.starts = [(l.before env).length] :: m.starts)
    (hok : extractKernelBody env m.world = (.ok v, w')) :
    SameMedium env w' ↔ (l = .fixboot → CdIsIso env w₀) := by
  have hbefore := Machine.start_world hrun hstep hstart
  rw [sameMedium_iff hok]
  cases l with
  | installation =>
    obtain ⟨hactive, hworld⟩ := evalTasks_outside_then hbefore
    refine iff_of_true (hworld ▸ getIso_cdIsIso hactive) nofun
  | advancedInstallation =>
    obtain ⟨hactive, hworld⟩ := evalTasks_outside_then hbefore
    refine iff_of_true (hworld ▸ getIso_cdIsIso hactive) nofun
  | cdboot =>
    obtain ⟨hactive, hworld⟩ := evalTasks_outside_then hbefore
    obtain rfl := Except.ok.inj henter
    obtain ⟨d, -, hd, -⟩ := extractKernelBody_ok hok
    refine iff_of_true ?_ nofun
    rw [← hworld] at hd ⊢
    exact useCd_task rfl hactive (by simp [useCdTask] at hd; simp [hd])
  | fixboot =>
    have hworld : m.world = w₀ :=
      (congrArg Prod.snd hbefore).symm.trans (evalTasks_outside Tasklist.prepare true w₀)
    rw [hworld]
    exact ⟨fun h _ => h, fun h => h rfl⟩

private def noCdEnv : Env := { Sample.env with cdSearchPaths := [] }

/-- The sample computer without a CD: the files are from the ISO that was copied. -/
theorem kernel_medium_installation :
    SameMedium noCdEnv (extractKernelBody noCdEnv
      (evalTasks (Tasklist.before noCdEnv .installation) true Sample.world).2).2 := by
  have hbefore : evalTasks (Tasklist.before noCdEnv .installation) true Sample.world =
      (true, (evalTasks (Tasklist.before noCdEnv .installation) true Sample.world).2) := rfl
  obtain ⟨m, m', hrun, hstep, hstart, hworld⟩ := Machine.exists_start (fun _ : PyError => "")
    "tasklist" (extractKernelTask noCdEnv) (Tasklist.after noCdEnv .installation) true hbefore
  rw [← hworld]
  refine (kernel_medium_iff (l := .installation) (w := Sample.world) (v := none) rfl hrun hstep hstart
    ?_).mpr nofun
  rw [hworld]
  rfl

/-- A CD in the drive, and another version in the ISO of the installation to be repaired. -/
private def fixWorld : World := { Sample.world with
  cdPath := some "d:".toList
  cdDistro := some Sample.distro
  isoPath := some "e:\\startos.iso".toList
  installationIso := some "e:\\startos.iso".toList }

/-- The boot fixer takes the files from the CD. -/
theorem fixboot_takes_cd : ∃ w' : World,
    Tasklist.enter { fixWorld with isoPath := none } .fixboot = .ok fixWorld ∧
    (∃ m m' : Machine Function Value PyError (ProgControl Value PyError World) World,
      Run (progBehaviour fun _ => "") (.init "tasklist"
        ((Tasklist.tasks Sample.env .fixboot).map ProgTask.spec) true fixWorld) m ∧
      Step (progBehaviour fun _ => "") m m' ∧
      m'.starts = [(Tasklist.before Sample.env .fixboot).length] :: m.starts ∧
      extractKernelBody Sample.env m.world = (.ok none, w')) ∧ ¬ SameMedium Sample.env w' := by
  have hbefore : evalTasks (Tasklist.before Sample.env .fixboot) true fixWorld =
      (true, fixWorld) := rfl
  have hok : extractKernelBody Sample.env fixWorld =
      (.ok none, (extractKernelBody Sample.env fixWorld).2) := rfl
  obtain ⟨m, m', hrun, hstep, hstart, hworld⟩ := Machine.exists_start (fun _ : PyError => "")
    "tasklist" (extractKernelTask Sample.env) (Tasklist.after Sample.env .fixboot) true hbefore
  refine ⟨_, rfl, ⟨m, m', hrun, hstep, hstart, by rw [hworld]; exact hok⟩, fun hsame => ?_⟩
  have himage := (sameMedium_iff hok).mp hsame "d:".toList _ rfl rfl
  revert himage
  decide

end Swinst.Retrieval
