import Swinst.Retrieval.Frames

/-! Which metalinks are stored? `get_metalink` is meant to keep those only that `check_metalink`
accepts. -/

namespace Swinst.Retrieval

open TaskList

variable (env : Env)

/-- The text is what some download has left. -/
def Downloaded (text : Text) : Prop := ∃ n url path, env.download n url = .ok (path, text)

/-- From `w` to `w'` the list of `d` and its signature are downloaded. The list is signed, and its entry for the
base name of `path` is the md5 of `content`. -/
def Signed (d : Distro) (baseUrl path content : Text) (w w' : World) : Prop :=
  ∃ md5sums w₁ signature list sig table,
    download env (baseUrl ++ '/' :: d.metalinkMd5sums) w = (.ok md5sums, w₁) ∧
    download env (baseUrl ++ '/' :: d.metalinkMd5sumsSignature) w₁ = (.ok signature, w') ∧
    w'.downloads md5sums = some list ∧ w'.downloads signature = some sig ∧
    env.verifyGpgSignature list sig = .ok true ∧ md5Table list = .ok table ∧
    table (env.basename path) = some (env.md5 content)

/-- In `w`, `get_metalink` downloads a file for `d` that `check_metalink` accepts, and reads `m` from it. -/
structure MetalinkAccepted (w : World) (d : Distro) (m : Metalink) : Prop where
  distro : w.distro = some d
  checked : ∃ path baseUrl w₁ w₂ content,
    fetchMetalink env w = (.ok (some (path, baseUrl)), w₁) ∧
    checkMetalink env path baseUrl w₁ = (.ok true, w₂) ∧
    w₂.downloads path = some content ∧ env.parseMetalink content = .ok m ∧
    (env.skipMd5Check = true ∨ Signed env d baseUrl path content w₁ w₂)

/-- The downloaded list is not signed, or its entry for the metalink is another one. -/
def Mismatch (w : World) (metalink md5sums signature : Text) : Prop :=
  ∃ list sig, w.downloads md5sums = some list ∧ w.downloads signature = some sig ∧
    (env.verifyGpgSignature list sig = .ok false ∨
      env.verifyGpgSignature list sig = .ok true ∧ ∃ table, md5Table list = .ok table ∧
        table (env.basename metalink) ≠ (w.downloads metalink).map env.md5)

/-- What `get_metalink` downloads in `w` is not authentic: the metalink, the list and the signature
are there, but they do not fit. -/
def Forged (w : World) : Prop :=
  env.skipMd5Check = false ∧ ∃ d path baseUrl w₁ md5sums w₂ signature w₃,
    w.distro = some d ∧ fetchMetalink env w = (.ok (some (path, baseUrl)), w₁) ∧
    download env (baseUrl ++ '/' :: d.metalinkMd5sums) w₁ = (.ok md5sums, w₂) ∧
    download env (baseUrl ++ '/' :: d.metalinkMd5sumsSignature) w₂ = (.ok signature, w₃) ∧
    Mismatch env w₃ path md5sums signature

variable {env}

theorem verdict_eq_false {w : World} {metalink md5sums signature : Text}
    (h : verdict env w metalink md5sums signature = .ok false) :
    Mismatch env w metalink md5sums signature := by
  unfold verdict at h
  split at h
  · next list sig hl hs =>
    refine ⟨list, sig, hl, hs, ?_⟩
    split at h
    · cases h
    · next hv => exact .inl hv
    · next hv =>
      split at h
      · cases h
      · next table ht => exact .inr ⟨hv, table, ht, by simpa using h⟩
  · cases h

theorem verdict_eq_true {w : World} {metalink md5sums signature : Text}
    (h : verdict env w metalink md5sums signature = .ok true) :
    ∃ list sig table, w.downloads md5sums = some list ∧ w.downloads signature = some sig ∧
      env.verifyGpgSignature list sig = .ok true ∧ md5Table list = .ok table ∧
      table (env.basename metalink) = (w.downloads metalink).map env.md5 := by
  unfold verdict at h
  split at h
  · next list sig hl hs =>
    split at h
    · cases h
    · cases h
    · next hv =>
      split at h
      · cases h
      · next table ht => exact ⟨list, sig, table, hl, hs, hv, ht, by simpa using h⟩
  · cases h

/-- The file at `path` is a download. -/
def FromDownload (env : Env) (w : World) (path : Text) : Prop :=
  ∃ text, w.downloads path = some text ∧ Downloaded env text

theorem fromDownload_download {url path : Text} {w w' : World}
    (h : download env url w = (.ok path, w')) : FromDownload env w' path := by
  unfold download at h
  split at h
  · cases h
  · next content hd =>
    cases h
    exact ⟨content, Function.update_self .., _, _, _, hd⟩

theorem FromDownload.download {url q : Text} {w w' : World} {r : Except PyError Text}
    (hq : FromDownload env w q) (h : download env url w = (r, w')) : FromDownload env w' q := by
  unfold Retrieval.download at h
  split at h
  · cases h
    exact hq
  · next path content hd =>
    cases h
    by_cases hp : q = path
    · exact ⟨content, by simp [hp], _, _, _, hd⟩
    · obtain ⟨text, ht, htd⟩ := hq
      exact ⟨text, by simpa [hp] using ht, htd⟩

theorem fromDownload_fetchMetalink {w w' : World} {path baseUrl : Text}
    (h : fetchMetalink env w = (.ok (some (path, baseUrl)), w')) : FromDownload env w' path := by
  unfold fetchMetalink at h
  split at h
  · cases h
  split at h
  · next h₁ =>
    cases h
    exact fromDownload_download h₁
  split at h
  · next h₂ =>
    cases h
    exact fromDownload_download h₂
  · cases h

/-- A call of `check_metalink` that comes back with a verdict, unless the check is skipped. -/
theorem checkMetalink_ok {w w' : World} {metalink baseUrl : Text} {b : Bool}
    (hskip : env.skipMd5Check = false) (h : checkMetalink env metalink baseUrl w = (.ok b, w')) :
    ∃ d md5sums w₁ signature, w.distro = some d ∧
      download env (baseUrl ++ '/' :: d.metalinkMd5sums) w = (.ok md5sums, w₁) ∧
      download env (baseUrl ++ '/' :: d.metalinkMd5sumsSignature) w₁ = (.ok signature, w') ∧
      verdict env w' metalink md5sums signature = .ok b := by
  simp only [checkMetalink, hskip, Bool.false_eq_true, if_false] at h
  split at h
  · cases h
  next d hd =>
  split at h
  · cases h
  next md5sums w₁ h₁ =>
  split at h
  · cases h
  next signature w₂ h₂ =>
  obtain ⟨hv, rfl⟩ := Prod.mk.injEq .. ▸ h
  exact ⟨d, md5sums, w₁, signature, hd, h₁, h₂, hv⟩

/-- A metalink is stored from a forged file, or from one that was accepted. -/
theorem Stored.accepted {w : World} {d : Distro} {m : Metalink} (h : Stored env w d m)
    (hf : ¬ Forged env w) : MetalinkAccepted env w d m := by
  obtain ⟨path, baseUrl, w₁, w₂, b, content, h₁, h₂, hc, hm⟩ := h.judged
  cases hskip : env.skipMd5Check with
  | true =>
    have hcheck : checkMetalink env path baseUrl w₁ = (.ok true, w₁) := by simp [checkMetalink, hskip]
    obtain ⟨-, rfl⟩ := Prod.mk.injEq .. ▸ hcheck.symm.trans h₂
    exact ⟨h.distro, path, baseUrl, w₁, w₁, content, h₁, hcheck, hc, hm, .inl hskip⟩
  | false =>
    obtain ⟨d', md5sums, w', signature, hd', hsums, hsig, hv⟩ := checkMetalink_ok hskip h₂
    have hd : w.distro = some d' := (fetched_fetchMetalink h₁).distro ▸ hd'
    cases b with
    | false =>
      exact (hf ⟨hskip, d', path, baseUrl, w₁, md5sums, w', signature, w₂, hd, h₁, hsums, hsig,
        verdict_eq_false hv⟩).elim
    | true =>
      obtain ⟨list, sig, table, hl, hs, hver, ht, hentry⟩ := verdict_eq_true hv
      obtain rfl := Option.some.inj (h.distro.symm.trans hd)
      rw [hc] at hentry
      exact ⟨h.distro, path, baseUrl, w₁, w₂, content, h₁, h₂, hc, hm,
        .inr ⟨md5sums, w', signature, list, sig, table, hsums, hsig, hl, hs, hver, ht, hentry⟩⟩

/-- `get_metalink` stores nothing, or the metalink of a file that was accepted. -/
theorem metalink_getMetalinkBody {w : World} (hf : ¬ Forged env w) {d : Distro} {m : Metalink}
    (hm : (getMetalinkBody env w).2.metalink d = some m) : w.metalink d = some m ∨ MetalinkAccepted env w d m := by
  obtain ⟨w', hw', he | ⟨d', m', hst, he⟩⟩ := getMetalinkBody_cases env w
  · rw [he, hw'.metalink] at hm
    exact .inl hm
  · rw [he] at hm
    by_cases hd : d = d'
    · subst hd
      obtain rfl : m' = m := by simpa using hm
      exact .inr (hst.accepted hf)
    · exact .inl (by simpa [hd] using hm)

/-- The metalinks change by a call of `get_metalink`, or not at all. -/
def MetalinkStep (env : Env) (w w' : World) : Prop :=
  w'.metalink = w.metalink ∨ w' = (getMetalinkBody env w).2

/-- The step from `w` to `w'` is no call of `get_metalink` that gets a forged file. -/
def NotForged (env : Env) (w w' : World) : Prop :=
  ¬ (Forged env w ∧ w' = (getMetalinkBody env w).2)

/-! ## The task lists change metalinks by `get_metalink` only -/

theorem MetalinkStep.same {w w' : World} (h : w'.metalink = w.metalink) : MetalinkStep env w w' :=
  .inl h

theorem MetalinkStep.rfl (w : World) : MetalinkStep env w w := .inl (.refl _)

theorem metalink_leave (w : World) (target : Text) (left : Option Text) :
    (w.leave target left).metalink = w.metalink := by
  cases left <;> rfl

theorem metalink_copyFileBody (source target : Text) (w : World) :
    (copyFileBody env source target w).2.metalink = w.metalink := by
  unfold copyFileBody
  split
  · rfl
  · split
    · exact metalink_leave ..
    · rfl

theorem metalink_moveFileBody (source target : Text) (w : World) :
    (moveFileBody env source target w).2.metalink = w.metalink := by
  unfold moveFileBody
  split
  · rfl
  · split
    · exact metalink_leave ..
    · rfl

theorem metalinkStep_copyFile (source target : Text) :
    (copyFile env source target).Steps (MetalinkStep env) :=
  .code (fun w => .same (metalink_copyFileBody source target w)) fun _ => trivial

theorem metalinkStep_moveFile (source target : Text) :
    (moveFile env source target).Steps (MetalinkStep env) :=
  .code (fun w => .same (metalink_moveFileBody source target w)) fun _ => trivial

theorem metalinkStep_checkIso (isoPath : Text) :
    (checkIso env isoPath).Steps (MetalinkStep env) := by
  refine steps_checkIso .rfl (fun h => .same h.metalink) (fun w => .inr rfl) (fun path r w => ?_) _
  unfold cacheMd5
  split <;> exact .same rfl

theorem metalinkStep_copyIso (isoPath : Text) :
    (copyIso env isoPath).Steps (MetalinkStep env) := by
  refine ⟨metalinkStep_checkIso isoPath, fun ok => ?_⟩
  unfold placeIso
  split
  · refine ⟨?_, fun _ => .update (fun w => .same rfl) trivial⟩
    unfold transferIso
    split
    · exact metalinkStep_moveFile _ _
    · exact metalinkStep_copyFile _ _
  · trivial

theorem metalinkStep_judgeCd (cdPath : Text) (ok : Option Value) :
    (judgeCd env cdPath ok).Steps (MetalinkStep env) := by
  unfold judgeCd
  split
  · trivial
  refine .code (fun w => .same (looked_cdSubversion cdPath w).metalink) fun subversion => ?_
  split
  · trivial
  · exact .update (fun w => .same rfl) trivial

theorem metalinkStep_useCdAt (cdPath : Text) :
    (useCdAt env cdPath).Steps (MetalinkStep env) := by
  rw [useCdAt_eq]
  refine .update (fun w => .same rfl) ⟨metalinkStep_copyFile _ _, fun _ => ?_⟩
  exact .update (fun w => .same rfl) ⟨metalinkStep_checkIso _, metalinkStep_judgeCd cdPath⟩

theorem metalinkStep_useCd : (useCd env).Steps (MetalinkStep env) := by
  refine .code (fun w => .same (looked_selectCd w).metalink) fun cdPath => ?_
  split
  · trivial
  · exact metalinkStep_useCdAt _

theorem metalinkStep_useIso : (useIso env).Steps (MetalinkStep env) := by
  refine .code (fun w => .same (looked_selectIso w).metalink) fun isoPath => ?_
  split
  · trivial
  · exact metalinkStep_copyIso _

theorem metalinkStep_getIso : (getIso env).Steps (MetalinkStep env) := by
  refine metalinkStep_useCd.bind fun ok => ?_
  split
  · trivial
  refine metalinkStep_useIso.bind fun ok => ?_
  split <;> trivial

theorem metalinkStep_extractKernel : (extractKernel env).Steps (MetalinkStep env) :=
  .code (fun w => .same (booted_extractKernelBody w).metalink) fun _ => trivial

theorem metalinkStep_outside (name : String) : (outside env name).prog.Steps (MetalinkStep env) :=
  .code (fun w => .rfl w) fun _ => trivial

theorem metalinkStep_tasks (l : Tasklist) :
    ∀ t ∈ l.tasks env, t.prog.Steps (MetalinkStep env) := by
  have hout (names : List String) :
      ∀ t ∈ names.map (outside env), t.prog.Steps (MetalinkStep env) := by
    intro t ht
    obtain ⟨name, -, rfl⟩ := List.mem_map.mp ht
    exact metalinkStep_outside name
  intro t ht
  rcases List.mem_append.mp ht with hb | ha
  · cases l with
    | fixboot => exact hout _ t hb
    | installation =>
      rcases List.mem_append.mp hb with hb | hb
      · exact hout _ t hb
      · obtain rfl := List.mem_singleton.mp hb
        exact metalinkStep_getIso
    | advancedInstallation =>
      rcases List.mem_append.mp hb with hb | hb
      · exact hout _ t hb
      · obtain rfl := List.mem_singleton.mp hb
        exact metalinkStep_getIso
    | cdboot =>
      rcases List.mem_append.mp hb with hb | hb
      · exact hout _ t hb
      · obtain rfl := List.mem_singleton.mp hb
        exact metalinkStep_useCd
  · rcases List.mem_cons.mp ha with rfl | ha
    · exact metalinkStep_extractKernel
    · cases l <;> exact hout _ t ha

/-! ## Why `check_iso` accepts -/

/-- `check_iso` has found no md5 to compare with, or the md5 of the ISO, kept or computed, is the one
of the metalink. -/
def Md5Fits (env : Env) (m : Metalink) (isoPath : Text) (w : World) : Prop :=
  expectedMd5 m = .ok none ∨ expectedMd5 m = .ok (some []) ∨
    ∃ md5sum, expectedMd5 m = .ok (some md5sum) ∧
      (w.isoMd5Hashes isoPath = some md5sum ∨ (w.files isoPath).map env.md5 = some md5sum)

theorem getFileMd5_value {path md5sum : Text} {w : World}
    (h : Value.asText ((getFileMd5 env path).eval true true w).value = some md5sum) :
    (w.files path).map env.md5 = some md5sum := by
  unfold getFileMd5 at h
  rw [Prog.eval_read] at h
  cases hf : w.files path with
  | none => simp [hf, Prog.Outcome.value, Value.asText] at h
  | some content =>
    cases hr : env.readError path with
    | some e => simp [hf, hr, Prog.Outcome.value, Value.asText] at h
    | none => simpa [hf, hr, Prog.Outcome.value, Value.asText] using h

theorem compareMd5_true {md5sum : Text} {md5sum2 : Option Text} {own active : Bool} {w : World}
    (h : ((compareMd5 md5sum md5sum2).eval own active w).result = .ok (some (.bool true))) :
    md5sum2 = some md5sum := by
  simpa [compareMd5] using h

theorem checkIsoMd5_accepts {isoPath : Text} {m : Metalink} {active : Bool} {w : World}
    (h : ((checkIsoMd5 env isoPath m).eval true active w).result = .ok (some (.bool true))) :
    Md5Fits env m isoPath w := by
  unfold checkIsoMd5 at h
  rw [Prog.eval_code] at h
  cases he : expectedMd5 m with
  | error e => simp [he] at h
  | ok md5sum =>
    match md5sum with
    | none => exact .inl he
    | some [] => exact .inr (.inl he)
    | some (c :: md5sum) =>
      refine .inr (.inr ⟨c :: md5sum, he, ?_⟩)
      simp only [he, Prog.eval_read] at h
      have hcall (h : (Prog.eval (.subtask "get_file_md5" true (getFileMd5 env isoPath) fun r =>
          .update (cacheMd5 env isoPath (Value.asText r))
            (compareMd5 (c :: md5sum) (Value.asText r))) true active w).result =
          .ok (some (.bool true))) : (w.files isoPath).map env.md5 = some (c :: md5sum) := by
        cases active with
        | false =>
          rw [Prog.eval_subtask_refused, Prog.eval_update] at h
          exact absurd (compareMd5_true h) (by simp [Value.asText])
        | true =>
          rw [Prog.eval_subtask, Prog.eval_update] at h
          exact getFileMd5_value (compareMd5_true h)
      split at h
      · exact .inr (hcall h)
      · exact .inr (hcall h)
      · next md5sum2 _ hk => exact .inl (hk.trans (compareMd5_true h))

theorem Md5Fits.congr {m : Metalink} {isoPath : Text} {w w' : World}
    (h : Md5Fits env m isoPath w') (hfiles : w'.files = w.files)
    (hhashes : w'.isoMd5Hashes = w.isoMd5Hashes) : Md5Fits env m isoPath w := by
  simpa only [Md5Fits, hfiles, hhashes] using h

theorem World.Looked.isoMd5Hashes {w w' : World} (h : w.Looked w') :
    w'.isoMd5Hashes = w.isoMd5Hashes := by
  cases h
  rfl

theorem isoMd5Hashes_getMetalinkBody (w : World) :
    (getMetalinkBody env w).2.isoMd5Hashes = w.isoMd5Hashes := by
  obtain ⟨w', hf, he | ⟨d, m, -, he⟩⟩ := getMetalinkBody_cases env w
  · rw [he]
    cases hf
    rfl
  · rw [he]
    cases hf
    rfl

theorem currentMetalink_some {w : World} {m : Metalink} (h : w.currentMetalink = .ok (some m)) :
    ∃ d, w.distro = some d ∧ w.metalink d = some m := by
  unfold World.currentMetalink at h
  split at h
  · cases h
  · next d hd => exact ⟨d, hd, Except.ok.inj h⟩

variable (env) in
/-- The comparison at the end of `check_iso` keeps distro and metalinks. -/
theorem kept_checkIsoMd5 (isoPath : Text) (m : Metalink) (own active : Bool) (w : World) :
    ((checkIsoMd5 env isoPath m).eval own active w).world.distro = w.distro ∧
      ((checkIsoMd5 env isoPath m).eval own active w).world.metalink = w.metalink := by
  refine (steps_checkIsoMd5 (R := fun w w' => w'.distro = w.distro ∧ w'.metalink = w.metalink)
    (fun _ => ⟨rfl, rfl⟩) (fun path r w => ?_) isoPath m).eval (fun _ => ⟨rfl, rfl⟩)
      (fun h h' => ⟨h'.1.trans h.1, h'.2.trans h.2⟩) own active w
  unfold cacheMd5
  split <;> exact ⟨rfl, rfl⟩

/-- The world in which `check_iso` asks for the metalink. -/
def checkedWorld (env : Env) (isoPath : Text) (w : World) : World :=
  (setDistroFromArch env isoPath (distroIsValidIso env isoPath false w).2).2

theorem looked_checkedWorld (isoPath : Text) (w : World) :
    w.Looked (checkedWorld env isoPath w) :=
  (looked_distroIsValidIso ..).trans (looked_setDistroFromArch ..)

/-- Why `check_iso` accepts an ISO: nothing is checked, or there is no metalink, or the md5 is right for one that
was there before, as `A` says, or that this call has accepted. -/
def AcceptedFor (env : Env) (A : Distro → Metalink → Prop) (isoPath : Text) (w w' : World) : Prop :=
  env.skipMd5Check = true ∨ w'.currentMetalink = .ok none ∨
    ∃ d m, w'.distro = some d ∧ w'.metalink d = some m ∧
      (A d m ∨ MetalinkAccepted env (checkedWorld env isoPath w) d m) ∧ Md5Fits env m isoPath w

/-- What `check_iso` accepts at its end, for a metalink of which `B` holds -/
theorem checkIsoMd5_acceptsFor {B : Distro → Metalink → Prop} {isoPath : Text} {m : Metalink} {active : Bool}
    {w : World} (hm : w.currentMetalink = .ok (some m)) (hb : ∀ d, w.metalink d = some m → B d m)
    (h : ((checkIsoMd5 env isoPath m).eval true active w).result = .ok (some (.bool true))) :
    ∃ d m', ((checkIsoMd5 env isoPath m).eval true active w).world.distro = some d ∧
      ((checkIsoMd5 env isoPath m).eval true active w).world.metalink d = some m' ∧
      B d m' ∧ Md5Fits env m' isoPath w := by
  obtain ⟨d, hd, hmd⟩ := currentMetalink_some hm
  obtain ⟨hdistro, hmetalink⟩ := kept_checkIsoMd5 env isoPath m true active w
  exact ⟨d, m, hdistro.trans hd, (congrFun hmetalink d).trans hmd, hb d hmd, checkIsoMd5_accepts h⟩

theorem world_getMetalink (own active : Bool) (w : World) :
    ((getMetalink env).eval own active w).world = (getMetalinkBody env w).2 := by
  rw [getMetalink, Prog.eval_code]
  split <;> rfl

theorem checkIsoMetalink_accepts {A : Distro → Metalink → Prop} {isoPath : Text} {w : World}
    (ha : ∀ d m, w.metalink d = some m → A d m) (hf : w.currentMetalink = .ok none → ¬ Forged env w)
    (h : ((checkIsoMetalink env isoPath).eval true true w).result = .ok (some (.bool true))) :
    ((checkIsoMetalink env isoPath).eval true true w).world.currentMetalink = .ok none ∨
      ∃ d m, ((checkIsoMetalink env isoPath).eval true true w).world.distro = some d ∧
        ((checkIsoMetalink env isoPath).eval true true w).world.metalink d = some m ∧
        (A d m ∨ MetalinkAccepted env w d m) ∧ Md5Fits env m isoPath w := by
  unfold checkIsoMetalink at h ⊢
  rw [Prog.eval_code] at h ⊢
  cases hm : w.currentMetalink with
  | error e => simp [hm] at h
  | ok m? =>
    cases m? with
    | some m =>
      simp only [hm] at h ⊢
      exact .inr (checkIsoMd5_acceptsFor hm (fun d hmd => .inl (ha d m hmd)) h)
    | none =>
      simp only [hm, Prog.eval_subtask] at h ⊢
      rw [world_getMetalink] at h ⊢
      rw [Prog.eval_code] at h ⊢
      cases hm' : (getMetalinkBody env w).2.currentMetalink with
      | error e => simp [hm'] at h
      | ok m? =>
        cases m? with
        | none =>
          simp only [Prog.eval_ret]
          exact .inl hm'
        | some m =>
          simp only [hm'] at h ⊢
          -- the metalink is an old one, or this call has stored it
          have hb (d : Distro) (hmd : (getMetalinkBody env w).2.metalink d = some m) :
              A d m ∨ MetalinkAccepted env w d m :=
            (metalink_getMetalinkBody (hf hm) hmd).imp_left (ha d m)
          obtain ⟨d, m', hd, hmd, hstored, hfits⟩ :=
            checkIsoMd5_acceptsFor (B := fun d m => A d m ∨ MetalinkAccepted env w d m) hm' hb h
          exact .inr ⟨d, m', hd, hmd, hstored,
            hfits.congr (sameMedia_getMetalinkBody w).files (isoMd5Hashes_getMetalinkBody w)⟩

theorem checkIso_accepts {A : Distro → Metalink → Prop} {isoPath : Text} {w : World}
    (ha : ∀ d m, w.metalink d = some m → A d m)
    (hf : (checkedWorld env isoPath w).currentMetalink = .ok none →
      ¬ Forged env (checkedWorld env isoPath w))
    (h : ((checkIso env isoPath).eval true true w).result = .ok (some (.bool true))) :
    AcceptedFor env A isoPath w ((checkIso env isoPath).eval true true w).world := by
  have hlook : w.Looked (checkedWorld env isoPath w) := looked_checkedWorld isoPath w
  unfold checkIso at h ⊢
  rw [Prog.eval_code] at h ⊢
  cases hv : (distroIsValidIso env isoPath false w).1 with
  | error e => simp [hv] at h
  | ok valid =>
    cases valid with
    | false => simp [hv] at h
    | true =>
      simp only [hv, Bool.not_true, Bool.false_eq_true, if_false, Prog.eval_code] at h ⊢
      cases harch : (setDistroFromArch env isoPath (distroIsValidIso env isoPath false w).2).1 with
      | error e => simp [harch] at h
      | ok _ =>
        simp only [harch] at h ⊢
        cases hskip : env.skipMd5Check with
        | true => exact .inl hskip
        | false =>
          simp only [hskip, Bool.false_eq_true, if_false] at h ⊢
          have hacc := checkIsoMetalink_accepts (w := checkedWorld env isoPath w)
            (fun d m hm => ha d m (hlook.metalink ▸ hm)) hf h
          refine .inr (hacc.imp_right ?_)
          rintro ⟨d, m, hd, hm, hauth, hfits⟩
          exact ⟨d, m, hd, hm, hauth, hfits.congr hlook.sameMedia.files hlook.isoMd5Hashes⟩

/-! ## Whole runs -/

/-- The task list before its first step -/
abbrev Tasklist.start (env : Env) (l : Tasklist) (w : World) :
    Machine Function Value PyError (ProgControl Value PyError World) World :=
  .init "tasklist" ((l.tasks env).map ProgTask.spec) true w

/-- On the way from `m₀` to `m`, the last step that has changed the metalink of `d` is a call of `get_metalink`
that has accepted the file, and read `metalink` from it. -/
def Authentic (env : Env) (errText : PyError → String)
    (m₀ m : Machine Function Value PyError (ProgControl Value PyError World) World) (d : Distro)
    (metalink : Metalink) : Prop :=
  ∃ n n', Run (progBehaviour errText) m₀ n ∧ Step (progBehaviour errText) n n' ∧
    n'.world = (getMetalinkBody env n.world).2 ∧ MetalinkAccepted env n.world d metalink ∧
    Machine.RunWhere (progBehaviour errText) (fun w w' => w'.metalink d = w.metalink d) n' m

theorem Authentic.tail {errText : PyError → String} {d : Distro} {metalink : Metalink}
    {m₀ m m' : Machine Function Value PyError (ProgControl Value PyError World) World}
    (h : Authentic env errText m₀ m d metalink) (hs : Step (progBehaviour errText) m m')
    (hm : m'.world.metalink d = m.world.metalink d) : Authentic env errText m₀ m' d metalink := by
  obtain ⟨n, n', hn, hstep, hw, hacc, hrun⟩ := h
  exact ⟨n, n', hn, hstep, hw, hacc, hrun.tail ⟨hs, hm⟩⟩

/-- In every run of a task list in which no call of `get_metalink` gets a forged file, each stored metalink was
set by a call that has accepted the file it was read from, and `check_iso` accepts no ISO for the md5 of
another metalink. -/
theorem metalinks_authentic {errText : PyError → String} {l : Tasklist} {w : World}
    {m : Machine Function Value PyError (ProgControl Value PyError World) World} (hw : ∀ d, w.metalink d = none)
    (hrun : Machine.RunWhere (progBehaviour errText) (NotForged env) (l.start env w) m) :
    (∀ d metalink, m.world.metalink d = some metalink → Authentic env errText (l.start env w) m d metalink) ∧
      ∀ isoPath, ((checkedWorld env isoPath m.world).currentMetalink = .ok none →
          ¬ Forged env (checkedWorld env isoPath m.world)) →
        ((checkIso env isoPath).eval true true m.world).result = .ok (some (.bool true)) →
        AcceptedFor env (Authentic env errText (l.start env w) m) isoPath m.world
          ((checkIso env isoPath).eval true true m.world).world := by
  have hall : ∀ d metalink, m.world.metalink d = some metalink →
      Authentic env errText (l.start env w) m d metalink := by
    refine Machine.run_invariant (I := fun m => ∀ d metalink, m.world.metalink d = some metalink →
      Authentic env errText (l.start env w) m d metalink) (metalinkStep_tasks l) ?_ ?_ hrun
    · intro n n' hn hstep hok hworld ih d metalink hm
      -- the step leaves the metalink as it was, or it is the call that stores it
      by_cases hsame : n'.world.metalink d = n.world.metalink d
      · exact (ih d metalink (hsame ▸ hm)).tail hstep hsame
      · rcases hworld with hworld | hworld | hworld
        · exact (hsame (by rw [hworld])).elim
        · exact (hsame (congrFun hworld d)).elim
        · rw [hworld] at hm
          rcases metalink_getMetalinkBody (fun hf => hok ⟨hf, hworld⟩) hm with hold | hacc
          · exact (hsame (by rw [hworld, hm, hold])).elim
          · exact ⟨n, n', Relation.ReflTransGen.mono (fun _ _ hs => hs.1) _ _ hn, hstep, hworld, hacc, .refl⟩
    · intro d metalink hm
      have hnone : w.metalink d = some metalink := hm
      rw [hw] at hnone
      cases hnone
  exact ⟨hall, fun isoPath hf h => checkIso_accepts hall hf h⟩

/-- Every download leaves the same signed line, and it fits. -/
private def signedEnv : Env := { Sample.env with
  cdSearchPaths := []
  basename _ := "meta".toList
  md5 _ := "iso".toList
  download _ url := .ok (url, "iso meta".toList)
  parseMetalink _ := .ok ⟨[[⟨"md5".toList, "iso".toList⟩]]⟩ }

private theorem not_forged (w : World) : ¬ Forged signedEnv w := by
  rintro ⟨-, d, path, baseUrl, w₁, md5sums, w₂, signature, w₃, -, h₁, h₂, h₃, hm⟩
  have hline {p text : Text} (hp : FromDownload signedEnv w₃ p) (ht : w₃.downloads p = some text) :
      text = "iso meta".toList := by
    obtain ⟨text', ht', _, _, _, hd⟩ := hp
    obtain rfl := Option.some.inj (ht.symm.trans ht')
    exact (congrArg Prod.snd (Except.ok.inj hd)).symm
  have hpath := ((fromDownload_fetchMetalink h₁).download h₂).download h₃
  have hsums := (fromDownload_download h₂).download h₃
  obtain ⟨content, hc, -⟩ := hpath
  rcases hm with ⟨list, sig, hl, -, hv | ⟨-, table, ht, hne⟩⟩
  · cases hv
  · rw [hline hsums hl] at ht
    have htable : table "meta".toList = some "iso".toList := by
      rw [← Except.ok.inj ht]
      decide
    exact hne (by rw [hc]; exact htable)

/-- The installation on the sample computer stores the metalink and accepts the ISO for it. -/
theorem metalinks_authentic_sample :
    ∃ m : Machine Function Value PyError (ProgControl Value PyError World) World,
      m.world.metalink Sample.distro = some ⟨[[⟨"md5".toList, "iso".toList⟩]]⟩ ∧
      (∀ d metalink, m.world.metalink d = some metalink → Authentic signedEnv (fun _ => "")
        (Tasklist.start signedEnv .installation Sample.world) m d metalink) ∧
      AcceptedFor signedEnv (Authentic signedEnv (fun _ => "")
          (Tasklist.start signedEnv .installation Sample.world) m) "e:\\startos.iso".toList m.world
        ((checkIso signedEnv "e:\\startos.iso".toList).eval true true m.world).world := by
  obtain ⟨m, hrun, -, hw, -⟩ := Machine.tasks_thread (fun _ : PyError => "") "tasklist"
    (Tasklist.tasks signedEnv .installation) true Sample.world
  have hrun' : Machine.RunWhere (progBehaviour fun _ => "") (NotForged signedEnv)
      (Tasklist.start signedEnv .installation Sample.world) m :=
    Relation.ReflTransGen.mono (fun _ _ hs => ⟨hs, fun hf => not_forged _ hf.1⟩) _ _ hrun
  obtain ⟨hall, hacc⟩ := metalinks_authentic (fun _ => rfl) hrun'
  refine ⟨m, by rw [hw]; rfl, hall, hacc _ (fun _ => not_forged _) ?_⟩
  rw [hw]
  rfl

/-- With a list that is not signed, the metalink is stored all the same. -/
theorem unsigned_metalink_stored :
    ∃ m : Machine Function Value PyError (ProgControl Value PyError World) World,
      Run (progBehaviour fun _ => "") (Tasklist.start { signedEnv with verifyGpgSignature := fun _ _ => .ok false }
        .installation Sample.world) m ∧
      ∃ metalink, m.world.metalink Sample.distro = some metalink ∧
        ¬ Authentic { signedEnv with verifyGpgSignature := fun _ _ => .ok false } (fun _ => "")
          (Tasklist.start { signedEnv with verifyGpgSignature := fun _ _ => .ok false } .installation Sample.world)
          m Sample.distro metalink := by
  obtain ⟨m, hrun, -, hw, -⟩ := Machine.tasks_thread (fun _ : PyError => "") "tasklist"
    (Tasklist.tasks { signedEnv with verifyGpgSignature := fun _ _ => .ok false } .installation)
    true Sample.world
  refine ⟨m, hrun, ⟨[[⟨"md5".toList, "iso".toList⟩]]⟩, by rw [hw]; rfl, ?_⟩
  rintro ⟨n, n', -, -, -, ⟨-, path, baseUrl, w₁, w₂, content, -, -, -, -, hskip | hsigned⟩, -⟩
  · cases hskip
  · obtain ⟨_, _, _, _, _, _, -, -, -, -, hv, -⟩ := hsigned
    cases hv

end Swinst.Retrieval
