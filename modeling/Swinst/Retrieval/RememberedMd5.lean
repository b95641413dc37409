import Swinst.Retrieval.Authentic

/-! The digests that `check_iso` remembers by the path of the ISO, over sequences of checks between
which the files may change. -/

namespace Swinst.Retrieval

open TaskList

variable (env : Env)

/-- How the subtask `get_file_md5` of `check_iso` ends. -/
inductive DigestRun where
  | completed
  /-- a progress report was answered with the order to stop: `return` -/
  | cancelled
  | failed (e : PyError)

def DigestRun.body (isoPath : Text) : DigestRun → Function
  | completed => getFileMd5 env isoPath
  | cancelled => .ret none
  | failed e => .raise e

/-- `check_iso` with such a subtask -/
def checkIsoIn (isoPath : Text) (run : DigestRun) : Function :=
  .withBody "get_file_md5" (run.body env isoPath) (checkIso env isoPath)

inductive Event where
  | check (isoPath : Text) (run : DigestRun)
  /-- the files on the computer become `files` -/
  | change (files : Text → Option Text)

/-- What is there after the event; a check is a call on an active task. -/
def Event.apply (w : World) : Event → World
  | check isoPath run => ((checkIsoIn env isoPath run).eval true true w).world
  | change files => { w with files := files }

/-- The worlds that a sequence of events comes to, all of which are as `ok` says. -/
def Reached (ok : World → Event → Prop) : World → World → Prop :=
  Relation.ReflTransGen fun w w' => ∃ e : Event, ok w e ∧ w' = e.apply env w

/-- `is_valid_iso` accepts the ISO. -/
def Valid (isoPath : Text) (w : World) : Prop := (distroIsValidIso env isoPath false w).1 = .ok true

/-- `set_distro_from_arch` leaves the distro as it is. -/
def NoSwitch (isoPath : Text) (w : World) : Prop :=
  Valid env isoPath w →
    ∃ w', setDistroFromArch env isoPath (distroIsValidIso env isoPath false w).2 = (.ok (), w') ∧
      w'.distro = w.distro

/-- The events that are considered: paths are resolved as usual, and no check switches the distro. -/
def Event.Considered (w : World) : Event → Prop
  | check isoPath _ => NoSwitch env isoPath w
  | change files => ∀ path, files (env.platform.abspath path) = files path

/-- The metalink of the distro has one md5 for its first file. -/
structure Expects (md5sum : Text) (w : World) : Prop where
  distro : ∃ d m hashes rest, w.distro = some d ∧ w.metalink d = some m ∧
    m.files = hashes :: rest ∧
    hashes.filter (fun hash => hash.type = "md5".toList) = [⟨"md5".toList, md5sum⟩]

/-- `check_iso` returns `True` for an ISO that is valid and has the md5 of the metalink, and for no
other. -/
def Right (md5sum isoPath : Text) (run : DigestRun) (w : World) : Prop :=
  ((checkIsoIn env isoPath run).eval true true w).result = .ok (some (.bool true)) ↔
    Valid env isoPath w ∧ (w.files isoPath).map env.md5 = some md5sum

theorem withBody_checkIsoMd5 (isoPath : Text) (m : Metalink) :
    Prog.withBody "get_file_md5" (getFileMd5 env isoPath) (checkIsoMd5 env isoPath m) =
      checkIsoMd5 env isoPath m := by
  rw [checkIsoMd5, Prog.withBody_code]
  congr 1
  funext md5sum
  match md5sum with
  | none | some [] => rfl
  | some (c :: s) =>
    simp only [Prog.read, Prog.withBody]
    congr 1
    funext w
    match w.isoMd5Hashes isoPath with
    | none | some [] | some (_ :: _) => rfl

/-- A digest run that comes to its end is the one of `check_iso`. -/
theorem checkIsoIn_completed (isoPath : Text) :
    checkIsoIn env isoPath .completed = checkIso env isoPath := by
  rw [checkIsoIn, checkIso, Prog.withBody_code]
  congr 1
  funext valid
  cases valid with
  | false => rfl
  | true =>
    simp only [Bool.not_true, Bool.false_eq_true, if_false]
    rw [Prog.withBody_code]
    congr 1
    funext _
    split
    · rfl
    rw [checkIsoMetalink, Prog.withBody_code]
    congr 1
    funext metalink
    cases metalink with
    | some m => exact withBody_checkIsoMd5 env isoPath m
    | none =>
      simp only [Prog.withBody, String.reduceEq, if_false]
      congr 1
      funext _
      rw [Prog.withBody_code]
      congr 1
      funext metalink
      cases metalink with
      | some m => exact withBody_checkIsoMd5 env isoPath m
      | none => rfl

/-- The digest that `check_iso` finds in `iso_md5_hashes`. -/
def remembered (isoPath : Text) (w : World) : Option Text :=
  (w.isoMd5Hashes isoPath).filter (· ≠ [])

/-- A file whose digest is remembered gets the md5 of the metalink, or loses it, only if the
remembered digest says the same. -/
def Event.Harmless (md5sum : Text) (w : World) : Event → Prop
  | check _ _ => True
  | change files => ∀ {path digest content}, remembered path w = some digest →
    files path = some content → (env.md5 content = md5sum ↔ digest = md5sum)

variable {env}

theorem eval_remembered {body : Function} {isoPath md5sum digest : Text} {m : Metalink} {w : World}
    (hm : expectedMd5 m = .ok (some md5sum)) (hne : md5sum ≠ [])
    (hd : remembered isoPath w = some digest) :
    (Prog.withBody "get_file_md5" body (checkIsoMd5 env isoPath m)).eval true true w =
      ⟨.ok (some (.bool (decide (digest = md5sum)))), true, true, w⟩ := by
  obtain ⟨c, s, rfl⟩ := List.exists_cons_of_ne_nil hne
  obtain ⟨hd, hdne⟩ := Option.filter_eq_some_iff.mp hd
  obtain ⟨c', s', rfl⟩ := List.exists_cons_of_ne_nil (by simpa using hdne)
  rw [checkIsoMd5, Prog.withBody_code, Prog.eval_code]
  simp [hm, Prog.read, Prog.withBody, Prog.eval, hd, compareMd5]

theorem eval_computed {body : Function} {isoPath md5sum : Text} {m : Metalink} {w : World}
    (hm : expectedMd5 m = .ok (some md5sum)) (hne : md5sum ≠ []) (hd : remembered isoPath w = none) :
    let o := body.eval true true w
    (Prog.withBody "get_file_md5" body (checkIsoMd5 env isoPath m)).eval true true w =
      ⟨.ok (some (.bool (decide (Value.asText o.value = some md5sum)))), true, o.keepsActive true,
        cacheMd5 env isoPath (Value.asText o.value) o.world⟩ := by
  obtain ⟨c, s, rfl⟩ := List.exists_cons_of_ne_nil hne
  rw [checkIsoMd5, Prog.withBody_code, Prog.eval_code]
  have hmiss : w.isoMd5Hashes isoPath = none ∨ w.isoMd5Hashes isoPath = some [] := by
    cases hw : w.isoMd5Hashes isoPath with
    | none => exact .inl rfl
    | some digest => simpa [remembered, hw] using hd
  rcases hmiss with hw | hw <;>
    simp [hm, Prog.read, Prog.withBody, Prog.eval, hw, compareMd5, Prog.update]

theorem Expects.congr {md5sum : Text} {w w' : World} (h : Expects md5sum w)
    (hd : w'.distro = w.distro) (hm : w'.metalink = w.metalink) : Expects md5sum w' := by
  obtain ⟨d, m, hashes, rest, hdistro, hmeta, hfiles, hfilter⟩ := h.distro
  exact ⟨d, m, hashes, rest, hd.trans hdistro, hm ▸ hmeta, hfiles, hfilter⟩

theorem Expects.metalink {md5sum : Text} {w : World} (h : Expects md5sum w) :
    ∃ m, w.currentMetalink = .ok (some m) ∧ expectedMd5 m = .ok (some md5sum) := by
  obtain ⟨d, m, hashes, rest, hdistro, hmeta, hfiles, hfilter⟩ := h.distro
  refine ⟨m, ?_, ?_⟩
  · rw [World.currentMetalink, hdistro]
    exact congrArg Except.ok hmeta
  · rw [expectedMd5, hfiles]
    simp only [hfilter]
    rfl

/-- A check of an ISO that is not valid. -/
theorem eval_invalid {isoPath : Text} {run : DigestRun} {w : World} (hv : ¬ Valid env isoPath w) :
    ((checkIsoIn env isoPath run).eval true true w).result ≠ .ok (some (.bool true)) ∧
      ((checkIsoIn env isoPath run).eval true true w).world =
        (distroIsValidIso env isoPath false w).2 := by
  rw [checkIsoIn, checkIso, Prog.withBody_code, Prog.eval_code]
  cases hr : (distroIsValidIso env isoPath false w).1 with
  | error e => exact ⟨nofun, rfl⟩
  | ok valid =>
    cases valid with
    | true => exact (hv hr).elim
    | false => exact ⟨by simp [Prog.withBody], rfl⟩

/-- A check of a valid ISO comes to the comparison. -/
theorem eval_valid (hskip : env.skipMd5Check = false) {md5sum isoPath : Text} (run : DigestRun)
    {w : World} (hx : Expects md5sum w) (hv : Valid env isoPath w) (hno : NoSwitch env isoPath w) :
    ∃ m w', expectedMd5 m = .ok (some md5sum) ∧ w.Looked w' ∧ w'.distro = w.distro ∧
      (checkIsoIn env isoPath run).eval true true w =
        (Prog.withBody "get_file_md5" (run.body env isoPath)
          (checkIsoMd5 env isoPath m)).eval true true w' := by
  obtain ⟨w', hset, hdistro⟩ := hno hv
  have hlook : w.Looked w' := by
    have h : w.Looked (setDistroFromArch env isoPath (distroIsValidIso env isoPath false w).2).2 :=
      (looked_distroIsValidIso ..).trans (looked_setDistroFromArch ..)
    rwa [hset] at h
  obtain ⟨m, hm, hmd5⟩ := (hx.congr hdistro hlook.metalink).metalink
  refine ⟨m, w', hmd5, hlook, hdistro, ?_⟩
  have hvalid : distroIsValidIso env isoPath false w =
      (.ok true, (distroIsValidIso env isoPath false w).2) := Prod.ext hv rfl
  rw [checkIsoIn, checkIso, Prog.withBody_code, Prog.eval_code_ok hvalid]
  simp only [Bool.not_true, Bool.false_eq_true, if_false]
  rw [Prog.withBody_code, Prog.eval_code_ok hset, hskip, if_neg Bool.false_ne_true,
    checkIsoMetalink, Prog.withBody_code, Prog.eval_code]
  simp only [hm]

/-! ## The digest -/

theorem DigestRun.eval_world (run : DigestRun) (isoPath : Text) (w : World) :
    ((run.body env isoPath).eval true true w).world = w := by
  cases run with
  | completed =>
    rw [body, getFileMd5, Prog.eval_read]
    split
    · rfl
    · split <;> rfl
  | cancelled => rfl
  | failed e => rfl

/-- A digest that a subtask returns is the one of the file. -/
theorem DigestRun.eval_value {run : DigestRun} {isoPath digest : Text} {w : World}
    (h : Value.asText ((run.body env isoPath).eval true true w).value = some digest) :
    (w.files isoPath).map env.md5 = some digest := by
  cases run with
  | completed => exact getFileMd5_value h
  | cancelled => cases h
  | failed e => cases h

theorem getFileMd5_completed {isoPath : Text} (hread : env.readError isoPath = none) (w : World) :
    Value.asText ((getFileMd5 env isoPath).eval true true w).value =
      (w.files isoPath).map env.md5 := by
  rw [getFileMd5, Prog.eval_read]
  cases hf : w.files isoPath with
  | none => rfl
  | some content => simp [hread, Prog.Outcome.value, Value.asText]

/-- What stays true while the sequence goes on. -/
structure Kept (env : Env) (md5sum : Text) (w : World) : Prop where
  expects : Expects md5sum w
  abspath : ∀ path, w.files (env.platform.abspath path) = w.files path
  agrees : ∀ {path digest content}, remembered path w = some digest → w.files path = some content →
    (env.md5 content = md5sum ↔ digest = md5sum)

namespace Kept

variable {md5sum : Text} {w w' : World}

theorem looked (h : Kept env md5sum w) (hl : w.Looked w') (hd : w'.distro = w.distro) :
    Kept env md5sum w' where
  expects := h.expects.congr hd hl.metalink
  abspath := hl.sameMedia.files ▸ h.abspath
  agrees hr hf := by
    simp only [remembered, hl.isoMd5Hashes] at hr
    exact h.agrees hr (hl.sameMedia.files ▸ hf)

/-- A new entry is the digest of the file as it is. -/
theorem cacheMd5 (h : Kept env md5sum w) {isoPath : Text} {r : Option Text}
    (hr : ∀ digest, r = some digest → (w.files isoPath).map env.md5 = some digest) :
    Kept env md5sum (Retrieval.cacheMd5 env isoPath r w) := by
  unfold Retrieval.cacheMd5
  split
  · exact h
  refine ⟨h.expects.congr rfl rfl, h.abspath, fun {path digest content} hrem hf => ?_⟩
  by_cases hp : path = isoPath
  · subst hp
    have hdigest : r = some digest := by
      simp only [remembered, Function.update_self, Option.filter_eq_some_iff] at hrem
      exact hrem.1
    have hmd5 := hr digest hdigest
    rw [show w.files path = some content from hf] at hmd5
    rw [Option.some.inj hmd5]
  · have hold : remembered path w = some digest := by
      simpa only [remembered, Function.update_of_ne hp] using hrem
    exact h.agrees hold hf

theorem check (h : Kept env md5sum w) (hskip : env.skipMd5Check = false) (hne : md5sum ≠ [])
    {isoPath : Text} (run : DigestRun) (hno : NoSwitch env isoPath w) :
    Kept env md5sum ((checkIsoIn env isoPath run).eval true true w).world := by
  by_cases hv : Valid env isoPath w
  · obtain ⟨m, w', hm, hlook, hd, heval⟩ := eval_valid hskip run h.expects hv hno
    have hkept : Kept env md5sum w' := h.looked hlook hd
    rw [heval]
    cases hrem : remembered isoPath w' with
    | some digest =>
      rw [eval_remembered hm hne hrem]
      exact hkept
    | none =>
      rw [eval_computed hm hne hrem, run.eval_world]
      exact hkept.cacheMd5 fun digest hdigest => run.eval_value hdigest
  · rw [(eval_invalid hv).2]
    exact h.looked (looked_distroIsValidIso ..) (distro_distroIsValidIso ..)

theorem apply (h : Kept env md5sum w) (hskip : env.skipMd5Check = false) (hne : md5sum ≠ [])
    {e : Event} (hc : e.Considered env w) (hh : e.Harmless env md5sum w) :
    Kept env md5sum (e.apply env w) := by
  cases e with
  | check isoPath run => exact h.check hskip hne run hc
  | change files => exact ⟨h.expects.congr rfl rfl, hc, hh⟩

end Kept

theorem file_of_valid {isoPath : Text} {w : World} (hv : Valid env isoPath w) :
    ∃ content, w.files (env.platform.abspath isoPath) = some content := by
  unfold Valid distroIsValidIso at hv
  cases hd : w.distro with
  | none => simp [hd] at hv
  | some d =>
    cases hf : w.files (env.platform.abspath isoPath) with
    | some content => exact ⟨content, rfl⟩
    | none => simp [hd, World.isValidIso, Distro.isValidIso, World.storage, hf] at hv

/-- A check whose digest is computed to the end, or remembered. -/
theorem Kept.right {md5sum isoPath : Text} {w : World} (h : Kept env md5sum w)
    (hskip : env.skipMd5Check = false) (hne : md5sum ≠ []) (hno : NoSwitch env isoPath w)
    (hread : env.readError isoPath = none) : Right env md5sum isoPath .completed w := by
  unfold Right
  by_cases hv : Valid env isoPath w
  · obtain ⟨m, w', hm, hlook, hd, heval⟩ := eval_valid hskip .completed h.expects hv hno
    obtain ⟨content, hcontent⟩ := file_of_valid hv
    rw [h.abspath] at hcontent
    have hcontent' : w'.files isoPath = some content := hlook.sameMedia.files ▸ hcontent
    rw [heval, hcontent, Option.map_some, Option.some_inj]
    cases hrem : remembered isoPath w' with
    | some digest =>
      rw [eval_remembered hm hne hrem, (h.looked hlook hd).agrees hrem hcontent']
      simp [hv]
    | none =>
      rw [eval_computed hm hne hrem, DigestRun.body, getFileMd5_completed hread, hcontent']
      simp [hv]
  · exact iff_of_false (eval_invalid hv).1 fun h => hv h.1

/-- In every sequence of checks and changes of the files in which no change is one that a remembered
digest conceals, every check whose digest is computed to the end gives the right answer. -/
theorem checkIso_right (hskip : env.skipMd5Check = false) {md5sum : Text} (hne : md5sum ≠ [])
    {w₀ w : World} (hexp : Expects md5sum w₀) (hhashes : ∀ path, w₀.isoMd5Hashes path = none)
    (hpaths : ∀ path, w₀.files (env.platform.abspath path) = w₀.files path)
    (hrun : Reached env (fun w e => e.Considered env w ∧ e.Harmless env md5sum w) w₀ w)
    {isoPath : Text} (hno : NoSwitch env isoPath w) (hread : env.readError isoPath = none) :
    Right env md5sum isoPath .completed w := by
  refine Kept.right ?_ hskip hne hno hread
  clear hno
  induction hrun with
  | refl => exact ⟨hexp, hpaths, fun hrem => by simp [remembered, hhashes] at hrem⟩
  | tail _ hstep ih =>
    obtain ⟨e, ⟨hc, hh⟩, rfl⟩ := hstep
    exact ih.apply hskip hne hc hh

theorem noSwitch_of_checkArch (h : env.checkArch = true) (isoPath : Text) (w : World) :
    NoSwitch env isoPath w := fun _ =>
  ⟨_, by rw [setDistroFromArch, if_pos h], distro_distroIsValidIso ..⟩

private def startosIso : Text := "e:\\startos.iso".toList

/-- The sample computer after the metalink has come. -/
private def knownWorld : World := { Sample.world with
  metalink _ := some ⟨[[⟨"md5".toList, "iso".toList⟩]]⟩ }

private theorem expects_known : Expects "iso".toList knownWorld :=
  ⟨Sample.distro, _, _, [], rfl, rfl, rfl, by decide⟩

private theorem noSwitch_startos (w : World) : NoSwitch Sample.env startosIso w :=
  noSwitch_of_checkArch rfl _ _

/-- After a check that was cancelled the next one is right. -/
theorem checkIso_right_cancelled : Right Sample.env "iso".toList startosIso .completed
    (Event.apply Sample.env knownWorld (.check startosIso .cancelled)) :=
  checkIso_right rfl (by decide) expects_known (fun _ => rfl) (fun _ => rfl)
    (.single ⟨.check startosIso .cancelled, ⟨noSwitch_startos _, trivial⟩, rfl⟩)
    (noSwitch_startos _) rfl

/-- The ISO that was checked is replaced by another one. -/
private def replaced : Text → Option Text :=
  fun path => if path = startosIso then some "bad".toList else none

/-- The check of the new ISO goes by the digest of the old one. -/
theorem replaced_iso_accepted : ∃ w : World,
    Reached Sample.env (fun w e => e.Considered Sample.env w) knownWorld w ∧
      NoSwitch Sample.env startosIso w ∧ ¬ Right Sample.env "iso".toList startosIso .completed w := by
  refine ⟨_, .tail (.single ⟨.check startosIso .completed, noSwitch_startos _, rfl⟩)
    ⟨.change replaced, fun _ => rfl, rfl⟩, noSwitch_startos _, fun h => ?_⟩
  have hmd5 := (h.mp rfl).2
  exact absurd hmd5 (by decide)

end Swinst.Retrieval
