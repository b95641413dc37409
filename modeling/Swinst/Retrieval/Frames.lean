import Swinst.Retrieval.Kernel
import Swinst.TaskList.ProgramWorlds

/-! What the functions that retrieve the installation files leave alone. -/

namespace Swinst.Retrieval

open TaskList

variable {env : Env}

/-- Only what a check may change: caches, downloads, the choice of the distro. -/
structure World.SameMedia (w w' : World) : Prop where
  files : w'.files = w.files
  boot : w'.boot = w.boot
  cdPath : w'.cdPath = w.cdPath
  cdDistro : w'.cdDistro = w.cdDistro
  isoPath : w'.isoPath = w.isoPath
  isoDistro : w'.isoDistro = w.isoDistro

theorem World.SameMedia.rfl {w : World} : w.SameMedia w := by
  constructor <;> exact Eq.refl _

theorem World.SameMedia.trans {w w' w'' : World} (h : w.SameMedia w') (h' : w'.SameMedia w'') :
    w.SameMedia w'' where
  files := h'.files.trans h.files
  boot := h'.boot.trans h.boot
  cdPath := h'.cdPath.trans h.cdPath
  cdDistro := h'.cdDistro.trans h.cdDistro
  isoPath := h'.isoPath.trans h.isoPath
  isoDistro := h'.isoDistro.trans h.isoDistro

/-- A check of a medium: only the caches and the distro change. -/
inductive World.Looked (w : World) : World → Prop where
  | mk (c : Caches) (d : Option Distro) : w.Looked { w with caches := c, distro := d }

theorem World.Looked.sameMedia {w w' : World} (h : w.Looked w') : w.SameMedia w' := by
  cases h
  constructor <;> exact Eq.refl _

theorem World.Looked.metalink {w w' : World} (h : w.Looked w') : w'.metalink = w.metalink := by
  cases h
  rfl

theorem World.Looked.rfl {w : World} : w.Looked w := .mk w.caches w.distro

theorem World.Looked.trans {w w' w'' : World} (h : w.Looked w') (h' : w'.Looked w'') :
    w.Looked w'' := by
  cases h
  cases h'
  exact .mk ..

theorem looked_distroIsValidIso (path : Text) (checkArch : Bool) (w : World) :
    w.Looked (distroIsValidIso env path checkArch w).2 := by
  unfold distroIsValidIso
  split
  · exact .rfl
  · exact .mk _ w.distro

theorem distro_distroIsValidIso (path : Text) (checkArch : Bool) (w : World) :
    (distroIsValidIso env path checkArch w).2.distro = w.distro := by
  unfold distroIsValidIso
  split <;> rfl

theorem looked_getInfo (d : Distro) (path : Text) (w : World) :
    w.Looked (w.getInfo env d path).2 := .mk _ w.distro

theorem looked_setDistroFromArch (path : Text) (w : World) :
    w.Looked (setDistroFromArch env path w).2 := by
  unfold setDistroFromArch
  split
  · exact .rfl
  split
  · exact .rfl
  next d hd =>
  have hinfo : w.Looked (w.getInfo env d path).2 := looked_getInfo d path w
  split
  · next hi =>
    rw [hi] at hinfo
    exact hinfo
  next info w' hi =>
  rw [hi] at hinfo
  split
  · exact hinfo
  · exact hinfo.trans (.mk w'.caches _)

theorem looked_findCd (paths : List Text) (w : World) : w.Looked (findCd env paths w).2 := by
  induction paths generalizing w with
  | nil => exact .rfl
  | cons path paths ih =>
    unfold findCd
    split
    · exact .rfl
    next d hd =>
    have hvalid : w.Looked (w.isValidCd env d (env.platform.abspath path) env.checkArch).2 :=
      .mk _ w.distro
    split
    · next hv =>
      rw [hv] at hvalid
      exact hvalid
    · next w' hv =>
      rw [hv] at hvalid
      exact hvalid.trans (ih w')

theorem looked_findIso (isos : List Text) (w : World) : w.Looked (findIso env isos w).2 := by
  induction isos generalizing w with
  | nil => exact .rfl
  | cons iso isos ih =>
    have hvalid : w.Looked (distroIsValidIso env iso env.checkArch w).2 :=
      looked_distroIsValidIso iso env.checkArch w
    unfold findIso
    split
    · next hv =>
      rw [hv] at hvalid
      exact hvalid
    · next hv =>
      rw [hv] at hvalid
      exact hvalid
    · next w' hv =>
      rw [hv] at hvalid
      exact hvalid.trans (ih w')

theorem looked_selectCd (w : World) : w.Looked (selectCd env w).2 := by
  unfold selectCd
  dsimp only
  split
  · exact .rfl
  · exact looked_findCd _ w

theorem looked_selectIso (w : World) : w.Looked (selectIso env w).2 := by
  unfold selectIso
  split
  · split
    · exact .rfl
    · split
      · exact .rfl
      · exact looked_findIso _ w
  · exact looked_findIso _ w

theorem looked_cdSubversion (cdPath : Text) (w : World) :
    w.Looked (cdSubversion env cdPath w).2 := by
  unfold cdSubversion
  split
  · exact .rfl
  next d hd =>
  have hinfo : w.Looked (w.getInfo env d cdPath).2 := looked_getInfo d cdPath w
  split
  · next hi =>
    rw [hi] at hinfo
    exact hinfo
  · next hi =>
    rw [hi] at hinfo
    exact hinfo

/-! ## Downloads -/

/-- Downloads, and nothing else. -/
inductive World.Fetched (w : World) : World → Prop where
  | mk (n : Nat) (downloads : Text → Option Text) :
    w.Fetched { w with clock := n, downloads := downloads }

theorem World.Fetched.rfl {w : World} : w.Fetched w := .mk w.clock w.downloads

theorem World.Fetched.trans {w w' w'' : World} (h : w.Fetched w') (h' : w'.Fetched w'') :
    w.Fetched w'' := by
  cases h
  cases h'
  exact .mk ..

theorem World.Fetched.sameMedia {w w' : World} (h : w.Fetched w') : w.SameMedia w' := by
  cases h
  constructor <;> exact Eq.refl _

theorem World.Fetched.metalink {w w' : World} (h : w.Fetched w') : w'.metalink = w.metalink := by
  cases h
  rfl

theorem World.Fetched.distro {w w' : World} (h : w.Fetched w') : w'.distro = w.distro := by
  cases h
  rfl

theorem fetched_download {url : Text} {w w' : World} {r : Except PyError Text}
    (h : download env url w = (r, w')) : w.Fetched w' := by
  unfold download at h
  split at h <;> obtain ⟨-, rfl⟩ := Prod.mk.injEq .. ▸ h <;> exact .mk ..

theorem fetched_fetchMetalink {w w' : World} {r : Except PyError (Option (Text × Text))}
    (h : fetchMetalink env w = (r, w')) : w.Fetched w' := by
  unfold fetchMetalink at h
  split at h
  · obtain ⟨-, rfl⟩ := Prod.mk.injEq .. ▸ h
    exact .rfl
  split at h
  · next h₁ =>
    obtain ⟨-, rfl⟩ := Prod.mk.injEq .. ▸ h
    exact fetched_download h₁
  next h₁ =>
  split at h
  all_goals
    next h₂ =>
    obtain ⟨-, rfl⟩ := Prod.mk.injEq .. ▸ h
    exact (fetched_download h₁).trans (fetched_download h₂)

theorem fetched_checkMetalink {w w' : World} {metalink baseUrl : Text} {r : Except PyError Bool}
    (h : checkMetalink env metalink baseUrl w = (r, w')) : w.Fetched w' := by
  unfold checkMetalink at h
  split at h
  · obtain ⟨-, rfl⟩ := Prod.mk.injEq .. ▸ h
    exact .rfl
  split at h
  · obtain ⟨-, rfl⟩ := Prod.mk.injEq .. ▸ h
    exact .rfl
  split at h
  · next h₁ =>
    obtain ⟨-, rfl⟩ := Prod.mk.injEq .. ▸ h
    exact fetched_download h₁
  next h₁ =>
  split at h
  all_goals
    next h₂ =>
    obtain ⟨-, rfl⟩ := Prod.mk.injEq .. ▸ h
    exact (fetched_download h₁).trans (fetched_download h₂)

/-- Where `get_metalink` stores a metalink: what it has downloaded, judged and parsed. -/
structure Stored (env : Env) (w : World) (d : Distro) (m : Metalink) : Prop where
  distro : w.distro = some d
  judged : ∃ path baseUrl w₁ w₂ b content,
    fetchMetalink env w = (.ok (some (path, baseUrl)), w₁) ∧
    checkMetalink env path baseUrl w₁ = (.ok b, w₂) ∧ w₂.downloads path = some content ∧
    env.parseMetalink content = .ok m

/-- Everything `get_metalink` can do: after some downloads it stores at most one metalink. -/
theorem getMetalinkBody_cases (env : Env) (w : World) :
    ∃ w', w.Fetched w' ∧ ((getMetalinkBody env w).2 = w' ∨ ∃ d m, Stored env w d m ∧
      (getMetalinkBody env w).2 = { w' with metalink := Function.update w.metalink d (some m) }) := by
  unfold getMetalinkBody
  split
  · next h => exact ⟨_, fetched_fetchMetalink h, .inl rfl⟩
  · next h => exact ⟨_, fetched_fetchMetalink h, .inl rfl⟩
  next path baseUrl w₁ h₁ =>
  have hf₁ := fetched_fetchMetalink h₁
  split
  · next h₂ => exact ⟨_, hf₁.trans (fetched_checkMetalink h₂), .inl rfl⟩
  next b w₂ h₂ =>
  have hf₂ := hf₁.trans (fetched_checkMetalink h₂)
  refine ⟨w₂, hf₂, ?_⟩
  unfold setMetalink
  split
  · exact .inl rfl
  next content hc =>
  split
  · exact .inl rfl
  · exact .inl rfl
  next m d hm hd =>
  refine .inr ⟨d, m, ⟨hf₂.distro ▸ hd, path, baseUrl, w₁, w₂, b, content, h₁, h₂, hc, hm⟩, ?_⟩
  rw [hf₂.metalink]

theorem sameMedia_getMetalinkBody (w : World) : w.SameMedia (getMetalinkBody env w).2 := by
  obtain ⟨w', hf, he | ⟨d, m, -, he⟩⟩ := getMetalinkBody_cases env w
  · rw [he]
    exact hf.sameMedia
  · rw [he]
    exact hf.sameMedia.trans ⟨rfl, rfl, rfl, rfl, rfl, rfl⟩

/-! ## The kernel -/

/-- Only `install/boot` changes. -/
inductive World.Booted (w : World) : World → Prop where
  | mk (boot : Text → Option BootFile) : w.Booted { w with boot := boot }

theorem World.Booted.rfl {w : World} : w.Booted w := .mk w.boot

theorem World.Booted.trans {w w' w'' : World} (h : w.Booted w') (h' : w'.Booted w'') :
    w.Booted w'' := by
  cases h
  cases h'
  exact .mk ..

theorem World.Booted.metalink {w w' : World} (h : w.Booted w') : w'.metalink = w.metalink := by
  cases h
  rfl

theorem booted_andThen {c : Code α} {k : α → Code β} (hc : ∀ w : World, w.Booted (c w).2)
    (hk : ∀ a (w : World), w.Booted (k a w).2) (w : World) : w.Booted (c.andThen k w).2 := by
  have hw := hc w
  unfold Code.andThen
  split
  · next h =>
    rw [h] at hw
    exact hw
  · next a w' h =>
    rw [h] at hw
    exact hw.trans (hk a w')

theorem booted_forEach {c : α → Code Unit} (hc : ∀ a (w : World), w.Booted (c a w).2) (as : List α)
    (w : World) : w.Booted (Code.forEach c as w).2 := by
  induction as generalizing w with
  | nil => exact .rfl
  | cons a as ih => exact booted_andThen (hc a) (fun _ => ih) w

theorem booted_copyFromCd (cdPath rel : Text) (w : World) :
    w.Booted (copyFromCd env cdPath rel w).2 := by
  unfold copyFromCd
  split
  · exact .rfl
  · split
    · exact .rfl
    · exact .rfl
    · exact .mk _

theorem booted_extractFromIso (isoPath rel : Text) (w : World) :
    w.Booted (extractFromIso env isoPath rel w).2 := by
  unfold extractFromIso
  split
  · exact .rfl
  · exact .mk _

theorem booted_checkFileOrRaise (md5sums rel : Text) (w : World) :
    w.Booted (checkFileOrRaise env md5sums rel w).2 := by
  unfold checkFileOrRaise
  split <;> exact .rfl

theorem booted_extractWith {get : Text → Code Unit} (hget : ∀ rel (w : World), w.Booted (get rel w).2)
    (w : World) : w.Booted (extractWith env get w).2 := by
  unfold extractWith
  split
  · exact .rfl
  · refine booted_andThen (booted_forEach hget _) (fun _ => ?_) w
    exact booted_andThen (booted_forEach (booted_checkFileOrRaise _) _) fun _ _ => .rfl

theorem booted_extractKernelBody (w : World) : w.Booted (extractKernelBody env w).2 := by
  unfold extractKernelBody
  split
  · exact booted_extractWith (booted_copyFromCd _) w
  · exact booted_extractWith (booted_extractFromIso _) w
  · exact .rfl

/-! ## Whole functions -/

theorem steps_getFileMd5 {R : World → World → Prop} (hrefl : ∀ w, R w w) (path : Text) :
    (getFileMd5 env path).Steps R := by
  refine .read hrefl fun w => ?_
  split
  · trivial
  · split <;> trivial

theorem steps_checkIsoMd5 {R : World → World → Prop} (hrefl : ∀ w, R w w)
    (hcache : ∀ path r w, R w (cacheMd5 env path r w)) (isoPath : Text) (m : Metalink) :
    (checkIsoMd5 env isoPath m).Steps R := by
  refine .code (fun w => hrefl w) fun md5sum => ?_
  split
  · trivial
  · trivial
  refine .read hrefl fun w => ?_
  split
  · exact ⟨steps_getFileMd5 hrefl isoPath, fun r => .update (hcache isoPath _) trivial⟩
  · exact ⟨steps_getFileMd5 hrefl isoPath, fun r => .update (hcache isoPath _) trivial⟩
  · trivial

/-- `check_iso` stays within a relation that its pieces of code stay in. -/
theorem steps_checkIso {R : World → World → Prop} (hrefl : ∀ w, R w w)
    (hlook : ∀ {w w'}, w.Looked w' → R w w') (hmetalink : ∀ w, R w (getMetalinkBody env w).2)
    (hcache : ∀ path r w, R w (cacheMd5 env path r w)) (isoPath : Text) :
    (checkIso env isoPath).Steps R := by
  refine .code (fun w => hlook (looked_distroIsValidIso ..)) fun valid => ?_
  split
  · trivial
  refine .code (fun w => hlook (looked_setDistroFromArch ..)) fun _ => ?_
  split
  · trivial
  refine .code (fun w => hrefl w) fun m => ?_
  split
  · exact steps_checkIsoMd5 hrefl hcache _ _
  refine ⟨.code hmetalink fun _ => trivial, fun _ => .code (fun w => hrefl w) fun m => ?_⟩
  split
  · exact steps_checkIsoMd5 hrefl hcache _ _
  · trivial

theorem sameMedia_cacheMd5 (path : Text) (r : Option Text) (w : World) :
    w.SameMedia (cacheMd5 env path r w) := by
  unfold cacheMd5
  split
  · exact .rfl
  · exact ⟨rfl, rfl, rfl, rfl, rfl, rfl⟩

theorem sameMedia_checkIso (isoPath : Text) (own active : Bool) (w : World) :
    w.SameMedia ((checkIso env isoPath).eval own active w).world :=
  (steps_checkIso (fun _ => .rfl) (·.sameMedia) sameMedia_getMetalinkBody sameMedia_cacheMd5
    isoPath).eval (fun _ => .rfl) .trans own active w

end Swinst.Retrieval
