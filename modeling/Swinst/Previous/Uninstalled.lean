import Mathlib.Data.List.TakeWhile
import Swinst.Previous.Uninstaller

/-! Does the uninstallation delete all that the search finds? The search stops at the first
`startos-loop` and keeps only the last `startos-livecd` before it; `run_uninstaller` deletes these
two and the directory of the registry. -/

namespace Swinst.Previous

open TaskList

/-! ## What the search keeps -/

def World.hasLoop (w : World) (d : Drive) : Bool := w.isDir (loopDir d)

def World.hasLivecd (w : World) (d : Drive) : Bool := w.isDir (livecdDir d)

/-- The drive at which the search stops. -/
def firstLoop (w : World) (drives : List Drive) : Option Drive := drives.find? w.hasLoop

/-- The drives that the search looks at. -/
def lookedAt (w : World) (drives : List Drive) : List Drive :=
  drives.takeWhile (!w.hasLoop ·) ++ (firstLoop w drives).toList

/-- The last of them with a `startos-livecd`. -/
def lastLivecd (w : World) (drives : List Drive) : Option Drive :=
  (lookedAt w drives).reverse.find? w.hasLivecd

section Search

variable {w : World} {drives : List Drive} {d : Drive}

theorem firstLoop_cons : firstLoop w (d :: drives) =
    if w.hasLoop d then some d else firstLoop w drives := by
  cases h : w.hasLoop d <;> simp [firstLoop, h]

theorem lookedAt_cons : lookedAt w (d :: drives) =
    d :: if w.hasLoop d then [] else lookedAt w drives := by
  cases h : w.hasLoop d <;> simp [lookedAt, firstLoop, h]

theorem lastLivecd_cons : lastLivecd w (d :: drives) =
    ((if w.hasLoop d then none else lastLivecd w drives).or
      (if w.hasLivecd d then some d else none)) := by
  rw [lastLivecd, lookedAt_cons, List.reverse_cons, List.find?_append]
  congr 1
  · cases w.hasLoop d with
    | true => rfl
    | false => rfl
  · cases h : w.hasLivecd d <;> simp [h]

theorem checkPreInstallPath_eq (drives : List Drive) : ∀ livecd, checkPreInstallPath w drives livecd =
    ((firstLoop w drives).map loopDir, ((lastLivecd w drives).map livecdDir).or livecd) := by
  induction drives with
  | nil => exact fun _ => rfl
  | cons d drives ih =>
    intro livecd
    rw [firstLoop_cons, lastLivecd_cons]
    have hloop : w.isDir (loopDir d) = w.hasLoop d := rfl
    have hlive : w.isDir (livecdDir d) = w.hasLivecd d := rfl
    simp only [checkPreInstallPath, ih, hloop, hlive]
    cases w.hasLoop d with
    | true => cases w.hasLivecd d <;> rfl
    | false =>
      cases w.hasLivecd d with
      | true => cases lastLivecd w drives <;> rfl
      | false => cases lastLivecd w drives <;> rfl

theorem mem_of_lookedAt (h : d ∈ lookedAt w drives) : d ∈ drives := by
  rcases List.mem_append.mp h with h | h
  · exact List.takeWhile_subset _ h
  · exact List.mem_of_find?_eq_some (Option.mem_toList.mp h)

theorem firstLoop_some (h : firstLoop w drives = some d) : d ∈ drives ∧ w.hasLoop d = true :=
  ⟨List.mem_of_find?_eq_some h, List.find?_some h⟩

theorem lastLivecd_some (h : lastLivecd w drives = some d) : d ∈ drives ∧ w.hasLivecd d = true :=
  ⟨mem_of_lookedAt (List.mem_reverse.mp (List.mem_of_find?_eq_some h)), List.find?_some h⟩

/-- A search that does not stop looks at every drive. -/
theorem lookedAt_of_none (h : firstLoop w drives = none) : lookedAt w drives = drives := by
  have hno : ∀ d ∈ drives, (!w.hasLoop d) = true := by
    intro d hd
    simpa using List.find?_eq_none.mp h d hd
  rw [lookedAt, h, Option.toList_none, List.append_nil]
  exact List.takeWhile_eq_self_iff.mpr hno

end Search

section Fetch

variable {c : Computer} {w : World}

theorem preInstallPath_eq :
    (fetchBasicInfo c w).preInstallPath = (firstLoop w c.drives).map loopDir :=
  congrArg Prod.fst (checkPreInstallPath_eq c.drives none)

theorem preInstallPath2_eq :
    (fetchBasicInfo c w).preInstallPath2 = (lastLivecd w c.drives).map livecdDir :=
  (congrArg Prod.snd (checkPreInstallPath_eq c.drives none)).trans (Option.or_none)

theorem isDir_preInstallPath (h : (fetchBasicInfo c w).preInstallPath = some p) :
    w.isDir p = true := by
  rw [preInstallPath_eq, Option.map_eq_some_iff] at h
  obtain ⟨d, hd, rfl⟩ := h
  exact (firstLoop_some hd).2

theorem isDir_preInstallPath2 (h : (fetchBasicInfo c w).preInstallPath2 = some p) :
    w.isDir p = true := by
  rw [preInstallPath2_eq, Option.map_eq_some_iff] at h
  obtain ⟨d, hd, rfl⟩ := h
  exact (lastLivecd_some hd).2

theorem detected_eq : (fetchBasicInfo c w).detected w =
    ((firstLoop w c.drives).isSome || (lastLivecd w c.drives).isSome) := by
  rw [Info.detected, preInstallPath_eq, preInstallPath2_eq]
  congr 1
  · cases h : firstLoop w c.drives with
    | none => rfl
    | some d => exact (firstLoop_some h).2
  · cases h : lastLivecd w c.drives with
    | none => rfl
    | some d => exact (lastLivecd_some h).2

/-- Though the search stops early, it never misses that there is something. -/
theorem detected_iff : (fetchBasicInfo c w).detected w = true ↔
    ∃ d ∈ c.drives, w.hasLoop d = true ∨ w.hasLivecd d = true := by
  rw [detected_eq, Bool.or_eq_true, Option.isSome_iff_exists, Option.isSome_iff_exists]
  constructor
  · rintro (⟨d, hd⟩ | ⟨d, hd⟩)
    · exact ⟨d, (firstLoop_some hd).1, .inl (firstLoop_some hd).2⟩
    · exact ⟨d, (lastLivecd_some hd).1, .inr (lastLivecd_some hd).2⟩
  · rintro ⟨d, hd, h⟩
    cases hf : firstLoop w c.drives with
    | some f => exact .inl ⟨f, rfl⟩
    | none =>
      have hloop : ¬ w.hasLoop d = true := List.find?_eq_none.mp hf d hd
      have hmem : d ∈ (lookedAt w c.drives).reverse := by
        rw [List.mem_reverse, lookedAt_of_none hf]
        exact hd
      refine .inr (Option.isSome_iff_exists.mp ?_)
      exact List.find?_isSome.mpr ⟨d, hmem, h.resolve_left hloop⟩

end Fetch

/-! ## What is deleted -/

section Delete

variable {w : World} {c : Computer} {info : Info}

theorem under_iff {p q : Text} : under p q = true ↔ q = p ∨ p ++ ['\\'] <+: q := by
  rw [under, Bool.or_eq_true, decide_eq_true_iff, List.isPrefixOf_iff_prefix]

theorem under_self (p : Text) : under p p = true := under_iff.mpr (.inl rfl)

theorem under_trans {p q r : Text} (hpq : under p q = true) (hqr : under q r = true) :
    under p r = true := by
  rw [under_iff] at *
  rcases hqr with rfl | hqr
  · exact hpq
  right
  rcases hpq with rfl | hpq
  · exact hqr
  · exact hpq.trans ((List.prefix_append q _).trans hqr)

/-- Nothing of the same length is inside a directory. -/
theorem under_of_length {p q : Text} (hlen : q.length ≤ p.length) :
    under p q = true ↔ q = p := by
  refine ⟨fun h => ?_, fun h => h ▸ under_self _⟩
  rcases under_iff.mp h with h | h
  · exact h
  · have hle := h.length_le
    rw [List.length_append, List.length_singleton] at hle
    omega

/-- Both directories of a drive begin with its letter, and no drive's `startos-livecd` is inside a
`startos-loop`. -/
theorem normPath_dirs (hd : ∃ a : Char, d.path = [a, ':']) : ∃ a : Char,
    normPath (loopDir d) = a :: ":\\startos-loop".toList ∧
      normPath (livecdDir d) = a :: ":\\startos-livecd".toList := by
  obtain ⟨a, ha⟩ := hd
  refine ⟨if a.toLower.toLower = '/' then '\\' else a.toLower.toLower, ?_, ?_⟩
  · rw [loopDir, ha]
    rfl
  · rw [livecdDir, ha]
    rfl

theorem under_loop_loop (hd : d ∈ c.drives) (he : e ∈ c.drives) :
    under (normPath (loopDir e)) (normPath (loopDir d)) = true ↔
      normPath (loopDir d) = normPath (loopDir e) := by
  obtain ⟨a, ha, -⟩ := normPath_dirs (c.lettered d hd)
  obtain ⟨b, hb, -⟩ := normPath_dirs (c.lettered e he)
  apply under_of_length
  rw [ha, hb]
  exact le_rfl

theorem under_livecd_livecd (hd : d ∈ c.drives) (he : e ∈ c.drives) :
    under (normPath (livecdDir e)) (normPath (livecdDir d)) = true ↔
      normPath (livecdDir d) = normPath (livecdDir e) := by
  obtain ⟨a, -, ha⟩ := normPath_dirs (c.lettered d hd)
  obtain ⟨b, -, hb⟩ := normPath_dirs (c.lettered e he)
  apply under_of_length
  rw [ha, hb]
  exact le_rfl

theorem not_under_livecd_loop (hd : d ∈ c.drives) (he : e ∈ c.drives) :
    ¬ under (normPath (livecdDir e)) (normPath (loopDir d)) = true := by
  obtain ⟨a, ha, -⟩ := normPath_dirs (c.lettered d hd)
  obtain ⟨b, -, hb⟩ := normPath_dirs (c.lettered e he)
  have hlen : (normPath (loopDir d)).length ≤ (normPath (livecdDir e)).length := by
    rw [ha, hb]
    exact Nat.succ_le_succ (by decide)
  rw [under_of_length hlen, ha, hb]
  intro h
  exact absurd (List.cons.inj h).2 (by decide)

theorem not_under_loop_livecd (hd : d ∈ c.drives) (he : e ∈ c.drives) :
    ¬ under (normPath (loopDir e)) (normPath (livecdDir d)) = true := by
  obtain ⟨a, -, ha⟩ := normPath_dirs (c.lettered d hd)
  obtain ⟨b, hb, -⟩ := normPath_dirs (c.lettered e he)
  rw [ha, hb, under_iff]
  rintro (h | h)
  · exact absurd (List.cons.inj h).2 (by decide)
  · exact absurd (List.cons_prefix_cons.mp h).2 (by decide)

theorem dirs_rmDir (path : Option Text) (q : Text) : (w.rmDir path).dirs q = true ↔
    w.dirs q = true ∧ ∀ p ∈ path, w.isDir p = true → ¬ under (normPath p) q = true := by
  cases path with
  | none => simp [World.rmDir]
  | some p =>
    rw [World.rmDir]
    split
    · next hdir => simp [World.rmTree, hdir]
    · next hdir => simp [hdir]

/-- What was deleted before does not matter for what is left: a directory that is already gone has
taken with it all that was inside. -/
theorem dirs_rmDir_rmDir {w' : World} {left : Text → Prop} {path : Option Text}
    (hpath : ∀ p ∈ path, w.isDir p = true)
    (hdirs : ∀ q, w'.dirs q = true ↔ w.dirs q = true ∧ left q)
    (hleft : ∀ p q, ¬ left p → under p q = true → ¬ left q) (q : Text) :
    (w'.rmDir path).dirs q = true ↔
      w.dirs q = true ∧ left q ∧ ∀ p ∈ path, ¬ under (normPath p) q = true := by
  rw [dirs_rmDir, hdirs, and_assoc]
  refine and_congr_right fun _ => and_congr_right fun hq => ?_
  refine forall_congr' fun p => forall_congr' fun hp => ⟨fun h hunder => ?_, fun h _ => h⟩
  have hgone : ¬ left (normPath p) := fun hl => h ((hdirs _).mpr ⟨hpath p hp, hl⟩) hunder
  exact hleft _ _ hgone hunder hq

theorem dirs_uninstall (htarget : w.isDir target = true)
    (hpath : ∀ p ∈ info.preInstallPath, w.isDir p = true)
    (hpath2 : ∀ p ∈ info.preInstallPath2, w.isDir p = true) (q : Text) :
    (uninstall info target w).dirs q = true ↔ w.dirs q = true ∧
      (¬ under (normPath target) q = true ∧
        ∀ p ∈ info.preInstallPath2, ¬ under (normPath p) q = true) ∧
      ∀ p ∈ info.preInstallPath, ¬ under (normPath p) q = true := by
  have htasks : ∀ q, (evalTasks (uninstallationTasks target) true w).2.dirs q = true ↔
      w.dirs q = true ∧ ¬ under (normPath target) q = true := by
    intro q
    have h := dirs_rmDir (w := w) (some target) q
    simp only [Option.mem_some_iff, forall_eq', htarget, true_imp_iff] at h
    exact h
  have hleft : ∀ p q, ¬¬ under (normPath target) p = true → under p q = true →
      ¬¬ under (normPath target) q = true := by
    intro p q hp hpq hq
    exact hp fun h => hq (under_trans h hpq)
  have h2 := dirs_rmDir_rmDir hpath2 htasks hleft
  refine dirs_rmDir_rmDir hpath h2 ?_ q
  intro p q hp hpq hq
  refine hp ⟨fun h => hq.1 (under_trans h hpq), fun r hr h => hq.2 r hr (under_trans h hpq)⟩

end Delete

/-! ## When nothing is left -/

/-- The registry names no directory, or one that exists; and what the search does not keep is in
that directory. -/
structure Covered (c : Computer) (w : World) : Prop where
  registry : ∀ r ∈ given w.installationDir, w.isDir r = true
  loops : ∀ d ∈ c.drives, w.hasLoop d = true →
    (∃ f ∈ firstLoop w c.drives, normPath (loopDir d) = normPath (loopDir f)) ∨
      ∃ r ∈ given w.installationDir, under (normPath r) (normPath (loopDir d)) = true
  livecds : ∀ d ∈ c.drives, w.hasLivecd d = true →
    (∃ f ∈ lastLivecd w c.drives, normPath (livecdDir d) = normPath (livecdDir f)) ∨
      ∃ r ∈ given w.installationDir, under (normPath r) (normPath (livecdDir d)) = true

section Uninstalled

variable {c : Computer} {w w' : World}

theorem given_eq_some {s : Option Text} (h : given s = some r) : s = some r ∧ given (some r) = some r := by
  have hs : s = some r := (Option.filter_eq_some_iff.mp h).1
  exact ⟨hs, hs ▸ h⟩

/-- `chk_needfix` fills `previous_target_dir` in only if the registry does not name a directory. -/
theorem chkNeedfix_targetDir (path : Option Text) :
    given (chkNeedfix c w path).2 = given w.installationDir ∨
      given w.installationDir = none ∧ (chkNeedfix c w path).2 = path := by
  cases path with
  | none => exact .inl rfl
  | some path =>
    rw [chkNeedfix]
    split
    · exact .inl rfl
    · cases hg : given w.installationDir with
      | none => exact .inr ⟨rfl, rfl⟩
      | some r => exact .inl (given_eq_some hg).2

/-- `run_uninstaller` starts from the directory of the registry if it names one, else from the
directories that were found. -/
theorem targetDir_eq : (fetchBasicInfo c w).targetDir =
    (given w.installationDir).or
      ((fetchBasicInfo c w).preInstallPath.or (fetchBasicInfo c w).preInstallPath2) := by
  have hprev : (fetchBasicInfo c w).previousTargetDir =
    (chkNeedfix c w (fetchBasicInfo c w).preInstallPath).2 := rfl
  rw [Info.targetDir, hprev, Option.orElse_eq_or, Option.orElse_eq_or]
  rcases chkNeedfix_targetDir (c := c) (w := w) (fetchBasicInfo c w).preInstallPath with h | ⟨hg, h⟩
  · rw [h]
  · rw [h, hg, Option.none_or]
    cases hp : (fetchBasicInfo c w).preInstallPath with
    | none => rfl
    | some p => cases hgp : given (some p) with
      | none => rfl
      | some q => rw [← (given_eq_some hgp).1, Option.some_or, Option.some_or]

theorem isDir_preInstall (h : (fetchBasicInfo c w).preInstallPath.or
    (fetchBasicInfo c w).preInstallPath2 = some p) : w.isDir p = true := by
  rcases Option.or_eq_some_iff.mp h with h | ⟨-, h⟩
  · exact isDir_preInstallPath h
  · exact isDir_preInstallPath2 h

/-- `run_uninstaller` comes back after it deleted, or at once for a stale entry of the registry. -/
theorem runUninstaller_returned (hdet : (fetchBasicInfo c w).detected w = true)
    (hret : runUninstaller c (fetchBasicInfo c w) .uninstall true w = .returned w') :
    (∃ target, (fetchBasicInfo c w).targetDir = some target ∧ w.isDir target = true ∧
      w' = uninstall (fetchBasicInfo c w) target w) ∨
    (∃ r ∈ given w.installationDir, ¬ w.isDir r = true) ∧ w' = w := by
  have hpre : (fetchBasicInfo c w).preInstallPath.or (fetchBasicInfo c w).preInstallPath2 ≠ none := by
    intro h
    rw [Option.or_eq_none_iff] at h
    simp [Info.detected, h.1, h.2] at hdet
  rw [runUninstaller] at hret
  cases ht : (fetchBasicInfo c w).targetDir with
  | none =>
    rw [targetDir_eq, Option.or_eq_none_iff] at ht
    exact (hpre ht.2).elim
  | some target =>
    rw [ht] at hret
    dsimp only at hret
    split at hret
    · next hdir =>
      have hdir : ¬ w.isDir target = true := by simpa using hdir
      rw [targetDir_eq, Option.or_eq_some_iff] at ht
      rcases ht with ht | ⟨-, ht⟩
      · exact .inr ⟨⟨target, ht, hdir⟩, (Ending.returned.inj hret).symm⟩
      · exact (hdir (isDir_preInstall ht)).elim
    · next hdir =>
      have hdir : w.isDir target = true := by simpa using hdir
      split at hret
      · cases hret
      · split at hret
        · cases hret
        · exact .inl ⟨target, rfl, hdir, (Ending.returned.inj hret).symm⟩

/-- What a confirmed uninstallation leaves, in terms of the registry and of what was found. -/
theorem dirs_uninstall_fetched (ht : (fetchBasicInfo c w).targetDir = some target)
    (hdir : w.isDir target = true) (q : Text) :
    (uninstall (fetchBasicInfo c w) target w).dirs q = true ↔ w.dirs q = true ∧
      (∀ r ∈ given w.installationDir, ¬ under (normPath r) q = true) ∧
      (∀ f ∈ firstLoop w c.drives, ¬ under (normPath (loopDir f)) q = true) ∧
      ∀ f ∈ lastLivecd w c.drives, ¬ under (normPath (livecdDir f)) q = true := by
  rw [dirs_uninstall hdir (fun p hp => isDir_preInstallPath hp) (fun p hp => isDir_preInstallPath2 hp)]
  refine and_congr_right fun _ => ?_
  rw [targetDir_eq, preInstallPath_eq, preInstallPath2_eq] at ht
  rw [preInstallPath_eq, preInstallPath2_eq]
  cases hg : given w.installationDir with
  | some r =>
    rw [hg, Option.some_or, Option.some.injEq] at ht
    subst ht
    simp [and_comm, and_left_comm]
  | none =>
    rw [hg, Option.none_or] at ht
    cases hf : firstLoop w c.drives with
    | some f =>
      rw [hf] at ht
      cases ht
      simp [and_comm]
    | none =>
      rw [hf] at ht
      cases hl : lastLivecd w c.drives with
      | some f =>
        rw [hl] at ht
        cases ht
        simp
      | none =>
        rw [hl] at ht
        cases ht

theorem hasLoop_uninstall (ht : (fetchBasicInfo c w).targetDir = some target)
    (hdir : w.isDir target = true) (hd : d ∈ c.drives) :
    (uninstall (fetchBasicInfo c w) target w).hasLoop d = true ↔ w.hasLoop d = true ∧
      (∀ r ∈ given w.installationDir, ¬ under (normPath r) (normPath (loopDir d)) = true) ∧
      ∀ f ∈ firstLoop w c.drives, normPath (loopDir d) ≠ normPath (loopDir f) := by
  refine (dirs_uninstall_fetched ht hdir _).trans ?_
  refine and_congr_right fun _ => and_congr_right fun _ => ?_
  constructor
  · intro ⟨h, _⟩ f hf heq
    exact h f hf ((under_loop_loop hd (firstLoop_some hf).1).mpr heq)
  · intro h
    constructor
    · intro f hf hunder
      exact h f hf ((under_loop_loop hd (firstLoop_some hf).1).mp hunder)
    · intro f hf
      exact not_under_livecd_loop hd (lastLivecd_some hf).1

theorem hasLivecd_uninstall (ht : (fetchBasicInfo c w).targetDir = some target)
    (hdir : w.isDir target = true) (hd : d ∈ c.drives) :
    (uninstall (fetchBasicInfo c w) target w).hasLivecd d = true ↔ w.hasLivecd d = true ∧
      (∀ r ∈ given w.installationDir, ¬ under (normPath r) (normPath (livecdDir d)) = true) ∧
      ∀ f ∈ lastLivecd w c.drives, normPath (livecdDir d) ≠ normPath (livecdDir f) := by
  refine (dirs_uninstall_fetched ht hdir _).trans ?_
  refine and_congr_right fun _ => and_congr_right fun _ => ?_
  constructor
  · intro ⟨_, h⟩ f hf heq
    exact h f hf ((under_livecd_livecd hd (lastLivecd_some hf).1).mpr heq)
  · intro h
    constructor
    · intro f hf
      exact not_under_loop_livecd hd (firstLoop_some hf).1
    · intro f hf hunder
      exact h f hf ((under_livecd_livecd hd (lastLivecd_some hf).1).mp hunder)

/-- The two ways in which a directory that existed can be gone. -/
theorem gone_iff {A : Prop} {o : Option α} {s : Option β} {P : α → Prop} {Q : β → Prop} :
    ¬ (A ∧ (∀ r ∈ s, ¬ Q r) ∧ ∀ f ∈ o, ¬ P f) ↔
      (A → (∃ f ∈ o, P f) ∨ ∃ r ∈ s, Q r) := by
  constructor
  · intro h ha
    by_contra hno
    rw [not_or] at hno
    exact h ⟨ha, fun r hr hq => hno.2 ⟨r, hr, hq⟩, fun f hf hp => hno.1 ⟨f, hf, hp⟩⟩
  · rintro h ⟨ha, hs, ho⟩
    rcases h ha with ⟨f, hf, hp⟩ | ⟨r, hr, hq⟩
    · exact ho f hf hp
    · exact hs r hr hq

theorem undetected_iff : (fetchBasicInfo c w).detected w = false ↔
    (∀ d ∈ c.drives, ¬ w.hasLoop d = true) ∧ ∀ d ∈ c.drives, ¬ w.hasLivecd d = true := by
  rw [← Bool.not_eq_true, detected_iff]
  constructor
  · intro h
    exact ⟨fun d hd hl => h ⟨d, hd, .inl hl⟩, fun d hd hl => h ⟨d, hd, .inr hl⟩⟩
  · rintro ⟨hloop, hlive⟩ ⟨d, hd, hl | hl⟩
    · exact hloop d hd hl
    · exact hlive d hd hl

theorem uninstalled_iff_covered (hdet : (fetchBasicInfo c w).detected w = true)
    (hret : runUninstaller c (fetchBasicInfo c w) .uninstall true w = .returned w') :
    (fetchBasicInfo c w').detected w' = false ↔ Covered c w := by
  rcases runUninstaller_returned hdet hret with ⟨target, ht, hdir, rfl⟩ | ⟨⟨r, hr, hdir⟩, rfl⟩
  · have hreg : ∀ r ∈ given w.installationDir, w.isDir r = true := by
      intro r hr
      rw [targetDir_eq, Option.mem_def.mp hr, Option.some_or, Option.some.injEq] at ht
      exact ht ▸ hdir
    rw [undetected_iff]
    constructor
    · intro ⟨hloop, hlive⟩
      refine ⟨hreg, fun d hd => ?_, fun d hd => ?_⟩
      · exact gone_iff.mp (mt (hasLoop_uninstall ht hdir hd).mpr (hloop d hd))
      · exact gone_iff.mp (mt (hasLivecd_uninstall ht hdir hd).mpr (hlive d hd))
    · intro hc
      refine ⟨fun d hd => ?_, fun d hd => ?_⟩
      · exact mt (hasLoop_uninstall ht hdir hd).mp (gone_iff.mpr (hc.loops d hd))
      · exact mt (hasLivecd_uninstall ht hdir hd).mp (gone_iff.mpr (hc.livecds d hd))
  · constructor
    · intro h
      rw [hdet] at h
      cases h
    · intro hc
      exact (hdir (hc.registry r hr)).elim

theorem runInstaller_proceeds_iff (hdet : (fetchBasicInfo c w).detected w = true)
    (hret : runUninstaller c (fetchBasicInfo c w) .uninstall true w = .returned w') :
    runInstaller c .uninstall true w = .proceeds w' ↔
      (fetchBasicInfo c w').detected w' = false := by
  rw [runInstaller, hdet]
  simp only [hret, Bool.not_true, Bool.false_eq_true, if_false]
  cases hdet' : (fetchBasicInfo c w').detected w' with
  | true => simp
  | false => simp

/-- **After an uninstallation** that was confirmed and came back, the repeated search finds nothing,
and the installer goes on, exactly if what the search keeps and the directory of the registry cover
all that there was. -/
theorem uninstall_complete_iff (hdet : (fetchBasicInfo c w).detected w = true)
    (hret : runUninstaller c (fetchBasicInfo c w) .uninstall true w = .returned w') :
    ((fetchBasicInfo c w').detected w' = false ↔ Covered c w) ∧
      (runInstaller c .uninstall true w = .proceeds w' ↔ Covered c w) := by
  have hcovered := uninstalled_iff_covered hdet hret
  exact ⟨hcovered, (runInstaller_proceeds_iff hdet hret).trans hcovered⟩

end Uninstalled

/-- Two hard disks, and no boot entry. -/
private def twoDisks : Computer where
  drives := [⟨"C:".toList, .hd⟩, ⟨"D:".toList, .hd⟩]
  lettered := by
    intro d hd
    rcases List.mem_pair.mp hd with rfl | rfl
    · exact ⟨'C', rfl⟩
    · exact ⟨'D', rfl⟩
  originalExe := "D:\\startos.exe".toList
  inst := "startos.exe".toList
  bootEntry _ := false

/-- These directories and nothing else; the registry is empty. -/
private def withDirs (dirs : List Text) : World where
  dirs q := dirs.contains q
  files _ := none
  installationDir := none
  uninstallString := none

theorem uninstall_complete_two_kinds :
    let w := withDirs ["c:\\startos-livecd".toList, "d:\\startos-loop".toList]
    ∃ w', runUninstaller twoDisks (fetchBasicInfo twoDisks w) .uninstall true w = .returned w' ∧
      ((fetchBasicInfo twoDisks w').detected w' = false ↔ Covered twoDisks w) ∧
      (runInstaller twoDisks .uninstall true w = .proceeds w' ↔ Covered twoDisks w) :=
  ⟨_, rfl, uninstall_complete_iff (by decide) rfl⟩

/-- The search never sees the second `startos-loop`, so it is still there afterwards. -/
theorem second_loop_refuses :
    let w := withDirs ["c:\\startos-loop".toList, "d:\\startos-loop".toList]
    (fetchBasicInfo twoDisks w).detected w = true ∧
      ∃ w', runUninstaller twoDisks (fetchBasicInfo twoDisks w) .uninstall true w = .returned w' ∧
        (fetchBasicInfo twoDisks w').detected w' = true ∧
        runInstaller twoDisks .uninstall true w =
          .refuses (fetchBasicInfo twoDisks w').previousTargetDir w' :=
  ⟨by decide, _, rfl, by decide, rfl⟩

end Swinst.Previous
