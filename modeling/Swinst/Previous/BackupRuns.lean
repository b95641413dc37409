import Swinst.Previous.Backup
import Swinst.TaskList.ProgramRuns

/-! What a run of the uninstallation leaves of the ISOs in the install directory. -/

namespace Swinst.Previous

open TaskList

namespace Host

variable {h : Host} {target : TargetDir} {w : World} {q : Text}

/-! ## The tasks after it -/

theorem file?_undoFiles {fs : List Text} (hq : ∀ f ∈ fs, normPath q ≠ normPath f) :
    ∀ w, (h.undoFiles fs w).2.file? q = w.file? q := by
  induction fs with
  | nil => exact fun _ => rfl
  | cons f fs ih =>
    intro w
    obtain ⟨hf, hq⟩ := List.forall_mem_cons.mp hq
    unfold undoFiles
    split
    · split
      · exact World.file?_put_of_ne hf _
      · exact (ih hq _).trans (World.file?_put_of_ne hf _)
    · exact ih hq w

/-- No file of the loader has a name that ends like that of an ISO. -/
theorem getLast?_bootFiles {d : Drive} {f : Text} (hf : f ∈ bootFiles d) :
    (normPath f).getLast? ≠ some 'o' := by
  obtain ⟨name, hname, rfl⟩ := List.mem_map.mp hf
  have hlast : ∀ name ∈ ["boot.ini", "yldr", "yldr.mbr", "yldrd", "yldrd.mbr"],
      ('\\' :: name.toList).getLast? ∈ ['i', 'r', 'd'].map some := by decide
  obtain ⟨c, hc, hlast⟩ := List.mem_map.mp (hlast name hname)
  have hjoin : (join d.path name.toList).getLast? = some c := by
    rw [join, List.getLast?_append_of_ne_nil _ (List.cons_ne_nil _ _)]
    exact hlast.symm
  have hplain : ∀ c ∈ ['i', 'r', 'd'], (c ≠ '\\' ∧ c ≠ '/') ∧
      (if c.toLower = '/' then '\\' else c.toLower) ≠ 'o' := by
    simp only [List.forall_mem_cons]
    exact ⟨by decide, by decide, by decide, List.forall_mem_nil _⟩
  rw [normPath_eq_norm, norm_getLast? hjoin]
  · exact fun h => (hplain c hc).2 (Option.some.inj h)
  · intro c' hc'
    obtain rfl : c' = c := Option.some.inj (hc'.symm.trans hjoin)
    exact (hplain c' hc).1

theorem file?_undoBootloader (hq : (normPath q).getLast? = some 'o') (w : World) :
    (h.undoBootloader w).2.file? q = w.file? q := by
  unfold undoBootloader
  split
  · rfl
  · refine file?_undoFiles (fun f hf heq => ?_) w
    obtain ⟨d, -, hf⟩ := List.mem_flatMap.mp hf
    exact getLast?_bootFiles hf (heq ▸ hq)

theorem file?_removeTarget (hq : under (normPath target.path) (normPath q) = false) (w : World) :
    (h.removeTarget target w).2.file? q = w.file? q := by
  unfold removeTarget
  split
  · rfl
  split
  · simp [World.file?, World.rmTree, hq]
  · simp [World.file?, World.rmTreePart, hq]

theorem file?_removeKey (w : World) : (h.removeKey w).2.file? q = w.file? q := by
  unfold removeKey
  split <;> rfl

/-- The tasks after `backup_iso` leave what is beside the target directory, under a name like that of
an ISO. -/
theorem file?_later {asked : Bool} (hlast : (normPath q).getLast? = some 'o')
    (hunder : under (normPath target.path) (normPath q) = false) (w : World) :
    (evalTasks (h.uninstallationTasklist target asked).tail true w).2.file? q = w.file? q := by
  refine evalTasks_invariant (P := fun w' : World => w'.file? q = w.file? q) (fun t ht w' hw' => ?_) rfl
  simp only [uninstallationTasklist, List.tail_cons, List.mem_cons, List.not_mem_nil,
    or_false] at ht
  rcases ht with rfl | rfl | rfl
  · rw [Prog.eval_code_world, file?_undoBootloader hlast, hw']
  · rw [Prog.eval_code_world, file?_removeTarget hunder, hw']
  · rw [Prog.eval_code_world, file?_removeKey, hw']

end Host

/-- The places of an ISO have a name that ends in `.iso`. -/
theorem TargetDir.getLast?_place {target : TargetDir} {name : Name} {w : World}
    (hbig : w.isBigIso (target.source name) = true) (w' : World) :
    (normPath (w'.place (target.saved name) name)).getLast? = some 'o' := by
  have hends : ".iso".toList <:+ target.source name :=
    List.isSuffixOf_iff_suffix.mp (Bool.and_eq_true_iff.mp hbig).1
  obtain ⟨t, ht⟩ := hends
  have hsource : (target.source name).getLast? = some 'o' := by
    rw [← ht]
    exact List.getLast?_append_of_ne_nil _ (by decide)
  have hname : name.text.getLast? = some 'o' := by
    have hjoin : target.source name = (target.install ++ ['\\']) ++ name.text := by
      simp [TargetDir.source, join]
    rwa [hjoin, List.getLast?_append_of_ne_nil _ name.ne_nil] at hsource
  have hlower : name.text.lower.getLast? = some 'o' := by
    rw [Text.lower, List.getLast?_map, hname]
    rfl
  have hne : name.text.lower ≠ [] := by
    rintro h
    rw [h] at hlower
    cases hlower
  obtain ⟨tail, ht, hplace⟩ := TargetDir.normPath_place target w' name
  rw [hplace, List.getLast?_append_of_ne_nil _ (List.cons_ne_nil _ _)]
  rcases ht with rfl | rfl
  · rwa [← List.singleton_append, List.getLast?_append_of_ne_nil _ hne]
  · rwa [← List.cons_append, List.getLast?_append_of_ne_nil _ (List.cons_ne_nil _ _),
      ← List.singleton_append, List.getLast?_append_of_ne_nil _ hne]

/-- If the user asked for the backup and no file stands where the backup directory should be, every
ISO that was in the install directory is there or in the backup directory at the end of the task
list, whether it completed or was stopped by a failing step. -/
theorem isos_survive {h : Host} {target : TargetDir} {errText : PyError → String} {title : String}
    {threaded : Bool} {w : World}
    {m : Machine (Prog Unit PyError World) Unit PyError (ProgControl Unit PyError World) World}
    (hrun : Thread (progBehaviour errText)
      (.init title ((h.uninstallationTasklist target true).map ProgTask.spec) threaded w) m)
    (hend : m.stack = []) (hu : target.Usable w) {name : Name} {content : Text}
    (hname : name ∈ (h.entries w target.install).names)
    (hiso : (target.source name).endsWith ".iso".toList = true)
    (hfile : w.file? (target.source name) = some content) (hsize : 1000000 < content.length) :
    m.world.file? (target.source name) = some content ∨
      m.world.file? (w.place (target.saved name) name) = some content := by
  have hbig : w.isBigIso (target.source name) = true := by
    rw [World.isBigIso, hiso, hfile]
    exact decide_eq_true hsize
  have htasks : h.uninstallationTasklist target true =
    { name := "backup_iso", prog := .code (h.backupIso target true) fun _ => .ret none } ::
      (h.uninstallationTasklist target true).tail := rfl
  rw [(Machine.thread_end hrun hend).1, htasks, evalTasks_code_cons, ← hfile]
  rcases Host.backupIso_content (h := h) hu hname hbig with hsaved | ⟨⟨e, herror⟩, hleft⟩
  · right
    have hlast := TargetDir.getLast?_place hbig w
    have hunder := target.not_under_place w name
    split
    · exact (Host.file?_later hlast hunder _).trans hsaved
    · exact hsaved
  · left
    rw [herror]
    exact hleft

/-! ## The skip -/

namespace Host

variable {h : Host} {target : TargetDir} {w : World}

theorem backupLoop_skipped (hu : ¬ target.Usable w) (names : List Name) :
    h.backupLoop target names w = (.ok (), w) := by
  have hmake : h.makeBackup target w = .ok none := by
    unfold makeBackup
    rw [if_neg fun hdir => hu (.inl hdir), if_pos]
    rw [Option.isSome_iff_ne_none]
    exact fun hfile => hu (.inr hfile)
  induction names with
  | nil => rfl
  | cons a names ih =>
    have hfile : h.backupFile target a w =
        (.ok (!w.isBigIso (target.source a)), w) := by
      unfold backupFile
      rw [hmake]
      cases w.isBigIso (target.source a) <;> rfl
    rw [backupLoop, hfile]
    cases w.isBigIso (target.source a) with
    | true => rfl
    | false => exact ih

theorem backupIso_skips (hlist : h.listdir w target.install = .ok ()) (hu : ¬ target.Usable w) :
    h.backupIso target true w = (.ok (), w) := by
  have hloop := backupLoop_skipped (h := h) hu (h.entries w target.install).names
  unfold backupIso
  rw [hlist, hloop]
  rfl

theorem backupIso_skipped (hu : ¬ target.Usable w) (asked : Bool) :
    (h.backupIso target asked w).2 = w := by
  unfold backupIso
  split
  · rfl
  split
  · rfl
  · rw [backupLoop_skipped hu]

theorem isDir_undoFiles (fs : List Text) (q : Text) :
    ∀ w, (h.undoFiles fs w).2.isDir q = w.isDir q := by
  induction fs with
  | nil => exact fun _ => rfl
  | cons f fs ih =>
    intro w
    unfold undoFiles
    split
    · split
      · rfl
      · exact ih _
    · exact ih w

theorem isDir_undoBootloader (q : Text) (w : World) :
    (h.undoBootloader w).2.isDir q = w.isDir q := by
  unfold undoBootloader
  split
  · rfl
  · exact isDir_undoFiles _ q w

theorem removeTarget_ok {a : Unit} (hdir : w.isDir target.path = true)
    (hok : (h.removeTarget target w).1 = .ok a) {q : Text}
    (hq : under (normPath target.path) (normPath q) = true) :
    (h.removeTarget target w).2.file? q = none := by
  unfold removeTarget at hok ⊢
  rw [hdir] at hok ⊢
  cases hrm : h.rmTree w target.path with
  | none => simp [World.file?, World.rmTree, hq]
  | some left =>
    rw [hrm] at hok
    cases hok

end Host

/-- When `backup_iso` skips the backup, a run without failure loses every file in the install
directory. -/
theorem isos_lost {h : Host} {target : TargetDir} {errText : PyError → String} {title : String}
    {asked threaded : Bool} {w : World}
    {m : Machine (Prog Unit PyError World) Unit PyError (ProgControl Unit PyError World) World}
    (hrun : Thread (progBehaviour errText)
      (.init title ((h.uninstallationTasklist target asked).map ProgTask.spec) threaded w) m)
    (hend : m.stack = []) (hok : m.tree.value.error = none) (hu : ¬ target.Usable w)
    (hdir : w.isDir target.path = true) (name : Name) :
    m.world.file? (target.source name) = none := by
  have htasks := Machine.thread_end_ok hrun hend hok
  obtain ⟨-, htasks⟩ := evalTasks_code_ok htasks
  obtain ⟨-, htasks⟩ := evalTasks_code_ok htasks
  obtain ⟨⟨_, hremoved⟩, htasks⟩ := evalTasks_code_ok htasks
  obtain ⟨-, htasks⟩ := evalTasks_code_ok htasks
  rw [← (Prod.mk.inj htasks).2, Host.file?_removeKey]
  refine Host.removeTarget_ok ?_ hremoved (target.under_source name)
  rw [Host.isDir_undoBootloader, Host.backupIso_skipped hu]
  exact hdir

private def isoName : Name where
  text := "startos.iso".toList
  ne_nil := by decide
  plain := by decide

private def loopTarget : TargetDir where
  path := "c:\\startos-loop".toList
  plain := by
    intro c hc
    obtain rfl : 'p' = c := Option.some.inj hc
    decide

/-- A system on which nothing fails. -/
private def quietHost : Host where
  entries _ dir :=
    if dir = loopTarget.install then ⟨[isoName], by simp⟩ else ⟨[], by simp⟩
  listdir _ _ := .ok ()
  mkdir _ _ := .ok ()
  move _ _ _ := .moved
  undoBcd _ := .ok ()
  undoFile _ _ := (.ok (), none)
  rmTree _ _ := none
  deleteKey _ := .ok ()
  drives := []

private def bigIso : Text := List.replicate 1000001 'x'

/-- An ISO in the install directory; `backup` is the file where the backup directory should be. -/
private def isoWorld (backup : Option Text) : World where
  dirs q := q = "c:\\startos-loop".toList || q = "c:\\startos-loop\\install".toList
  files q :=
    if q = "c:\\startos-loop\\install\\startos.iso".toList then some bigIso
    else if q = "c:\\startos-loop-backup".toList then backup
    else none
  installationDir := some loopTarget.path
  uninstallString := none

private theorem isoWorld_source (backup : Option Text) :
    (isoWorld backup).file? (loopTarget.source isoName) = some bigIso := by
  have hpath : normPath (loopTarget.source isoName) =
    "c:\\startos-loop\\install\\startos.iso".toList := by decide +kernel
  simp only [World.file?, isoWorld, hpath, if_true]

private theorem bigIso_length : 1000000 < bigIso.length := by
  rw [bigIso, List.length_replicate]
  decide

private theorem isoName_listed (w : World) :
    isoName ∈ (quietHost.entries w loopTarget.install).names := by
  simp only [quietHost, if_true]
  exact List.mem_singleton_self _

theorem isos_survive_quiet :
    ∃ m : Machine (Prog Unit PyError World) Unit PyError (ProgControl Unit PyError World) World,
      m.stack = [] ∧ (m.world.file? (loopTarget.source isoName) = some bigIso ∨
        m.world.file? ((isoWorld none).place (loopTarget.saved isoName) isoName) =
          some bigIso) := by
  obtain ⟨m, hm, hst, -⟩ := Machine.exists_end (fun _ => "") "Uninstalling"
    (quietHost.uninstallationTasklist loopTarget true) true (isoWorld none)
  have hu : loopTarget.Usable (isoWorld none) := .inr (by decide +kernel)
  exact ⟨m, hst, isos_survive hm hst hu (isoName_listed _) (by decide) (isoWorld_source none)
    bigIso_length⟩

/-- With a file in place of the backup directory, the ISO is lost. -/
theorem backup_file_loses_iso :
    ∃ m : Machine (Prog Unit PyError World) Unit PyError (ProgControl Unit PyError World) World,
      Thread (progBehaviour fun _ => "")
        (.init "Uninstalling" ((quietHost.uninstallationTasklist loopTarget true).map ProgTask.spec)
          true (isoWorld (some []))) m ∧
      m.stack = [] ∧ m.tree.value.error = none ∧
      isoName ∈ (quietHost.entries (isoWorld (some [])) loopTarget.install).names ∧
      (loopTarget.source isoName).endsWith ".iso".toList = true ∧
      (isoWorld (some [])).file? (loopTarget.source isoName) = some bigIso ∧
      1000000 < bigIso.length ∧
      m.world.file? (loopTarget.source isoName) = none ∧
      m.world.file? (loopTarget.saved isoName) = none := by
  have hu : ¬ loopTarget.Usable (isoWorld (some [])) := by
    rintro (hdir | hfile)
    · exact absurd hdir (by decide +kernel)
    · exact absurd hfile (by decide +kernel)
  have hskip : quietHost.backupIso loopTarget true (isoWorld (some [])) =
      (.ok (), isoWorld (some [])) := Host.backupIso_skips rfl hu
  obtain ⟨m, hm, hst, hw, he⟩ := Machine.exists_end (fun _ => "") "Uninstalling"
    (quietHost.uninstallationTasklist loopTarget true) true (isoWorld (some []))
  rw [Host.uninstallationTasklist, evalTasks_code_cons, hskip] at hw he
  have hfalse : m.tree.value.error.isSome = false := he.trans (by decide +kernel)
  have hok : m.tree.value.error = none := by simpa using hfalse
  refine ⟨m, hm, hst, hok, isoName_listed _, by decide, isoWorld_source _, bigIso_length,
    isos_lost hm hst hok hu (by decide +kernel) isoName, ?_⟩
  rw [hw]
  decide +kernel

end Swinst.Previous
