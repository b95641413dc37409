import Swinst.Retrieval.CopyFile
import Swinst.Retrieval.Iso

/-! `copy_iso` with every way in which its subtask can end, the results of which it does not look
at. -/

namespace Swinst.Retrieval

open TaskList Blocks

variable {N : Type} [DecidableEq N] (env : Env) (host : Host N)

/-- How `shutil.move` ends, when the target is not a directory that can take the file: a rename, or
else `copy2` and `unlink`. -/
inductive MoveRun where
  | moved
  /-- `copy2` cannot open the target, or it is a directory -/
  | notOpened (e : PyError)
  /-- `copy2` does not come to its end, and leaves so many bytes -/
  | broken (e : PyError) (left : Nat)
  /-- the copy is there, but the source cannot be removed -/
  | notRemoved (e : PyError)

/-- What `shutil.move` leaves. A file is not moved onto itself: `copy2` raises when the rename has
failed. -/
def moveFiles (source target : Text) (run : MoveRun) (w : Files N) : Files N :=
  match w (host.node source) with
  | none => w
  | some content =>
    if host.node source = host.node target then w
    else
      match run with
      | .moved =>
        Function.update (Function.update w (host.node source) none) (host.node target) (some content)
      | .notOpened _ => w
      | .broken _ left =>
        Function.update w (host.node target) (some (content.take (min left (content.length - 1))))
      | .notRemoved _ => Function.update w (host.node target) (some content)

/-- How the call of the subtask goes. -/
structure TransferRun where
  /-- is the task of `copy_iso` still active, so that the subtask is started? -/
  started : Bool
  /-- the answers to the reports of `copy_file` -/
  answers : Nat → Bool
  move : MoveRun

structure Installer (N : Type) where
  files : Files N
  cdPath : Option Text
  isoPath : Option Text

/-- Is the ISO moved? -/
def isMoved (isoPath : Text) : Prop :=
  env.dirname isoPath = env.dest ∨ env.dirname isoPath = env.backupDir

instance (isoPath : Text) : Decidable (isMoved env isoPath) :=
  inferInstanceAs (Decidable (_ ∨ _))

/-- The subtask of `copy_iso` -/
def transferFiles (isoPath : Text) (run : TransferRun) (w : Files N) : Files N :=
  if run.started then
    if isMoved env isoPath then moveFiles host isoPath env.dest run.move w
    else ((copyFileJob host isoPath env.dest true).run run.answers 0 w).2
  else w

/-- `copy_iso`, where `checked` tells whether `check_iso` accepts the ISO -/
def copyIsoCall (isoPath : Text) (checked : Bool) (run : TransferRun) (w : Installer N) :
    Option Value × Installer N :=
  if isoPath = [] ∨ !checked then (none, w)
  else (some (.bool true),
    { files := transferFiles env host isoPath run w.files, cdPath := none, isoPath := some env.dest })

/-- A successful call has put the ISO in its place, and its content is still somewhere. -/
structure KeepsIso (isoPath content : Text) (r : Option Value) (w : Installer N) : Prop where
  placed : r = some (.bool true) →
    w.files (host.node env.dest) = some content ∧ w.isoPath = some env.dest
  kept : w.files (host.node env.dest) = some content ∨ w.files (host.node isoPath) = some content

/-- Every block of a file with this content is read and written, and no report on one is answered
with the order to stop. -/
def GoesThrough (answers : Nat → Bool) (content : Text) : Prop :=
  ∀ i < (openFile content).length,
    answers i = false ∧ host.readError (i + 1) = none ∧ host.writeError (i + 1) = none

/-- When does the content come to `installation.iso`? -/
def Arrives (isoPath content : Text) (run : TransferRun) (w : Files N) : Prop :=
  if run.started then
    if isMoved env isoPath then
      host.node isoPath = host.node env.dest ∨
        match run.move with
        | .moved | .notRemoved _ => True
        | .notOpened _ => w (host.node env.dest) = some content
        | .broken _ _ => content = []
    else if (host.sourceError isoPath).isSome ∨ (host.openError env.dest).isSome then
      w (host.node env.dest) = some content
    else (host.node isoPath = host.node env.dest → content = []) ∧
      GoesThrough host run.answers content
  else w (host.node env.dest) = some content

variable {env host}

/-- The last read leaves the files as they are, also when it fails. -/
theorem copyLoop_nil (answers : Nat → Bool) (target : Text) (task : Bool) (fileSize : Option Nat)
    (dataRead n : Nat) (w : Files N) :
    ((copyLoop host target task fileSize dataRead []).run answers n w).2 = w := by
  simp only [copyLoop, readBlock]
  cases host.readError (dataRead + 1) <;> simp [Job.run, closeCopy_run]

/-- What a block that is not copied whole leaves is too short. -/
theorem not_copied_iff {p : Nat → Prop} {out data : Text} {file : List Text} (hout : out.length < data.length)
    (hbad : ¬ p 0) : out = (data :: file).flatten ↔ ∀ i < (data :: file).length, p i := by
  refine iff_of_false (fun heq => ?_) fun hall => hbad (hall 0 (Nat.succ_pos _))
  rw [heq, List.flatten_cons, List.length_append] at hout
  omega

/-- Behind a block that is copied, the others decide. -/
theorem copied_iff {p : Nat → Prop} {out data : Text} {file : List Text} (hp : p 0)
    (h : out = file.flatten ↔ ∀ i < file.length, p (i + 1)) :
    data ++ out = (data :: file).flatten ↔ ∀ i < (data :: file).length, p i := by
  rw [List.flatten_cons, List.append_cancel_left_eq, h, List.length_cons, Nat.forall_lt_succ_left,
    and_iff_right hp]

/-- What a copy leaves, however it ends, when the size leaves room for all blocks. -/
theorem copyLoop_leaves (answers : Nat → Bool) (target : Text) (size : Nat) {file : List Text}
    (hne : ∀ data ∈ file, data ≠ []) (dataRead : Nat) (hsize : dataRead + file.length ≤ size)
    (n : Nat) (written : Text) (w : Files N) :
    ∃ out, ((copyLoop host target true (some size) dataRead file).run answers n
        (Function.update w (host.node target) (some written))).2 =
          Function.update w (host.node target) (some (written ++ out)) ∧
      (out = file.flatten ↔
        ∀ i < file.length, answers (n + i) = false ∧ host.readError (dataRead + i + 1) = none ∧
          host.writeError (dataRead + i + 1) = none) := by
  induction file generalizing dataRead n written with
  | nil => exact ⟨[], by simp [copyLoop_nil], by simp⟩
  | cons data file ih =>
    obtain ⟨hdata, hne⟩ := List.forall_mem_cons.mp hne
    have hpos : 0 < data.length := List.length_pos_of_ne_nil hdata
    rw [List.length_cons] at hsize
    simp only [copyLoop, readBlock]
    cases hreads : host.readError (dataRead + 1) with
    | some e =>
      refine ⟨[], by simp [Job.run], not_copied_iff hpos ?_⟩
      simp [hreads]
    | none =>
    cases hanswer : answers n with
    | true =>
      refine ⟨[], by simp [Job.report, Job.run, hanswer], not_copied_iff hpos ?_⟩
      simp [hanswer]
    | false =>
      simp only [Job.run_report hanswer, writeBlock]
      cases hwrite : host.writeError (dataRead + 1) with
      | some failed =>
        refine ⟨data.take (min failed.2 (data.length - 1)), ?_, not_copied_iff ?_ ?_⟩
        · simp [Job.run, write_update]
        · rw [List.length_take]
          omega
        · simp [hwrite]
      | none =>
        simp only [Job.run, write_update, if_true]
        split
        · next hstop =>
          obtain rfl : file = [] := List.eq_nil_of_length_eq_zero (by omega)
          exact ⟨data, by rw [closeCopy_run], by simp [hanswer, hreads, hwrite]⟩
        · obtain ⟨out, hrun, hout⟩ := ih hne (dataRead + 1) (by omega) (n + 1) (written ++ data)
          refine ⟨data ++ out, by rw [hrun, List.append_assoc],
            copied_iff ⟨hanswer, hreads, hwrite⟩ (hout.trans ?_)⟩
          refine forall₂_congr fun i _ => ?_
          rw [show n + 1 + i = n + (i + 1) by omega, show dataRead + 1 + i = dataRead + (i + 1) by omega]

theorem length_openFile_le_length (content : Text) : (openFile content).length ≤ content.length :=
  length_reads_le ..

/-- A file is copied whole if and only if the copy goes through, unless it is copied onto itself. -/
theorem copyFileJob_leaves {answers : Nat → Bool} {source target content : Text} {w : Files N}
    (hw : w (host.node source) = some content) (hsourceError : host.sourceError source = none)
    (hopen : host.openError target = none) :
    ((copyFileJob host source target true).run answers 0 w).2 (host.node target) = some content ↔
      (host.node source = host.node target → content = []) ∧ GoesThrough host answers content := by
  have hread : (Source.file source).readable host w = some content := hw
  have hsource : sourceOf host source w = (.file source, some content.length) := by
    rw [sourceOf, hw]
  simp only [copyFileJob, copyOpened, Job.run, id, hsource, hread, Source.path, hsourceError, hopen,
    readable_truncate hread, Option.getD_some, if_true, Source.isTarget, decide_eq_true_eq]
  by_cases hself : host.node source = host.node target
  · have hempty : openFile [] = [] := reads_nil ..
    simp only [hself, if_true, hempty, copyLoop_nil, truncate, Function.update_self, Option.some_inj,
      true_imp_iff]
    constructor
    · rintro rfl
      exact ⟨rfl, fun i hi => by simp [hempty] at hi⟩
    · exact fun h => h.1.symm
  · have hlen : 0 + (openFile content).length ≤ content.length := by
      rw [Nat.zero_add]
      exact length_openFile_le_length content
    have hne : ∀ data ∈ openFile content, data ≠ [] := fun data => ne_nil_of_mem_reads (by decide)
    obtain ⟨out, hrun, hout⟩ := copyLoop_leaves (N := N) answers target content.length hne 0 hlen 0 [] w
    rw [if_neg hself, truncate, hrun, Function.update_self, List.nil_append, Option.some_inj]
    have hflat : (openFile content).flatten = content := flatten_blocks (by decide) content
    rw [hflat] at hout
    simp only [hself, false_imp_iff, true_and, hout, GoesThrough, Nat.zero_add]

/-- A copy that cannot open both files leaves them as they are. -/
theorem copyFileJob_not_opened {answers : Nat → Bool} {source target content : Text} {w : Files N}
    (hw : w (host.node source) = some content)
    (hopen : (host.sourceError source).isSome ∨ (host.openError target).isSome) :
    ((copyFileJob host source target true).run answers 0 w).2 = w := by
  have hread : (Source.file source).readable host w = some content := hw
  have hsource : sourceOf host source w = (.file source, some content.length) := by
    rw [sourceOf, hw]
  simp only [copyFileJob, copyOpened, Job.run, id, hsource, hread, Source.path, if_true]
  cases hs : host.sourceError source with
  | some e => rfl
  | none =>
    rw [hs] at hopen
    obtain ⟨e, he⟩ := Option.isSome_iff_exists.mp (hopen.resolve_left Bool.false_ne_true)
    rw [he]
    rfl

theorem take_shorter_eq_iff (content : Text) (left : Nat) :
    content.take (min left (content.length - 1)) = content ↔ content = [] := by
  rw [List.take_eq_self_iff, ← List.length_eq_zero_iff]
  omega

/-- A move puts the file in its place, unless the target cannot be opened or the copy breaks off. -/
theorem moveFiles_leaves {source target content : Text} {w : Files N}
    (hw : w (host.node source) = some content) (run : MoveRun) :
    moveFiles host source target run w (host.node target) = some content ↔
      host.node source = host.node target ∨
        match run with
        | .moved | .notRemoved _ => True
        | .notOpened _ => w (host.node target) = some content
        | .broken _ _ => content = [] := by
  simp only [moveFiles, hw]
  by_cases hself : host.node source = host.node target
  · simp [hself, ← hw]
  · rw [if_neg hself, or_iff_right hself]
    cases run with
    | moved => simp
    | notOpened e => exact Iff.rfl
    | broken e left => simp only [Function.update_self, Option.some_inj, take_shorter_eq_iff]
    | notRemoved e => simp

theorem transferFiles_leaves {isoPath content : Text} {w : Files N}
    (hw : w (host.node isoPath) = some content) (run : TransferRun) :
    transferFiles env host isoPath run w (host.node env.dest) = some content ↔
      Arrives env host isoPath content run w := by
  rw [transferFiles, Arrives]
  split
  · split
    · exact moveFiles_leaves hw run.move
    · split
      · next hopen => rw [copyFileJob_not_opened hw hopen]
      · next hopen =>
        rw [not_or, Option.not_isSome_iff_eq_none, Option.not_isSome_iff_eq_none] at hopen
        exact copyFileJob_leaves hw hopen.1 hopen.2
  · exact Iff.rfl

/-- `copy_iso` keeps the ISO if and only if it does nothing, or the ISO arrives. -/
theorem copyIso_iff (checked : Bool) (run : TransferRun) {isoPath content : Text} {w : Installer N}
    (hw : w.files (host.node isoPath) = some content) :
    KeepsIso env host isoPath content (copyIsoCall env host isoPath checked run w).1
        (copyIsoCall env host isoPath checked run w).2 ↔
      (isoPath = [] ∨ checked = false) ∨ Arrives env host isoPath content run w.files := by
  rw [← transferFiles_leaves hw, copyIsoCall]
  by_cases hskip : isoPath = [] ∨ checked = false
  · rw [if_pos (by simpa using hskip)]
    exact iff_of_true ⟨nofun, .inr hw⟩ (.inl hskip)
  · rw [if_neg (by simpa using hskip), or_iff_right hskip]
    constructor
    · exact fun h => (h.placed rfl).1
    · exact fun h => ⟨fun _ => ⟨h, rfl⟩, .inl h⟩

/-- Without stops and errors, the block by block copy of a file is the copy that `copy_iso` is modelled
with elsewhere. -/
theorem copyFileBody_files {host : Host Text} (hnode : host.node = id) {answers : Nat → Bool}
    (hstop : ∀ i, answers i = false) (hreads : ∀ i, host.readError i = none)
    (hwrite : ∀ i, host.writeError i = none) {source target content : Text}
    (hsource : host.sourceError source = none) (hopen : host.openError target = none) {w : World}
    (hw : w.files source = some content) (hdirs : env.dirs source = none)
    (hcopy : env.copyError source target = none) :
    (copyFileBody env source target w).2.files =
      ((copyFileJob host source target true).run answers 0 w.files).2 := by
  have hfound : Found host source w.files (.file source) content content.length :=
    .file (by rw [hnode, id, hw]) hsource
  have hlen : content.length ≤ max 1 content.length * mib :=
    calc content.length ≤ max 1 content.length := Nat.le_max_right ..
      _ ≤ max 1 content.length * mib := Nat.le_mul_of_pos_right _ (by decide)
  rw [copyFileJob_run hstop hreads hwrite hopen true hfound]
  simp only [copyFileBody, World.source?, hdirs, hw, hcopy, Source.isTarget, hnode, id,
    decide_eq_true_eq, Option.map_some]
  by_cases hself : source = target
  · simp [hself]
  · simp [hself, List.take_of_length_le hlen]

/-- The same for the subtask of `copy_iso`. -/
theorem transferFiles_eq {host : Host Text} (hnode : host.node = id) {answers : Nat → Bool}
    (hstop : ∀ i, answers i = false) (hreads : ∀ i, host.readError i = none)
    (hwrite : ∀ i, host.writeError i = none) {isoPath content : Text}
    (hsource : host.sourceError isoPath = none) (hopen : host.openError env.dest = none) {w : World}
    (hw : w.files isoPath = some content) (hdirs : env.dirs isoPath = none)
    (hcopy : env.copyError isoPath env.dest = none) :
    transferFiles env host isoPath ⟨true, answers, .moved⟩ w.files =
      if isMoved env isoPath then (moveFileBody env isoPath env.dest w).2.files
      else (copyFileBody env isoPath env.dest w).2.files := by
  rw [transferFiles, if_pos rfl]
  split
  · simp only [moveFiles, moveFileBody, hnode, id, hw, hcopy]
    split
    · next hself => rw [← hself, Function.update_idem, Function.update_eq_self_iff.mpr hw.symm]
    · rfl
  · exact (copyFileBody_files hnode hstop hreads hwrite hsource hopen hw hdirs hcopy).symm

/-- A computer on which nothing fails; its paths are its files. -/
private def calmHost : Host Text where
  node := id
  isMount _ := false
  windows := true
  totalSpace _ := 0
  device _ := none
  sourceError _ := none
  openError _ := none
  readError _ := none
  writeError _ := none

/-- The sample computer, with the directory of a path. -/
private def dirEnv : Env := { Sample.env with
  dirname path := (path.reverse.dropWhile (· ≠ '\\')).tail.reverse }

private def isoAt (path : Text) : Installer Text where
  files := fun p => if p = path then some "iso".toList else none
  cdPath := none
  isoPath := none

private theorem isoAt_files (path : Text) :
    (isoAt path).files (calmHost.node path) = some "iso".toList := if_pos rfl

/-- The subtask comes to its end. -/
private def wholeTransfer : TransferRun := ⟨true, fun _ => false, .moved⟩

/-- An ISO in the backup directory is moved. -/
theorem copyIso_backup :
    KeepsIso dirEnv calmHost "c:\\backup\\startos.iso".toList "iso".toList
      (copyIsoCall dirEnv calmHost "c:\\backup\\startos.iso".toList true wholeTransfer
        (isoAt "c:\\backup\\startos.iso".toList)).1
      (copyIsoCall dirEnv calmHost "c:\\backup\\startos.iso".toList true wholeTransfer
        (isoAt "c:\\backup\\startos.iso".toList)).2 := by
  refine (copyIso_iff true wholeTransfer (isoAt_files _)).mpr (.inr ?_)
  have hmoved : isMoved dirEnv "c:\\backup\\startos.iso".toList := by decide +kernel
  rw [Arrives, wholeTransfer, if_pos rfl, if_pos hmoved]
  exact .inr trivial

/-- `installation.iso` is copied onto itself. -/
theorem installation_iso_emptied :
    ¬ KeepsIso dirEnv calmHost dirEnv.dest "iso".toList
      (copyIsoCall dirEnv calmHost dirEnv.dest true wholeTransfer (isoAt dirEnv.dest)).1
      (copyIsoCall dirEnv calmHost dirEnv.dest true wholeTransfer (isoAt dirEnv.dest)).2 := by
  intro h
  have hcopied : ¬ isMoved dirEnv dirEnv.dest := by decide +kernel
  have harrives : Arrives dirEnv calmHost dirEnv.dest "iso".toList wholeTransfer
      (isoAt dirEnv.dest).files := (transferFiles_leaves (isoAt_files _) _).mp (h.placed rfl).1
  rw [Arrives, wholeTransfer, if_pos rfl, if_neg hcopied] at harrives
  exact absurd (harrives.1 rfl) (by decide)

end Swinst.Retrieval
