import Swinst.Retrieval.World
import Swinst.TaskList.Job
import Swinst.TaskList.ProgressRuns
import Swinst.Data.Blocks

/-! `get_file_md5` of `backends/common/utils.py`, block by block. A file that is open for reading is
the list of the blocks that its reads will give; behind the last one a read gives nothing. -/

namespace Swinst.Retrieval

open TaskList Blocks

/-- Python's `md5` module. -/
structure Md5 where
  State : Type
  new : State
  update : State → Text → State
  hexdigest : State → Text
  update_nil : ∀ s, update s [] = s
  update_update : ∀ s a b, update (update s a) b = update s (a ++ b)

/-- The digest of a text that is fed in one piece. -/
def Md5.digest (md5 : Md5) (content : Text) : Text := md5.hexdigest (md5.update md5.new content)

variable {σ : Type} (md5 : Md5)

/-- The reads of a file with this content. -/
def openFile (content : Text) : List Text := blocks mib content

/-- The end of `get_file_md5` -/
def closeMd5 (task : Bool) (md5hash : md5.State) : Job Value PyError σ :=
  let r := some (Value.text (md5.hexdigest md5hash))
  if task then .finish (.ret r) else .ret r

/-- `for i in range(iterations)`, with `data_read` and what is left of the file -/
def md5Loop (task : Bool) : (iterations : Nat) → (dataRead : Nat) → (file : List Text) →
    md5.State → Job Value PyError σ
  | 0, _, _, md5hash => closeMd5 md5 task md5hash
  | _ + 1, _, [], md5hash => closeMd5 md5 task md5hash
  | iterations + 1, dataRead, data :: file, md5hash =>
    .report task (.int (dataRead + 1 : Nat))
      (md5Loop task iterations (dataRead + 1) file (md5.update md5hash data))

/-- `get_file_md5`; `file` is the content of the file at the path, if there is one, and `task` tells
whether there is an `associated_task` -/
def getFileMd5Job (file : σ → Option Text) (task : Bool) : Job Value PyError σ :=
  .step id fun w =>
  match file w with
  | none => .ret none
  | some content =>
    let fileSize := content.length / mib
    let loop := md5Loop md5 task (fileSize + 1) 0 (openFile content) md5.new
    if task then .setSize (.int fileSize) loop else loop

variable {md5} {W : σ → Prop}

theorem closeMd5_reaches {task : Bool} {md5hash : md5.State} {as : List Bool} {r : Option Value}
    (h : (closeMd5 md5 task md5hash : Job Value PyError σ).Reaches W as (.ret r)) :
    as = [] ∧ r = some (.text (md5.hexdigest md5hash)) := by
  cases task with
  | false =>
    cases h
    exact ⟨rfl, rfl⟩
  | true =>
    cases h with
    | finish h =>
      cases h
      exact ⟨rfl, rfl⟩

/-- The loop feeds the rest of the file, unless a report is answered with the order to stop. -/
theorem md5Loop_reaches {task : Bool} {iterations dataRead : Nat} {file : List Text}
    {md5hash : md5.State} {as : List Bool} {r : Option Value} (hfile : file.length ≤ iterations)
    (h : (md5Loop md5 task iterations dataRead file md5hash : Job Value PyError σ).Reaches W as
      (.ret r)) :
    r = if true ∈ as then none else some (.text (md5.hexdigest (md5.update md5hash file.flatten))) := by
  induction iterations generalizing dataRead file md5hash as with
  | zero =>
    obtain rfl : file = [] := List.eq_nil_of_length_eq_zero (by omega)
    obtain ⟨rfl, rfl⟩ := closeMd5_reaches h
    simp [md5.update_nil]
  | succ iterations ih =>
    cases file with
    | nil =>
      obtain ⟨rfl, rfl⟩ := closeMd5_reaches h
      simp [md5.update_nil]
    | cons data file =>
      rw [List.flatten_cons, ← md5.update_update]
      have hfile' : file.length ≤ iterations := Nat.le_of_succ_le_succ hfile
      cases task with
      | false => exact ih hfile' h
      | true =>
        simp only [md5Loop, Job.report, if_true] at h
        cases h with
        | setProgress a h =>
          cases a with
          | true =>
            cases h
            simp
          | false => simpa using ih hfile' h

theorem length_openFile_le (content : Text) :
    (openFile content).length ≤ content.length / mib + 1 := length_blocks_le (by decide) content

theorem getFileMd5Job_reaches {file : σ → Option Text} {task : Bool} {content : Text}
    {as : List Bool} {r : Option Value} (hW : ∀ w, W w → file w = some content)
    (h : (getFileMd5Job md5 file task).Reaches W as (.ret r)) :
    r = if true ∈ as then none else some (.text (md5.digest content)) := by
  have hflat : (openFile content).flatten = content := flatten_blocks (by decide) content
  cases h with
  | step hw h =>
    simp only [hW _ hw] at h
    cases task with
    | false =>
      have hloop := md5Loop_reaches (length_openFile_le content) h
      rwa [hflat] at hloop
    | true =>
      cases h with
      | setSize h =>
        have hloop := md5Loop_reaches (length_openFile_le content) h
        rwa [hflat] at hloop

theorem md5Loop_run (answers : Nat → Bool) {iterations : Nat} {file : List Text}
    (hfile : file.length ≤ iterations) (dataRead n : Nat) (md5hash : md5.State) (w : σ) :
    (md5Loop md5 true iterations dataRead file md5hash).run answers n w =
      (.ok (if Job.stopped answers n file.length then none
        else some (.text (md5.hexdigest (md5.update md5hash file.flatten)))), w) := by
  induction iterations generalizing dataRead file md5hash n with
  | zero =>
    obtain rfl : file = [] := List.eq_nil_of_length_eq_zero (by omega)
    simp [md5Loop, closeMd5, Job.run, Job.stopped_zero, md5.update_nil]
  | succ iterations ih =>
    cases file with
    | nil => simp [md5Loop, closeMd5, Job.run, Job.stopped_zero, md5.update_nil]
    | cons data file =>
      have hfile' : file.length ≤ iterations := Nat.le_of_succ_le_succ hfile
      rw [List.length_cons, Job.stopped_succ, List.flatten_cons, ← md5.update_update]
      simp only [md5Loop, Job.report, if_true, Job.run]
      cases answers n with
      | true => rfl
      | false => simpa using ih hfile' ..

/-- The function comes to its end, whatever the task answers. -/
theorem getFileMd5Job_run (answers : Nat → Bool) {file : σ → Option Text} {content : Text} {w : σ}
    (hfile : file w = some content) : (getFileMd5Job md5 file true).run answers 0 w =
      (.ok (if Job.stopped answers 0 (openFile content).length then none
        else some (.text (md5.digest content))), w) := by
  have hflat : (openFile content).flatten = content := flatten_blocks (by decide) content
  simp only [getFileMd5Job, Job.run, hfile, if_true, id]
  rw [md5Loop_run answers (length_openFile_le content), hflat]
  rfl

/-! ## In a task list -/

section

variable {F : Type} {b : Behaviour F Value PyError σ} {emb : Embeds b} {p : Path}
  {rest : List (Frame Value b.Q)}

/-- `get_file_md5` returns the digest of the whole file, or `None` if one of its reports is answered
with the order to stop: whatever the answers are, and in every run of a task list in which the file
stays as it is. -/
theorem getFileMd5Job_correct (md5 : Md5) (emb : Embeds b) (file : σ → Option Text) (content : Text) :
    (∀ answers w, file w = some content → (getFileMd5Job md5 file true).run answers 0 w =
      (.ok (if Job.stopped answers 0 (openFile content).length then none
        else some (.text (md5.digest content))), w)) ∧
    ∀ {t : Nat → Machine F Value PyError b.Q σ} {n : Nat} {r : Option Value},
      (∀ j < n, Step b (t j) (t (j + 1))) →
      (t 0).stack = .body p (.ready (emb.control (getFileMd5Job md5 file true))) :: rest →
      (∀ j ≤ n, ∃ c, .body p c :: rest <:+ (t j).stack) →
      (∀ j < n, file (t j).world = some content) →
      (t n).stack = .body p (.ready (emb.control (.ret r))) :: rest →
      r = none ∧ (∃ j < n, Machine.Stops emb p rest (t j) (t (j + 1))) ∨
        r = some (.text (md5.digest content)) ∧
          ¬ ∃ j < n, Machine.Stops emb p rest (t j) (t (j + 1)) := by
  refine ⟨fun answers w hfile => getFileMd5Job_run answers hfile, ?_⟩
  intro t n r hsteps hstart hframe hfile hend
  obtain ⟨as, s, hreach, hat, hstops⟩ := Machine.At.run (W := fun w => file w = some content) hsteps
    hstart hframe hfile
  obtain rfl := hat.eq_ret hend
  have hr := getFileMd5Job_reaches (fun _ hw => hw) hreach
  rw [← hstops]
  by_cases has : true ∈ as
  · exact .inl ⟨by rw [hr, if_pos has], has⟩
  · exact .inr ⟨by rw [hr, if_neg has], has⟩

end

/-- The digest of a text is the text. -/
private def plainMd5 : Md5 where
  State := Text
  new := []
  update s a := s ++ a
  hexdigest := id
  update_nil := List.append_nil
  update_update := List.append_assoc

private abbrev SmallMachine := Machine (Job Value PyError Text) Value PyError (Job Value PyError Text) Text

private def smallBehaviour : Behaviour (Job Value PyError Text) Value PyError Text :=
  jobBehaviour fun _ => ""

private def smallTask : TaskSpec (Job Value PyError Text) where
  associatedFunction := .code (getFileMd5Job plainMd5 some true)
  name := "get_file_md5"

/-- A task list whose only task reads a file of two bytes: its size is 0 MB, so that the first report
finishes the task. -/
private def smallRun (j : Nat) : SmallMachine :=
  (Machine.init "list" [.node smallTask []] true "ab".toList : SmallMachine).steps smallBehaviour (j + 3)

private theorem smallRun_step (j : Nat) (hj : ((smallRun j).step smallBehaviour).isSome) :
    Step smallBehaviour (smallRun j) (smallRun (j + 1)) := by
  obtain ⟨m', hm'⟩ := Option.isSome_iff_exists.mp hj
  refine .run (hm'.trans (congrArg some ?_))
  have hsucc : smallRun (j + 1) = ((smallRun j).step smallBehaviour).getD (smallRun j) :=
    Machine.steps_succ smallBehaviour (j + 3) _
  rw [hsucc, hm']
  rfl

private def smallFrame : List (Frame Value (Job Value PyError Text)) := [.subtasks [] 1 .call]

private theorem smallRun_frame : ∀ j ≤ 5, ∃ c, .body [0] c :: smallFrame <:+ (smallRun j).stack := by
  intro j hj
  match j with
  | 0 | 1 | 2 => exact ⟨_, [], rfl⟩
  | 3 => exact ⟨_, [_], rfl⟩
  | 4 | 5 => exact ⟨_, [], rfl⟩

/-- The report finishes the task, and the digest is the one of the whole file. -/
theorem getFileMd5Job_small : (smallRun 4).tree.status? [0] = some .completed ∧
    ∃ r, (smallRun 5).stack = .body [0] (.ready (.ret r)) :: smallFrame ∧
      (r = none ∧ (∃ j < 5, Machine.Stops (Embeds.jobs fun _ => "") [0] smallFrame (smallRun j)
          (smallRun (j + 1))) ∨
        r = some (.text "ab".toList) ∧ ¬ ∃ j < 5, Machine.Stops (Embeds.jobs fun _ => "") [0]
          smallFrame (smallRun j) (smallRun (j + 1))) := by
  refine ⟨rfl, some (.text "ab".toList), rfl, ?_⟩
  refine (getFileMd5Job_correct plainMd5 (Embeds.jobs fun _ => "") some "ab".toList).2
    (fun j hj => smallRun_step j ?_) rfl smallRun_frame (fun j hj => ?_) rfl
  · match j with
    | 0 | 1 | 2 | 3 | 4 => rfl
  · match j with
    | 0 | 1 | 2 | 3 | 4 => rfl

end Swinst.Retrieval
